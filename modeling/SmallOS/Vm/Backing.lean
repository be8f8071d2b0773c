import SmallOS.Vm.Fault
import SmallOS.Vm.PageMap

/-! Splitting and merging areas against the file behind them. A split moves the file offset of the
right part by its distance from the start of the area, which is its distance from the first file
byte only when the two coincide. -/

namespace SmallOS.Vm

open Bytes Prog Ranges List Option Area

variable {a b : Area} {l l' : List Area} {addr start stop x : Nat} {s : Space}

/-- The file part begins in the first page of the area and does not pass its end, as
`mmap` makes it, and the loader for a segment whose file size is within its memory size. -/
def Area.FileOk (a : Area) : Prop :=
  a.kind.backed → a.start ≤ a.fileStart ∧ a.fileStart < a.start + pageSize ∧
    a.fileStart ≤ a.fileEnd ∧ a.fileEnd ≤ a.stop

/-- A split at `addr` through the file part needs the file part to begin at the start. -/
def Area.SplitOk (addr : Nat) (a : Area) : Prop :=
  a.kind.backed → a.fileStart < addr → addr < a.fileEnd → a.fileStart = a.start

@[simp] theorem Area.rightOf_kind (a : Area) (addr : Nat) : (a.rightOf addr).kind = a.kind := by
  unfold rightOf
  split_ifs <;> rfl

theorem Area.Valid.next_page (h : a.Valid) (aligned : addr % pageSize = 0)
    (lower : a.start < addr) : a.start + pageSize ≤ addr := by
  have := h.startAligned
  unfold pageSize at *
  omega

theorem Area.source_congr (path : a.path = b.path) (kind : a.kind = b.kind)
    (part : a.kind.backed → (a.fileStart ≤ x ∧ x < a.fileEnd ↔ b.fileStart ≤ x ∧ x < b.fileEnd))
    (offset : a.kind.backed → a.fileStart ≤ x → x < a.fileEnd →
      wrap (a.fileOffset + (x - a.fileStart)) = wrap (b.fileOffset + (x - b.fileStart))) :
    a.source x = b.source x := by
  unfold source
  by_cases backed : a.kind.backed
  · have part := part backed
    by_cases inside : a.fileStart ≤ x ∧ x < a.fileEnd
    · rw [if_pos ⟨backed, inside⟩, if_pos ⟨kind ▸ backed, part.mp inside⟩, ← path,
        offset backed inside.1 inside.2]
    · rw [if_neg (by tauto), if_neg (by tauto)]
  · rw [if_neg (by tauto), if_neg (by rw [← kind]; tauto)]

theorem Area.FileOk.extend (fa : a.FileOk) (fb : b.FileOk)
    (h : processVmCompatible a b) : (a.extend b).FileOk := by
  obtain ⟨meet, -, -, kind, -, -, -, file⟩ := processVmCompatible_iff.mp h
  intro backed
  obtain ⟨h1, h2, h3, h4⟩ := fa backed
  obtain ⟨h5, h6, h7, h8⟩ := fb (kind ▸ backed)
  refine ⟨h1, h2, ?_, h8⟩
  show a.fileStart ≤ b.fileEnd
  omega

theorem join_source (ha : a.Valid) (hb : b.Valid) (fa : a.FileOk)
    (fb : b.FileOk) (h : processVmCompatible a b) : Cut Area.source (a.extend b) a b := by
  obtain ⟨meet, -, -, kind, -, -, path, file⟩ := processVmCompatible_iff.mp h
  refine ⟨rfl, meet, rfl, ⟨ha.nonempty.le, hb.nonempty.le⟩, fun x hx => ?_, fun x hx => ?_⟩
  · obtain ⟨hlo, hhi⟩ := hx
    simp only [lo_eq, hi_eq] at hlo hhi
    refine source_congr rfl rfl (fun backed => ?_) fun _ _ _ => rfl
    have := fb (kind ▸ backed)
    have := (file backed).1
    show _ ↔ a.fileStart ≤ x ∧ x < b.fileEnd
    omega
  · obtain ⟨hlo, hhi⟩ := hx
    simp only [lo_eq, hi_eq] at hlo hhi
    have hhigh := hb.high
    refine source_congr path.symm kind.symm (fun backed => ?_) fun backed lower upper => ?_
    · have backed : a.kind.backed := kind ▸ backed
      have := fa backed
      have := (file backed).1
      show _ ↔ a.fileStart ≤ x ∧ x < b.fileEnd
      omega
    · have backed : a.kind.backed := kind ▸ backed
      have := fa backed
      obtain ⟨hmid, hoff⟩ := file backed
      show wrap (b.fileOffset + (x - b.fileStart)) = wrap (a.fileOffset + (x - a.fileStart))
      rw [← hoff]
      unfold nextOffset wrap userStackTop at *
      omega

theorem Area.FileOk.rightOf_cases (valid : a.Valid) (file : a.FileOk)
    (backed : a.kind.backed) (aligned : addr % pageSize = 0) (lower : a.start < addr) :
    (a.fileStart < addr ∧ addr < a.fileEnd ∧ a.rightOf addr = { a with
        start := addr
        fileOffset := wrap (a.fileOffset + (addr - a.start))
        fileStart := addr }) ∨
    (a.fileEnd ≤ addr ∧
      a.rightOf addr = { a with start := addr, fileStart := addr, fileEnd := addr }) := by
  have hnext := valid.next_page aligned lower
  obtain ⟨-, h2, -, -⟩ := file backed
  by_cases hin : a.fileStart < addr ∧ addr < a.fileEnd
  · exact .inl ⟨hin.1, hin.2, by rw [rightOf, if_pos backed, if_pos hin]⟩
  · have hend : a.fileEnd ≤ addr := by omega
    exact .inr ⟨hend, by rw [rightOf, if_pos backed, if_neg hin, if_pos hend]⟩

theorem Area.FileOk.leftOf (valid : a.Valid) (file : a.FileOk)
    (aligned : addr % pageSize = 0) (lower : a.start < addr) : (a.leftOf addr).FileOk := by
  intro backed
  have hnext := valid.next_page aligned lower
  obtain ⟨h1, h2, h3, h4⟩ := file backed
  refine ⟨h1, h2, ?_, ?_⟩
  · show a.fileStart ≤ if _ then addr else a.fileEnd
    split
    · omega
    · exact h3
  · show (if a.kind.backed ∧ addr < a.fileEnd then addr else a.fileEnd) ≤ addr
    split
    · exact le_rfl
    · rename_i h
      have : ¬addr < a.fileEnd := fun hlt => h ⟨backed, hlt⟩
      omega

theorem Area.FileOk.rightOf (valid : a.Valid) (file : a.FileOk) (aligned : addr % pageSize = 0)
    (lower : a.start < addr) (upper : addr < a.stop) : (a.rightOf addr).FileOk := by
  intro backed
  have backed : a.kind.backed := by simpa using backed
  obtain ⟨-, -, -, h4⟩ := file backed
  rcases Area.FileOk.rightOf_cases valid file backed aligned lower with
    ⟨-, hend, heq⟩ | ⟨-, heq⟩
  · rw [heq]
    exact ⟨le_rfl, Nat.lt_add_of_pos_right (by decide), hend.le, h4⟩
  · rw [heq]
    exact ⟨le_rfl, Nat.lt_add_of_pos_right (by decide), le_rfl, upper.le⟩

theorem Area.SplitOk.leftOf (h : a.SplitOk x) : (a.leftOf addr).SplitOk x := by
  intro backed lower upper
  refine h backed lower (lt_of_lt_of_le upper ?_)
  show (if _ then addr else a.fileEnd) ≤ a.fileEnd
  split
  · rename_i hlt
    exact hlt.2.le
  · exact le_rfl

theorem Area.SplitOk.rightOf (valid : a.Valid) (file : a.FileOk)
    (aligned : addr % pageSize = 0) (lower : a.start < addr) : (a.rightOf addr).SplitOk x := by
  intro backed _ _
  have backed : a.kind.backed := by simpa using backed
  rcases Area.FileOk.rightOf_cases valid file backed aligned lower with
    ⟨-, -, heq⟩ | ⟨-, heq⟩
  · rw [heq]
  · rw [heq]

theorem Area.leftOf_source (hx : x < addr) : (a.leftOf addr).source x = a.source x := by
  refine source_congr rfl rfl (fun _ => ?_) fun _ _ _ => rfl
  show a.fileStart ≤ x ∧ x < (if _ then addr else a.fileEnd) ↔ _
  split
  · rename_i h
    omega
  · rfl

theorem Area.rightOf_source (valid : a.Valid) (file : a.FileOk) (splitOk : a.SplitOk addr)
    (aligned : addr % pageSize = 0) (lower : a.start < addr) (hx : addr ≤ x) :
    (a.rightOf addr).source x = a.source x := by
  by_cases backed : a.kind.backed
  · rcases Area.FileOk.rightOf_cases valid file backed aligned lower with
      ⟨hstart, hend, heq⟩ | ⟨hend, heq⟩
    · have hfirst := splitOk backed hstart hend
      rw [heq]
      refine source_congr rfl rfl (fun _ => ?_) fun _ _ _ => ?_
      · show addr ≤ x ∧ x < a.fileEnd ↔ _
        omega
      · show wrap (wrap (a.fileOffset + (addr - a.start)) + (x - addr)) = _
        unfold wrap
        omega
    · rw [heq, source_outside (x := x), source_outside (x := x)]
      · omega
      · show ¬(addr ≤ x ∧ x < addr)
        omega
  · rw [rightOf, if_neg backed]
    rfl

theorem split_source (a : Area) (addr : Nat) (valid : a.Valid) (file : a.FileOk)
    (splitOk : a.SplitOk addr) (aligned : addr % pageSize = 0) (lower : a.start < addr)
    (upper : addr < a.stop) : Cut Area.source a (a.leftOf addr) (a.rightOf addr) := by
  refine ⟨rfl, ?_, ?_, ⟨lower.le, ?_⟩, fun x hx => ?_, fun x hx => ?_⟩
  · simp
  · simp
  · simpa using upper.le
  · exact leftOf_source hx.2
  · exact rightOf_source valid file splitOk aligned lower (by simpa using hx.1)

structure Keeps (l l' : List Area) : Prop where
  sound : Sound l'
  file : ∀ a ∈ l', a.FileOk
  source : ∀ x b, value Area.source l' x = some b → value Area.source l x = some b

theorem Keeps.refl (sound : Sound l) (file : ∀ a ∈ l, a.FileOk) :
    Keeps l l := ⟨sound, file, fun _ _ => id⟩

theorem Keeps.trans {k m : List Area} (h : Keeps l k) (h' : Keeps k m) :
    Keeps l m := ⟨h'.sound, h'.file, fun x b hb => h.source x b (h'.source x b hb)⟩

theorem merge_source (sound : Sound l) (file : ∀ a ∈ l, a.FileOk) :
    (∀ a ∈ processVmMerge l, a.FileOk) ∧
      ∀ x, value Area.source (processVmMerge l) x = value Area.source l x := by
  obtain ⟨same, good⟩ := processVmMerge_same (f := source)
    (P := fun a => a.Valid ∧ a.FileOk) (fun _ _ ha hb => join_source ha.1 hb.1 ha.2 hb.2)
    (fun _ _ ha hb h => ⟨ha.1.extend hb.1 h, ha.2.extend hb.2 h⟩) l
    fun a ha => ⟨sound.valid a ha, file a ha⟩
  exact ⟨fun a ha => (good a ha).2, same.value⟩

theorem merge_keeps (sound : Sound l) (file : ∀ a ∈ l, a.FileOk) : Keeps l (processVmMerge l) := by
  obtain ⟨file', same⟩ := merge_source sound file
  exact ⟨(merge_attrs sound).1, file', fun x b hb => (same x).symm.trans hb⟩

theorem added_source (sound : Sound l) (file : ∀ b ∈ l, b.FileOk) (fa : a.FileOk)
    (hadd : Added a l l') : (∀ b ∈ l', b.FileOk) ∧ ∀ x, value Area.source l' x =
      if a.start ≤ x ∧ x < a.stop then some (a.source x) else value Area.source l x := by
  have inserted : ∀ b ∈ l.takeWhile (·.start < a.start) ++ a :: l.dropWhile (·.start < a.start),
      b.FileOk := by
    intro b hb
    rcases mem_append.mp hb with hb | hb
    · exact file b (takeWhile_subset _ hb)
    · rcases mem_cons.mp hb with rfl | hb
      · exact fa
      · exact file b (dropWhile_subset _ hb)
  obtain ⟨file', same⟩ := merge_source (hadd.inserted_sound sound) inserted
  rw [hadd.merged]
  exact ⟨file', fun x => (same x).trans (hadd.value_inserted source sound x)⟩

structure Area.Splittable (start stop : Nat) (a : Area) : Prop where
  valid : a.Valid
  file : a.FileOk
  atStart : a.SplitOk start
  atStop : a.SplitOk stop

theorem Area.Splittable.split (h : a.Splittable start stop) (haddr : addr = start ∨ addr = stop)
    (aligned : addr % pageSize = 0) (lower : a.start < addr) (upper : addr < a.stop) :
    Cut Area.source a (a.leftOf addr) (a.rightOf addr) ∧
      (a.leftOf addr).Splittable start stop ∧ (a.rightOf addr).Splittable start stop := by
  have splitOk : a.SplitOk addr := by
    rcases haddr with rfl | rfl
    · exact h.atStart
    · exact h.atStop
  refine ⟨split_source a addr h.valid h.file splitOk aligned lower upper, ?_, ?_⟩
  · exact ⟨h.valid.leftOf aligned lower upper, .leftOf h.valid h.file aligned lower,
      h.atStart.leftOf, h.atStop.leftOf⟩
  · exact ⟨h.valid.rightOf aligned lower upper, .rightOf h.valid h.file aligned lower upper,
      .rightOf h.valid h.file aligned lower, .rightOf h.valid h.file aligned lower⟩

theorem isolated_keeps (sound : Sound l)
    (good : ∀ a ∈ l, a.Splittable start stop) (h : Isolated True start stop l l') : Keeps l l' := by
  obtain ⟨same, good'⟩ := h.same (f := source) trivial good fun a addr => fun haddr ha =>
    ha.split haddr
  refine ⟨⟨fun a ha => (good' a ha).valid, same.apart sound.apart⟩,
    fun a ha => (good' a ha).file, fun x b hb => ?_⟩
  rwa [same.value x] at hb

theorem reshaped_keeps (sound : Sound l)
    (good : ∀ a ∈ l, a.Splittable start stop) (h : Reshaped start stop l l') : Keeps l l' := by
  cases h with
  | same => exact .refl sound fun a ha => (good a ha).file
  | removed removed =>
    obtain ⟨l1, isolated, rfl⟩ := removed
    have keeps := isolated_keeps sound good isolated
    obtain ⟨-, cutStart, cutStop, -⟩ := isolated_attrs trivial sound isolated
    have erased : Keeps l1 (l1.filter fun a => !a.inside start stop) := by
      refine ⟨⟨fun a ha => keeps.sound.valid a (mem_of_mem_filter ha),
        keeps.sound.apart.filter _⟩, fun a ha => keeps.file a (mem_of_mem_filter ha), ?_⟩
      intro x b hb
      have herase := value_erase source cutStart cutStop x
      rw [show value source (l1.filter fun a => !a.inside start stop) x = _ from herase] at hb
      split at hb
      · cases hb
      · exact hb
    exact (keeps.trans erased).trans (merge_keeps erased.sound erased.file)
  | reprotected prot hprot =>
    obtain ⟨l1, isolated, rfl⟩ := hprot.merged
    have keeps := isolated_keeps sound good isolated
    obtain ⟨sound1, cutStart, cutStop, same1⟩ := isolated_attrs trivial sound isolated
    have changed : Keeps l1 (protectAreas start stop prot l1) := by
      refine ⟨hprot.protectAreas_sound isolated.range sound1 same1, ?_, ?_⟩
      · intro b hb
        obtain ⟨a, ha, rfl⟩ := List.mem_map.mp hb
        split
        · exact keeps.file a ha
        · exact keeps.file a ha
      · intro x b hb
        have hupdate := value_update source (fun a => { a with prot := prot }) id
          cutStart cutStop (fun _ => rfl) (fun _ => rfl) (fun _ _ => rfl) x
        rw [show value source (protectAreas start stop prot l1) x = _ from hupdate,
          Option.map_id, id, ite_self] at hb
        exact hb
    exact (keeps.trans changed).trans (merge_keeps changed.sound changed.file)

def processVmPageMayWrite (areas : List Area) (page : Nat) : Bool :=
  (find areas page).any fun a => a.maxProt.writable

def Page.lend (mayWrite : Bool) (p : Page) : Page :=
  if p.sharedRo || p.cow then { p with shared := true }
  else if p.write || mayWrite then { p with write := false, cow := true, shared := true }
  else { p with shared := true }

def Page.borrow (mayWrite : Bool) (p : Page) : Page := { p.lend mayWrite with write := false }

def lendPages (s : Space) (cloned : Nat → Bool) : Nat → Option Page := fun page =>
  if cloned page then (s.pages page).map (Page.lend (processVmPageMayWrite s.areas page))
  else s.pages page

def borrowPages (s : Space) : Nat → Option Page := fun page =>
  (s.pages page).map (Page.borrow (processVmPageMayWrite s.areas page))

/-- How a fork goes on once the areas are copied. It fails after some pages, or the process at
hand is the parent or the child. -/
inductive ForkEnd
  | failed (cloned : Nat → Bool)
  | parent
  | child

/-- What a process does to its areas after they are made. `child` is the fresh memory
that `fork` fills. -/
inductive Call
  | munmap (addr length : Nat)
  | mprotect (addr length : Nat) (prot : Prot)
  | fork (child : Space) (fate : ForkEnd)

def after {ε : Type} : EStateM.Result ε Space Unit → Space
  | .ok _ s => s
  | .error _ s => s

def Call.run (s : Space) : Call → Space
  | .munmap addr length => after (sysMunmapImpl addr length s)
  | .mprotect addr length prot => after (sysMprotectImpl addr length prot s)
  | .fork child fate => match processVmClone s child with
    | .error _ _ => s
    | .ok _ child => match fate with
      | .failed cloned => { s with pages := lendPages s cloned }
      | .parent => { s with pages := lendPages s fun _ => true }
      | .child => { child with pages := borrowPages s }

/-- The call splits no area in the middle of a file part that begins off its start. -/
def Call.Clean (s : Space) : Call → Prop
  | .munmap addr length | .mprotect addr length _ =>
    ∀ a ∈ s.areas, a.SplitOk addr ∧ a.SplitOk (wrap (addr + pageAlign length))
  | .fork _ _ => True

def CleanRun (s : Space) : List Call → Prop
  | [] => True
  | c :: calls => c.Clean s ∧ CleanRun (c.run s) calls

theorem after_of_post {ε : Type} {x : EStateM ε Space Unit} {R : Space → Prop}
    (h : Post x s (fun _ s' => R s') (fun _ s' => R s')) : R (after (x s)) := by
  unfold Post at h
  cases run : x s with
  | ok u s' => rw [run] at h; exact h
  | error e s' => rw [run] at h; exact h

theorem areas_fork (s child : Space) (fate : ForkEnd) :
    ((Call.fork child fate).run s).areas = s.areas := by
  have post := processVmClone_post s child
  rw [Call.run]
  cases run : processVmClone s child with
  | ok u s' =>
    cases fate with
    | failed _ => rfl
    | parent => rfl
    | child =>
      have areas : s'.areas = s.areas := post.of_ok run
      exact areas
  | error e s' => rfl

theorem Call.keeps {c : Call} (sound : Sound s.areas)
    (file : ∀ a ∈ s.areas, a.FileOk) (clean : c.Clean s) : Keeps s.areas (c.run s).areas := by
  cases c with
  | munmap addr length =>
    refine reshaped_keeps sound (fun a ha => ?_) (after_of_post (sysMunmapImpl_post addr length s))
    exact ⟨sound.valid a ha, file a ha, (clean a ha).1, (clean a ha).2⟩
  | mprotect addr length prot =>
    refine reshaped_keeps sound (fun a ha => ?_)
      (after_of_post (sysMprotectImpl_post addr length prot s))
    exact ⟨sound.valid a ha, file a ha, (clean a ha).1, (clean a ha).2⟩
  | fork child fate =>
    rw [areas_fork]
    exact .refl sound file

theorem run_keeps (calls : List Call) :
    ∀ s : Space, Sound s.areas → (∀ a ∈ s.areas, a.FileOk) → CleanRun s calls →
      Keeps s.areas (calls.foldl Call.run s).areas := by
  induction calls with
  | nil => exact fun s sound file _ => .refl sound file
  | cons c calls ih =>
    rintro s sound file ⟨clean, rest⟩
    have keeps := Call.keeps sound file clean
    exact keeps.trans (ih (c.run s) keeps.sound keeps.file rest)

theorem Sound.find_page (sound : Sound l) {i : Nat}
    (h : find l (pageFloor addr) = some a) (hi : i < pageSize) :
    find l (pageFloor addr + i) = some a := by
  obtain ⟨hmem, hlo, hhi⟩ := find_some h
  have hstop := (sound.valid a hmem).stopAligned
  have hpage : pageFloor addr % pageSize = 0 := Nat.mul_mod_left ..
  simp only [lo_eq, hi_eq] at hlo hhi
  refine find_of_mem sound.apart hmem ⟨hlo.trans (Nat.le_add_right ..), ?_⟩
  show pageFloor addr + i < a.stop
  unfold pageSize at *
  omega

theorem Keeps.find (h : Keeps l l') (sound : Sound l)
    {a' : Area} (hfind : find l' (pageFloor addr) = some a') :
    ∃ a, Ranges.find l (pageFloor addr) = some a ∧
      ∀ i < pageSize, a'.source (pageFloor addr + i) = a.source (pageFloor addr + i) := by
  have hvalue := h.source (pageFloor addr) _ (by rw [value, hfind, map_some])
  obtain ⟨a, ha, -⟩ := map_eq_some_iff.mp hvalue
  refine ⟨a, ha, fun i hi => ?_⟩
  have hi' := h.source (pageFloor addr + i) _ (by
    rw [value, h.sound.find_page hfind hi, map_some])
  rw [value, sound.find_page ha hi, map_some] at hi'
  exact (Option.some.inj hi').symm

theorem Supplies.unique {fs : Files} {b c : UInt8} {source : Option (Path × Nat)}
    (hb : Supplies fs b source) (hc : Supplies fs c source) : b = c := by
  cases source with
  | none => exact (show b = 0 from hb).trans (show c = 0 from hc).symm
  | some at_ =>
    obtain ⟨-, -, -, hb⟩ := hb
    obtain ⟨-, -, -, hc⟩ := hc
    exact hb.trans hc.symm

theorem backing_kept (fs : Files) (s : Space) (sound : Sound s.areas)
    (file : ∀ a ∈ s.areas, a.FileOk) (calls : List Call) (clean : CleanRun s calls) (addr : Nat)
    (write : Bool) (t : Space)
    (fault : processVmHandleFault fs addr false write (calls.foldl Call.run s) = .ok () t) :
    ∃ a p, find s.areas (pageFloor addr) = some a ∧ t.pages (pageFloor addr) = some p ∧
      Loaded fs a (pageFloor addr) p.bytes ∧
      ∀ write₀ t₀, processVmHandleFault fs addr false write₀ s = .ok () t₀ →
        ∃ p₀, t₀.pages (pageFloor addr) = some p₀ ∧ ∀ i < pageSize, p.bytes i = p₀.bytes i := by
  have keeps := run_keeps calls s sound file clean
  obtain ⟨a', p, handled⟩ := (processVmHandleFault_post ..).of_ok fault
  obtain ⟨a, hfind, same⟩ := keeps.find sound handled.found
  have loaded : Loaded fs a (pageFloor addr) p.bytes := fun i hi =>
    same i hi ▸ (handled.loaded rfl).2 i hi
  refine ⟨a, p, hfind, by rw [handled.pages, Function.update_self], loaded, ?_⟩
  intro write₀ t₀ fault₀
  obtain ⟨a₀, p₀, handled₀⟩ := (processVmHandleFault_post ..).of_ok fault₀
  obtain rfl : a = a₀ := Option.some.inj (hfind.symm.trans handled₀.found)
  refine ⟨p₀, by rw [handled₀.pages, Function.update_self], fun i hi => ?_⟩
  exact (loaded i hi).unique ((handled₀.loaded rfl).2 i hi)

def countFile : Files := fun path =>
  if path = [97] then some ⟨0x4000, ⟨fun i => UInt8.ofNat (i / 256)⟩, by decide⟩ else none

def textSpace (vaddr : Nat) : Space where
  array := some ⟨areaInitial, [⟨0x400000, 0x403000, 5, 5, .elf, 0, 0x400000 + vaddr, 0x403000,
    vaddr, 0x3000 - vaddr, [97]⟩]⟩
  pages := fun _ => none
  alloc := fun _ => true
  allocs := 0

theorem textSpace_sound (vaddr : Nat) : Sound (textSpace vaddr).areas where
  valid := by
    intro a ha
    obtain rfl := mem_singleton.mp ha
    exact ⟨show 0x400000 % pageSize = 0 by decide, show 0x403000 % pageSize = 0 by decide,
      show 0x400000 < 0x403000 by decide, show userCodeBase ≤ 0x400000 by decide,
      show 0x403000 ≤ userStackTop by decide, show Prot.within 5 5 by decide⟩
  apart := pairwise_singleton ..

theorem textSpace_file {vaddr : Nat} (h : vaddr < pageSize) :
    ∀ a ∈ (textSpace vaddr).areas, a.FileOk := by
  intro a ha _
  obtain rfl := mem_singleton.mp ha
  unfold pageSize at *
  refine ⟨Nat.le_add_right .., ?_, ?_, le_rfl⟩
  · show 0x400000 + vaddr < 0x400000 + 4096
    omega
  · show 0x400000 + vaddr ≤ 0x403000
    omega

theorem backing_kept_munmap : ∃ t, processVmHandleFault countFile 0x402000 false false
        ([Call.munmap 0x401000 0x1000].foldl Call.run (textSpace 0)) = .ok () t ∧
      ∃ a p, find (textSpace 0).areas (pageFloor 0x402000) = some a ∧
        t.pages (pageFloor 0x402000) = some p ∧ Loaded countFile a (pageFloor 0x402000) p.bytes ∧
        ∀ write₀ t₀, processVmHandleFault countFile 0x402000 false write₀ (textSpace 0) =
          .ok () t₀ → ∃ p₀, t₀.pages (pageFloor 0x402000) = some p₀ ∧
            ∀ i < pageSize, p.bytes i = p₀.bytes i :=
  have run : ∃ t, processVmHandleFault countFile 0x402000 false false
      ([Call.munmap 0x401000 0x1000].foldl Call.run (textSpace 0)) = .ok () t := ⟨_, rfl⟩
  have ⟨t, run⟩ := run
  have clean : CleanRun (textSpace 0) [.munmap 0x401000 0x1000] := by
    refine ⟨fun a ha => ?_, trivial⟩
    obtain rfl := mem_singleton.mp ha
    exact ⟨fun _ _ _ => rfl, fun _ _ _ => rfl⟩
  ⟨t, run, backing_kept countFile (textSpace 0) (textSpace_sound 0) (textSpace_file (by decide))
    _ clean 0x402000 false t run⟩

/-- With its first byte at `0x400100` the segment is split 256 bytes off. -/
theorem unaligned_split_shifts_file :
    Sound (textSpace 0x100).areas ∧ (∀ a ∈ (textSpace 0x100).areas, a.FileOk) ∧
    (∃ t p, processVmHandleFault countFile 0x402000 false false (textSpace 0x100) = .ok () t ∧
      t.pages 0x402000 = some p ∧ p.bytes 0 = 0x20) ∧
    ∃ t p, processVmHandleFault countFile 0x402000 false false
        ([Call.munmap 0x401000 0x1000].foldl Call.run (textSpace 0x100)) = .ok () t ∧
      t.pages 0x402000 = some p ∧ p.bytes 0 = 0x21 :=
  ⟨textSpace_sound _, textSpace_file (by decide), ⟨_, _, rfl, rfl, by decide⟩,
    ⟨_, _, rfl, rfl, by decide⟩⟩

end SmallOS.Vm
