import SmallOS.Vm.AreaMap
import Mathlib.Data.List.TakeWhile

/-! The area calls against their meaning: adding, removing and protecting a range
insert, erase and change exactly that range of the map from addresses to attributes,
and a call that fails changes nothing of it. -/

namespace SmallOS.Vm

open Bytes Prog Ranges List Option Area Space

variable {a b : Area} {l l' l1 : List Area} {addr p start stop x : Nat} {prot : Prot}

def Area.attrs (a : Area) (_ : Nat) : Prot × Prot × BitVec 32 := (a.prot, a.maxProt, a.flags)

/-- The map from addresses to attributes that the area list stands for. -/
def Space.pageMap (s : Space) : Nat → Option (Prot × Prot × BitVec 32) := value Area.attrs s.areas

theorem processVmCompatible_iff : processVmCompatible a b ↔
      a.stop = b.start ∧ a.prot = b.prot ∧ a.maxProt = b.maxProt ∧ a.kind = b.kind ∧
        a.flags = b.flags ∧ a.fileSize = b.fileSize ∧ a.path = b.path ∧
        (a.kind.backed → a.fileEnd = b.fileStart ∧ a.nextOffset = b.fileOffset) := by
  simp only [processVmCompatible, Bool.and_eq_true, Bool.or_eq_true, Bool.not_eq_true',
    beq_iff_eq, and_assoc]
  cases a.kind.backed <;> simp

theorem Area.Valid.extend (ha : a.Valid) (hb : b.Valid)
    (h : processVmCompatible a b) : (a.extend b).Valid where
  startAligned := ha.startAligned
  stopAligned := hb.stopAligned
  nonempty := by
    have := (processVmCompatible_iff.mp h).1
    have := ha.nonempty
    have := hb.nonempty
    show a.start < b.stop
    omega
  low := ha.low
  high := hb.high
  prot := ha.prot

theorem join_attrs (ha : a.Valid) (hb : b.Valid) (h : processVmCompatible a b) :
    Cut Area.attrs (a.extend b) a b := by
  obtain ⟨meet, prot, maxProt, -, flags, -⟩ := processVmCompatible_iff.mp h
  refine ⟨rfl, meet, rfl, ⟨ha.nonempty.le, hb.nonempty.le⟩, fun _ _ => rfl, fun p _ => ?_⟩
  show (b.prot, b.maxProt, b.flags) = (a.prot, a.maxProt, a.flags)
  rw [prot, maxProt, flags]

theorem Area.rightOf_attrs (a : Area) (addr p : Nat) : (a.rightOf addr).attrs p = a.attrs p := by
  unfold rightOf
  split_ifs <;> rfl

theorem Area.Valid.leftOf (h : a.Valid) (aligned : addr % pageSize = 0)
    (lower : a.start < addr) (upper : addr < a.stop) : (a.leftOf addr).Valid :=
  ⟨h.startAligned, aligned, lower, h.low, upper.le.trans h.high, h.prot⟩

theorem Area.Valid.rightOf (h : a.Valid) (aligned : addr % pageSize = 0)
    (lower : a.start < addr) (upper : addr < a.stop) : (a.rightOf addr).Valid := by
  have attrs := a.rightOf_attrs addr 0
  simp only [Area.attrs, Prod.mk.injEq] at attrs
  refine ⟨?_, ?_, ?_, ?_, ?_, ?_⟩
  · rwa [rightOf_start]
  · rw [rightOf_stop]
    exact h.stopAligned
  · rwa [rightOf_start, rightOf_stop]
  · rw [rightOf_start]
    exact h.low.trans lower.le
  · rw [rightOf_stop]
    exact h.high
  · rw [attrs.1, attrs.2.1]
    exact h.prot

theorem split_attrs (a : Area) (addr : Nat) (h : a.Valid) (aligned : addr % pageSize = 0)
    (lower : a.start < addr) (upper : addr < a.stop) :
    Cut Area.attrs a (a.leftOf addr) (a.rightOf addr) ∧ (a.leftOf addr).Valid ∧
      (a.rightOf addr).Valid := by
  refine ⟨⟨rfl, ?_, ?_, ⟨lower.le, ?_⟩, fun p _ => ?_, fun p _ => ?_⟩,
    h.leftOf aligned lower upper, h.rightOf aligned lower upper⟩
  · simp
  · simp
  · simpa using upper.le
  · rfl
  · exact a.rightOf_attrs addr p

theorem merge_attrs (h : Sound l) :
    Sound (processVmMerge l) ∧ ∀ p, value Area.attrs (processVmMerge l) p = value Area.attrs l p := by
  obtain ⟨same, valid⟩ := processVmMerge_same (f := attrs) (P := Valid)
    (fun _ _ ha hb => join_attrs ha hb) (fun _ _ ha hb => ha.extend hb) l h.valid
  exact ⟨⟨valid, same.apart h.apart⟩, same.value⟩

section

variable {fits : Prop} (hf : fits)
include hf

theorem isolated_attrs (h : Sound l) (hi : Isolated fits start stop l l') :
    Sound l' ∧ CutAt start l' ∧ CutAt stop l' ∧
      ∀ p, value Area.attrs l' p = value Area.attrs l p := by
  obtain ⟨same, valid⟩ := hi.same (f := attrs) hf h.valid fun a addr _ => split_attrs a addr
  obtain ⟨l1, split1, split2⟩ := hi.split hf
  obtain ⟨same1, -⟩ := split1.same (f := attrs) h.valid
    fun a ha => split_attrs a start (h.valid a ha)
  exact ⟨⟨valid, same.apart h.apart⟩, split2.cutAt_of_cutAt (split1.cutAt h.apart),
    split2.cutAt (same1.apart h.apart), same.value⟩

theorem removed_attrs (h : Sound l) (hrem : Removed fits start stop l l') :
    Sound l' ∧ ∀ p, value Area.attrs l' p =
      if start ≤ p ∧ p < stop then none else value Area.attrs l p := by
  obtain ⟨l1, isolated, rfl⟩ := hrem
  obtain ⟨sound1, cutStart, cutStop, same1⟩ := isolated_attrs hf h isolated
  have kept : Sound (l1.filter fun a => !a.inside start stop) :=
    ⟨fun a ha => sound1.valid a (mem_of_mem_filter ha), sound1.apart.filter _⟩
  obtain ⟨sound, same⟩ := merge_attrs kept
  refine ⟨sound, fun p => ?_⟩
  rw [same, ← same1]
  exact value_erase attrs cutStart cutStop p

end

theorem Sound.start_ge_of_mem_dropWhile (h : Sound l)
    (hb : b ∈ l.dropWhile (·.start < x)) : x ≤ b.start := by
  induction l with
  | nil => cases hb
  | cons a rest ih =>
    obtain ⟨above, apart⟩ := pairwise_cons.mp h.apart
    have hrest : Sound rest := ⟨fun c hc => h.valid c (mem_cons_of_mem a hc), apart⟩
    rw [dropWhile_cons] at hb
    split at hb
    · exact ih hrest hb
    · rename_i ha
      have hax : x ≤ a.start := by simpa using ha
      rcases mem_cons.mp hb with rfl | hb
      · exact hax
      · have := above b hb
        have := (h.valid a mem_cons_self).nonempty
        simp only [lo_eq, hi_eq] at *
        omega

theorem start_lt_of_mem_takeWhile (hb : b ∈ l.takeWhile (·.start < x)) : b.start < x := by
  simpa using mem_takeWhile_imp hb

theorem Added.neighbours (h : Sound l) (hadd : Added a l l') :
    (∀ b ∈ l.takeWhile (·.start < a.start), b.stop ≤ a.start) ∧
      ∀ b ∈ l.dropWhile (·.start < a.start), a.stop ≤ b.start := by
  have hne := hadd.valid.nonempty
  constructor
  · intro b hb
    have := start_lt_of_mem_takeWhile hb
    have := hadd.free b (takeWhile_subset _ hb)
    omega
  · intro b hb
    have hmem := dropWhile_subset _ hb
    have := h.start_ge_of_mem_dropWhile hb
    have := hadd.free b hmem
    have := (h.valid b hmem).nonempty
    omega

theorem Added.inserted_sound (h : Sound l) (hadd : Added a l l') :
    Sound (l.takeWhile (·.start < a.start) ++ a :: l.dropWhile (·.start < a.start)) := by
  obtain ⟨below, above⟩ := hadd.neighbours h
  refine ⟨?_, Apart.insert ?_ below above⟩
  · intro b hb
    rcases mem_append.mp hb with hb | hb
    · exact h.valid b (takeWhile_subset _ hb)
    · rcases mem_cons.mp hb with rfl | hb
      · exact hadd.valid
      · exact h.valid b (dropWhile_subset _ hb)
  · rw [takeWhile_append_dropWhile]
    exact h.apart

theorem Added.value_inserted {β : Type} (f : Area → Nat → β)
    (h : Sound l) (hadd : Added a l l') (p : Nat) :
    value f (l.takeWhile (·.start < a.start) ++ a :: l.dropWhile (·.start < a.start)) p =
      if a.start ≤ p ∧ p < a.stop then some (f a p) else value f l p := by
  obtain ⟨below, -⟩ := hadd.neighbours h
  rw [value_insert f below, takeWhile_append_dropWhile]
  rfl

theorem added_attrs (h : Sound l) (hadd : Added a l l') : Sound l' ∧ ∀ p, value Area.attrs l' p =
      if a.start ≤ p ∧ p < a.stop then some (a.attrs p) else value Area.attrs l p := by
  obtain ⟨sound, same⟩ := merge_attrs (hadd.inserted_sound h)
  rw [hadd.merged]
  exact ⟨sound, fun p => (same p).trans (hadd.value_inserted attrs h p)⟩

theorem value_of_mem (h : Sound l) (ha : a ∈ l)
    (hp : Covers a p) : value Area.attrs l p = some (a.attrs p) := by
  rw [value, find_of_mem h.apart ha hp, map_some]

theorem mem_of_value {x : Prot × Prot × BitVec 32}
    (h : value Area.attrs l p = some x) : ∃ a ∈ l, Covers a p ∧ a.attrs p = x := by
  obtain ⟨a, hfind, hx⟩ := map_eq_some_iff.mp h
  obtain ⟨hmem, hcov⟩ := find_some hfind
  exact ⟨a, hmem, hcov, hx⟩

section

variable {fits : Prop} (h : Protected fits start stop prot l l') (range : start < stop) (sound1 : Sound l1)
  (same : ∀ p, value Area.attrs l1 p = value Area.attrs l p)
include h range sound1 same

/-- The check against `max_prot` is made before the splits; it holds of the parts too. -/
theorem Protected.allowed_after : ∀ a ∈ l1, ¬a.outside start stop → Prot.within prot a.maxProt := by
  intro a ha hmeets
  have hne := (sound1.valid a ha).nonempty
  unfold outside at hmeets
  -- an address of the range that `a` covers was covered before by an area that was checked
  have hcov : Covers a (max a.start start) := by
    constructor <;> simp only [lo_eq, hi_eq] <;> omega
  obtain ⟨b, hb, hbcov, hattrs⟩ := mem_of_value ((same _).symm.trans (value_of_mem sound1 ha hcov))
  have hbmeets : ¬b.outside start stop := by
    unfold Covers at hbcov
    unfold outside
    simp only [lo_eq, hi_eq] at hbcov
    omega
  have hmax : b.maxProt = a.maxProt := congrArg (·.2.1) hattrs
  rw [← hmax]
  exact h.allowed b hb hbmeets

theorem Protected.protectAreas_sound : Sound (protectAreas start stop prot l1) := by
  refine ⟨?_, sound1.apart.update (fun a => ?_) fun a => ?_⟩
  · intro b hb
    obtain ⟨a, ha, rfl⟩ := List.mem_map.mp hb
    have valid := sound1.valid a ha
    split
    · exact valid
    · rename_i hmeets
      exact ⟨valid.startAligned, valid.stopAligned, valid.nonempty, valid.low, valid.high,
        h.allowed_after range sound1 same a ha hmeets⟩
  · split <;> rfl
  · split <;> rfl

end

theorem protected_attrs {fits : Prop} (hf : fits) (h : Sound l)
    (hprot : Protected fits start stop prot l l') :
    Sound l' ∧ ∀ p, value Area.attrs l' p = if start ≤ p ∧ p < stop then
        (value Area.attrs l p).map fun (_, maxProt, flags) => (prot, maxProt, flags)
      else value Area.attrs l p := by
  obtain ⟨l1, isolated, rfl⟩ := hprot.merged
  obtain ⟨sound1, cutStart, cutStop, same1⟩ := isolated_attrs hf h isolated
  obtain ⟨sound, same⟩ := merge_attrs (hprot.protectAreas_sound isolated.range sound1 same1)
  refine ⟨sound, fun p => ?_⟩
  rw [same, ← same1]
  exact value_update attrs (fun a => { a with prot := prot })
    (fun (_, maxProt, flags) => (prot, maxProt, flags)) cutStart cutStop (fun _ => rfl)
    (fun _ => rfl) (fun _ _ => rfl) p

inductive Request
  | add (area : Area)
  | remove (start stop : Nat)
  | protect (start stop : Nat) (prot : Prot)

def Request.run : Request → M Unit
  | .add area => processVmAdd area
  | .remove start stop => processVmRemoveRange start stop
  | .protect start stop prot => processVmProtect start stop prot

abbrev PageMap := Nat → Option (Prot × Prot × BitVec 32)

/-- What a call means for the map: one range is inserted, erased or re-protected. -/
def Request.effect : Request → PageMap → PageMap
  | .add a, m => fun p =>
    if a.start ≤ p ∧ p < a.stop then some (a.prot, a.maxProt, a.flags) else m p
  | .remove start stop, m => fun p => if start ≤ p ∧ p < stop then none else m p
  | .protect start stop prot, m => fun p =>
    if start ≤ p ∧ p < stop then
      (m p).map fun (_, maxProt, flags) => (prot, maxProt, flags)
    else m p

theorem value_torn {β : Type} (f : Area → Nat → β) (l : List Area) (addr p : Nat) :
    value f (splitAreas addr true l) p = value f l p := by
  induction l with
  | nil => rfl
  | cons a rest ih =>
    unfold splitAreas
    by_cases hc : Covers a addr
    · rw [if_pos hc, if_pos rfl, value_cons, value_cons, value_cons]
      have hright : Covers (a.rightOf addr) p → Covers a p := by
        unfold Covers at *
        simp only [lo_eq, hi_eq, rightOf_start, rightOf_stop] at *
        omega
      split_ifs with ha hr
      · rfl
      · exact absurd (hright hr) ha
      · rfl
    · rw [if_neg hc, value_cons, value_cons, ih]

theorem Halted.pageMap {s s' : Space} (h : Sound s.areas)
    (halted : Halted start s.areas s'.areas) : s'.pageMap = s.pageMap := by
  funext p
  unfold Space.pageMap
  rcases halted with same | ⟨moved, split⟩
  · rw [same]
  cases moved with
  | false => exact (split.same (f := Area.attrs) h.valid
      fun a ha => split_attrs a start (h.valid a ha)).1.value p
  | true =>
    generalize s'.areas = l' at split
    cases split with
    | whole => rfl
    | parts => exact value_torn ..

theorem layers_mergeFrom (cur : Area) (hcur : cur.start < cur.stop) (hl : Filled l) :
    layers x (cur :: l) ≤ layers x (mergeFrom cur l) := by
  induction l generalizing cur with
  | nil => exact le_rfl
  | cons next rest ih =>
    obtain ⟨hnext, hrest⟩ := forall_mem_cons.mp hl
    unfold mergeFrom
    split_ifs with hc
    · have meet := (processVmCompatible_iff.mp hc).1
      refine le_trans ?_ (ih (cur.extend next) (show cur.start < next.stop by omega) hrest)
      simp only [layers, Covers, Area.extend, lo_eq, hi_eq]
      grind
    · exact Nat.add_le_add_left (ih next hnext hrest) _

theorem layers_merge (hl : Filled l) : layers x l ≤ layers x (processVmMerge l) := by
  cases l with
  | nil => exact le_rfl
  | cons a rest =>
    obtain ⟨ha, hrest⟩ := forall_mem_cons.mp hl
    exact layers_mergeFrom a ha hrest

theorem layers_splitAreas (moved : Bool) : layers x l ≤ layers x (splitAreas addr moved l) := by
  induction l with
  | nil => exact le_rfl
  | cons a rest ih =>
    unfold splitAreas
    split_ifs with hc hm
    · simp only [layers]
      omega
    · simp only [layers, Covers, lo_eq, hi_eq, leftOf_start, leftOf_stop, rightOf_start,
        rightOf_stop]
      grind
    · exact Nat.add_le_add_left ih _

theorem layers_torn (h : Inner l addr) : 2 ≤ layers addr (splitAreas addr true l) := by
  obtain ⟨a, hfind, -⟩ := h
  induction l with
  | nil => cases hfind
  | cons b rest ih =>
    rw [find_cons] at hfind
    unfold splitAreas
    by_cases hc : Covers b addr
    · have hright : Covers (b.rightOf addr) addr := by
        simpa [Covers] using hc.2
      simp only [hc, if_true, layers, hright]
      omega
    · rw [if_neg hc] at hfind ⊢
      exact (ih hfind).trans (Nat.le_add_left ..)

theorem SplitTo.layers_le {moved : Bool} (h : SplitTo addr moved l l') :
    layers x l ≤ layers x l' := by
  cases h with
  | whole => exact le_rfl
  | parts => exact layers_splitAreas moved

theorem Torn.layers (h : Torn start stop l l') : ∃ x, 2 ≤ layers x l' := by
  cases h with
  | first _ inner split => exact ⟨start, (layers_torn inner).trans split.layers_le⟩
  | second _ _ inner => exact ⟨stop, layers_torn inner⟩

def Crossed (x : Nat) (l : List Area) : Prop := ∃ a ∈ l, a.start < x ∧ x < a.stop

theorem Crossed.split {moved : Bool} (h : Crossed x l) (hx : moved = true ∨ x ≠ addr) :
    Crossed x (splitAreas addr moved l) := by
  obtain ⟨a, ha, hlow, hhigh⟩ := h
  induction l with
  | nil => cases ha
  | cons b rest ih =>
    unfold splitAreas Crossed
    rcases mem_cons.mp ha with rfl | ha
    · split_ifs with hc hm
      · exact ⟨a, mem_cons_self, hlow, hhigh⟩
      · have := hx.resolve_left hm
        rcases Nat.lt_or_ge x addr with hlt | hge
        · exact ⟨_, mem_cons_self, hlow, hlt⟩
        · refine ⟨_, mem_cons_of_mem _ mem_cons_self, ?_, ?_⟩
          · rw [rightOf_start]
            omega
          · rwa [rightOf_stop]
      · exact ⟨a, mem_cons_self, hlow, hhigh⟩
    · split_ifs with hc
      · exact ⟨a, by simp [ha], hlow, hhigh⟩
      · exact ⟨a, by simp [ha], hlow, hhigh⟩
      · obtain ⟨c, hc, hbounds⟩ := ih ha
        exact ⟨c, mem_cons_of_mem b hc, hbounds⟩

theorem Inner.crossed (h : Inner l addr) : Crossed addr (splitAreas addr true l) := by
  obtain ⟨a, hfind, hlow⟩ := h
  obtain ⟨hmem, hcov⟩ := find_some hfind
  exact Crossed.split ⟨a, hmem, hlow, hcov.2⟩ (.inl rfl)

theorem Torn.left_over (h : Torn start stop l l') (range : start < stop) :
    ∃ p a, a ∈ l' ∧ start ≤ p ∧ p < stop ∧ Covers a p ∧ a.inside start stop = false := by
  cases h with
  | first _ inner split =>
    have hcross : Crossed start l' := by
      cases split with
      | whole => exact inner.crossed
      | parts => exact inner.crossed.split (.inr range.ne)
    obtain ⟨a, ha, hlow, hhigh⟩ := hcross
    exact ⟨start, a, ha, le_rfl, range, ⟨hlow.le, hhigh⟩, by simp [inside]; omega⟩
  | second _ _ inner =>
    obtain ⟨a, ha, hlow, hhigh⟩ := inner.crossed
    refine ⟨stop - 1, a, ha, by omega, by omega, ⟨?_, ?_⟩, by simp [inside]; omega⟩
    · simp only [lo_eq]
      omega
    · simp only [hi_eq]
      omega

/-- The call does to the map what it is asked, or fails and leaves it as it is. -/
def Request.Exact (s : Space) (r : Request) : Prop :=
  Post r.run s (fun _ s' => Sound s'.areas ∧ s'.pageMap = r.effect s.pageMap)
    (fun _ s' => s'.pageMap = s.pageMap)

def Request.Fits (s : Space) : Request → Prop
  | .add _ => True
  | .remove start stop | .protect start stop _ => s.Fits start stop

theorem Sound.filled (h : Sound l) : Filled l := fun a ha => (h.valid a ha).nonempty

theorem removed_torn {fits : Prop} (hf : ¬fits) (h : Sound l) (hrem : Removed fits start stop l l') :
    ¬∀ p, value Area.attrs l' p = if start ≤ p ∧ p < stop then none else value Area.attrs l p := by
  obtain ⟨l1, isolated, rfl⟩ := hrem
  intro hvalue
  obtain ⟨p, a, ha, hlow, hhigh, hcov, hin⟩ := (isolated.torn hf).left_over isolated.range
  have hnone := hvalue p
  rw [if_pos ⟨hlow, hhigh⟩, value_none, ← layers_eq_zero] at hnone
  have hfilled : Filled (l1.filter fun a => !a.inside start stop) :=
    fun b hb => isolated.filled h.filled b (mem_of_mem_filter hb)
  have hzero := Nat.le_zero.mp (hnone ▸ layers_merge hfilled (x := p))
  exact layers_eq_zero.mp hzero a (mem_filter.mpr ⟨ha, by simp [hin]⟩) hcov

theorem protected_torn {fits : Prop} (hf : ¬fits) (h : Sound l)
    (hprot : Protected fits start stop prot l l') : ¬Sound l' := by
  obtain ⟨l1, isolated, rfl⟩ := hprot.merged
  intro sound
  obtain ⟨x, htwo⟩ := (isolated.torn hf).layers
  have hfilled : Filled (protectAreas start stop prot l1) := by
    intro b hb
    obtain ⟨a, ha, rfl⟩ := List.mem_map.mp hb
    have := isolated.filled h.filled a ha
    split_ifs <;> exact this
  have hsame : layers x (protectAreas start stop prot l1) = layers x l1 :=
    layers_update (fun a => by split_ifs <;> rfl) fun a => by split_ifs <;> rfl
  have hle := layers_merge hfilled (x := x)
  have hone := sound.apart.layers_le (p := x)
  omega

/-- The area calls are exact unless a split has to move the array. -/
theorem area_calls_exact_iff (s : Space) (h : Sound s.areas) (r : Request) :
    r.Exact s ↔ ∀ s', r.run s = .ok () s' → r.Fits s := by
  have failed (start stop : Nat) {s' : Space}
      (hend : Kept s s' ∨ ¬s.Fits start stop ∧ Halted start s.areas s'.areas) :
      s'.pageMap = s.pageMap := by
    rcases hend with kept | ⟨-, halted⟩
    · exact Halted.pageMap h (show Halted start s.areas s'.areas from .inl kept.areas)
    · exact halted.pageMap h
  cases r with
  | add a =>
    refine ⟨fun _ _ _ => trivial, fun _ => (processVmAdd_post a s).mono ?_ ?_⟩
    · rintro u s' ⟨added, -⟩
      obtain ⟨sound, value⟩ := added_attrs h added
      exact ⟨sound, funext value⟩
    · exact fun e s' kept => failed 0 0 (.inl kept)
  | remove start stop =>
    have post := processVmRemoveRange_post start stop s
    constructor
    · intro exact s' run
      by_contra unfit
      rcases post.of_ok run with ⟨hnone, -⟩ | ⟨removed, -⟩
      · exact unfit (.inl (by simp [slotsFor, processVmSplitNeeded, hnone]))
      · exact removed_torn unfit h removed (congrFun (exact.of_ok run).2)
    · intro fits
      refine (Post.of_result.and post).mono ?_ fun e s' hend => failed start stop hend.2
      rintro u s' ⟨run, ⟨hnone, rfl⟩ | ⟨removed, -⟩⟩
      · refine ⟨h, funext fun p => ?_⟩
        have : s'.pageMap p = none := by simp [pageMap, areas, hnone]
        simp only [Request.effect, this, ite_self]
      · obtain ⟨sound, value⟩ := removed_attrs (fits s' run) h removed
        exact ⟨sound, funext value⟩
  | protect start stop prot =>
    have post := processVmProtect_post start stop prot s
    constructor
    · intro exact s' run
      by_contra unfit
      exact protected_torn unfit h (post.of_ok run).1 (exact.of_ok run).1
    · intro fits
      refine (Post.of_result.and post).mono ?_ fun e s' hend => failed start stop hend.2
      rintro u s' ⟨run, hprot, -⟩
      obtain ⟨sound, value⟩ := protected_attrs (fits s' run) h hprot
      exact ⟨sound, funext value⟩

def heapSpace (mapped : Nat) : Space where
  array := some ⟨areaInitial, (List.range mapped).map (fun i => heapArea
    (userMmapBase + 2 * i * pageSize) (userMmapBase + (2 * i + 1) * pageSize)) ++
      [heapArea 0x10000000 0x10004000]⟩
  pages := fun _ => none
  alloc := fun _ => true
  allocs := 0

theorem heapSpace_sound {n : Nat} (h : n < areaInitial) : Sound (heapSpace n).areas := by
  unfold heapSpace areas areaInitial at *
  refine ⟨fun a ha => ?_, ?_⟩
  · simp only [mem_append, List.mem_map, List.mem_range, mem_singleton] at ha
    rcases ha with ⟨i, hi, rfl⟩ | rfl
    · refine ⟨?_, ?_, ?_, ?_, ?_, (by decide : Prot.within (protRead ||| protWrite) protAll)⟩ <;>
        simp only [heapArea, userMmapBase, userCodeBase, userStackTop, pageSize] <;> omega
    · exact ⟨by decide, by decide, by decide, by decide, by decide, by decide⟩
  · refine pairwise_append.mpr ⟨pairwise_map.mpr (pairwise_lt_range.imp ?_), pairwise_singleton .., ?_⟩
    · intro i j hij
      simp only [lo_eq, hi_eq, heapArea, pageSize]
      omega
    · simp only [List.mem_map, List.mem_range, mem_singleton]
      rintro a ⟨i, hi, rfl⟩ b rfl
      simp only [lo_eq, hi_eq, heapArea, userMmapBase, pageSize]
      omega

theorem area_calls_exact_protect_middle :
    ∃ s', (Request.protect 0x10001000 0x10002000 1).run (heapSpace 0) = .ok () s' ∧
      s'.areas.length = 3 ∧ Sound s'.areas ∧
      s'.pageMap = (Request.protect 0x10001000 0x10002000 1).effect (heapSpace 0).pageMap :=
  have run : ∃ s', (Request.protect 0x10001000 0x10002000 1).run (heapSpace 0) = .ok () s' ∧
      s'.areas.length = 3 := ⟨_, rfl, by decide⟩
  have fits : (heapSpace 0).Fits 0x10001000 0x10002000 := .inr (by decide)
  have ⟨s', run, three⟩ := run
  ⟨s', run, three, ((area_calls_exact_iff (heapSpace 0) (heapSpace_sound (by decide))
    (.protect 0x10001000 0x10002000 1)).mpr fun _ _ => fits).of_ok run⟩

/-- With the array full, the top page of the heap is removed and its area keeps its end. -/
theorem full_array_tears_area : Sound (heapSpace 31).areas ∧
    (∃ s', (Request.remove 0x10003000 0x10004000).run (heapSpace 31) = .ok () s' ∧
      heapArea 0x10000000 0x10004000 ∈ s'.areas) ∧
    ¬(Request.remove 0x10003000 0x10004000).Exact (heapSpace 31) := by
  have run : ∃ s', (Request.remove 0x10003000 0x10004000).run (heapSpace 31) = .ok () s' ∧
      heapArea 0x10000000 0x10004000 ∈ s'.areas ∧ (s'.pageMap 0x10003000).isSome :=
    ⟨_, rfl, by decide +kernel, by decide +kernel⟩
  obtain ⟨s', run, kept, mapped⟩ := run
  refine ⟨heapSpace_sound (by decide), ⟨s', run, kept⟩, fun exact => ?_⟩
  rw [(exact.of_ok run).2] at mapped
  exact absurd mapped (by decide)

end SmallOS.Vm
