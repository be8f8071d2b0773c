import SmallOS.Vm.Backing

/-! Where `mmap` puts a mapping. The search starts at a cursor that only moves up and goes on in
steps of the requested size, with 32-bit sums. So it sees the places on that grid, and no gap
between them. -/

namespace SmallOS.Vm
open Prog Ranges List Option Bool Space Nat

variable {flags : BitVec 32} {areas l l' : List Area} {addr needed place rounds size start : Nat}
  {s : Space}

def mapPrivate : BitVec 32 := 0x02
def mapFixed : BitVec 32 := 0x10
def mapAnon : BitVec 32 := 0x20

inductive MapErrno
  | einval | enomem | eexist | ebadf

structure Proc where
  space : Space
  heapBrk : Nat
  mmapNext : Nat

/-- The arguments of `mmap`. `file` is what the descriptor stands for: the name and the
size of a readable regular file. -/
structure MmapArgs where
  addr : UInt32
  length : UInt32
  prot : Prot
  flags : BitVec 32
  file : Option (Path × Nat)
  offset : UInt32

def userMappingRangeOk (start length : Nat) : Bool :=
  let stop := wrap (start + pageAlign length)
  decide (length ≠ 0 ∧ start % pageSize = 0 ∧ length ≤ userHeapBase - userMmapBase ∧
    start ≤ stop ∧ userMmapBase ≤ start ∧ stop ≤ userInterpBase)

def pickFrom (areas : List Area) (size : Nat) : (rounds start : Nat) → Option Nat
  | 0, _ => none
  | n + 1, start =>
    if wrap (start + size) ≤ userInterpBase then
      if processVmRangeFree areas start (wrap (start + size)) then some start
      else pickFrom areas size n (wrap (start + size))
    else some start

def checkPlace (areas : List Area) (size start : Nat) : Except MapErrno Nat :=
  if !userMappingRangeOk start size then .error .enomem
  else if !processVmRangeFree areas start (wrap (start + size)) then .error .eexist
  else .ok start

def Proc.cursor (p : Proc) : Nat := pageAlign (if p.mmapNext ≠ 0 then p.mmapNext else userMmapBase)

def sysMmapPickStart (rounds : Nat) (p : Proc) (addr size : Nat) (flags : BitVec 32) :
    Option (Except MapErrno Nat) :=
  if flags &&& mapFixed ≠ 0 then
    if addr % pageSize ≠ 0 then some (.error .einval)
    else some (checkPlace p.space.areas size addr)
  else (pickFrom p.space.areas size rounds p.cursor).map (checkPlace p.space.areas size)

def anonArea (start size : Nat) (prot : Prot) : Area where
  start := start
  stop := wrap (start + size)
  prot := prot
  maxProt := protAll
  kind := .anon
  flags := 0
  fileStart := 0
  fileEnd := 0
  fileOffset := 0
  fileSize := 0
  path := []

def sysMmapAnonImpl (start size : Nat) (prot : Prot) : EStateM MapErrno Space Unit :=
  EStateM.adaptExcept (fun _ => .enomem) (processVmAdd (anonArea start size prot))

def fileArea (start size : Nat) (prot : Prot) (path : Path) (fileSize offset : Nat) : Area where
  start := start
  stop := wrap (start + size)
  prot := prot
  maxProt := if prot.writable then prot ||| protRead else prot
  kind := .filePrivate
  flags := 0
  fileStart := start
  fileEnd := wrap (start + min (fileSize - offset) size)
  fileOffset := offset
  fileSize := fileSize
  path := path

def sysMmapFileImpl (start size : Nat) (prot : Prot) (file : Option (Path × Nat))
    (offset : Nat) : EStateM MapErrno Space Unit :=
  if offset % pageSize ≠ 0 then throw .einval
  else match file with
    | none => throw .ebadf
    | some (path, fileSize) =>
      if fileSize ≤ offset then throw .einval
      else EStateM.adaptExcept (fun _ => .enomem)
        (processVmAdd (fileArea start size prot path fileSize offset))

def mapAt (args : MmapArgs) (start size : Nat) : EStateM MapErrno Space Unit :=
  if args.flags &&& mapAnon ≠ 0 then
    if ¬Prot.within args.prot protAll then throw .einval
    else sysMmapAnonImpl start size args.prot
  else if args.prot &&& protRead = 0 then throw .einval
  else if ¬Prot.within args.prot protAll then throw .einval
  else sysMmapFileImpl start size args.prot args.file args.offset.toNat

def Proc.advance (p : Proc) (flags : BitVec 32) (stop : Nat) : Nat :=
  if flags &&& mapFixed = 0 ∨ p.mmapNext < stop then stop else p.mmapNext

def sysMmapImpl (rounds : Nat) (args : MmapArgs) (p : Proc) :
    Option (Except MapErrno Nat × Proc) :=
  let size := pageAlign args.length.toNat
  if args.length = 0 then some (.error .einval, p)
  else if size = 0 ∨ size < args.length.toNat then some (.error .einval, p)
  else if args.flags &&& ~~~(mapPrivate ||| mapFixed ||| mapAnon) ≠ 0 then
    some (.error .einval, p)
  else if args.flags &&& mapPrivate = 0 then some (.error .einval, p)
  else match sysMmapPickStart rounds p args.addr.toNat size args.flags with
    | none => none
    | some (.error e) => some (.error e, p)
    | some (.ok start) => match mapAt args start size p.space with
      | .error e s => some (.error e, { p with space := s })
      | .ok _ s => some (.ok start, { p with
          space := s
          mmapNext := p.advance args.flags (wrap (start + size)) })

def sysBrkImpl (newBrk : Nat) (p : Proc) : Nat × Proc :=
  if newBrk = 0 then (p.heapBrk, p)
  else if newBrk < userHeapBase ∨ userStackTop - userStackSize ≤ newBrk then (p.heapBrk, p)
  else if newBrk = p.heapBrk then (newBrk, p)
  else if p.heapBrk < newBrk then
    if pageAlign p.heapBrk < pageAlign newBrk then
      match processVmAdd (heapArea (pageAlign p.heapBrk) (pageAlign newBrk)) p.space with
      | .error _ s => (p.heapBrk, { p with space := s })
      | .ok _ s => (newBrk, { p with space := s, heapBrk := newBrk })
    else (newBrk, { p with heapBrk := newBrk })
  else if pageAlign newBrk < pageAlign p.heapBrk then
    match processVmRemoveRange (pageAlign newBrk) (pageAlign p.heapBrk) p.space with
    | .error _ s => (p.heapBrk, { p with space := s })
    | .ok _ s => (newBrk, { p with space := s, heapBrk := newBrk })
  else (newBrk, { p with heapBrk := newBrk })

def mmapRounds : Nat := userInterpBase + 1

def loadAreas : List Area → M Unit
  | [] => pure ()
  | area :: areas => do
    processVmAdd area
    loadAreas areas

inductive Step
  | call (c : Call)
  | mmap (args : MmapArgs)
  | brk (newBrk : Nat)
  | exec (areas : List Area)

/-- `exec` builds its areas over a new page directory and goes back to the old one, with no area,
when it fails. -/
def Step.run (p : Proc) : Step → Proc
  | .call c => { p with space := c.run p.space }
  | .mmap args => ((sysMmapImpl mmapRounds args p).map (·.2)).getD p
  | .brk newBrk => (sysBrkImpl newBrk p).2
  | .exec areas =>
    match (do processVmClear; loadAreas areas) { p.space with pages := fun _ => none } with
    | .ok _ s => ⟨s, userHeapBase, userMmapBase⟩
    | .error _ s =>
      { p with space := { after (processVmClear s) with pages := p.space.pages } }

structure Proc.Fresh (p : Proc) : Prop where
  areas : p.space.areas = []
  brk : p.heapBrk = userHeapBase
  next : p.mmapNext = userMmapBase

def roundUp (length : Nat) : Nat := (length + (pageSize - 1)) / pageSize * pageSize

structure GapAt (areas : List Area) (size start : Nat) : Prop where
  aligned : start % pageSize = 0
  low : userMmapBase ≤ start
  high : start + size ≤ userInterpBase
  free : processVmRangeFree areas start (start + size)

def SlotLeft (s : Space) : Prop :=
  s.areas.length < s.capacity ∨ s.areas.length < areaMax ∧ s.alloc s.allocs

instance (s : Space) : Decidable (SlotLeft s) := inferInstanceAs (Decidable (_ ∨ _))

/-- The call ends; it says that there is no memory only when there is no gap or no slot; and
what it returns overlaps no area. -/
def MmapComplete (p : Proc) (args : MmapArgs) : Prop :=
  ∀ rounds, mmapRounds ≤ rounds → ∃ result p', sysMmapImpl rounds args p = some (result, p') ∧
    (result = .error .enomem →
      (¬∃ start, GapAt p.space.areas (roundUp args.length.toNat) start) ∨ ¬SlotLeft p.space) ∧
    ∀ start, result = .ok start → ∀ a ∈ p.space.areas,
      a.stop ≤ start ∨ start + roundUp args.length.toNat ≤ a.start

def OnGrid (p : Proc) (size : Nat) : Prop :=
  ∃ k, GapAt p.space.areas size (p.cursor + k * size)

def MmapArgs.Accepted (args : MmapArgs) : Prop :=
  args.flags &&& ~~~(mapPrivate ||| mapFixed ||| mapAnon) = 0 ∧ args.flags &&& mapPrivate ≠ 0

theorem pageAlign_eq {n : Nat} (h : n + (pageSize - 1) < 2 ^ 32) : pageAlign n = roundUp n := by
  rw [pageAlign, wrap, mod_eq_of_lt h, roundUp]

theorem wrap_add (h : start + size ≤ userInterpBase) : wrap (start + size) = start + size :=
  mod_eq_of_lt (h.trans_lt (by decide))

section

variable (hsize : size < 2 ^ 32) (haligned : size % pageSize = 0)
include hsize haligned

theorem userMappingRangeOk_iff (hstart : start ≤ userInterpBase) :
    userMappingRangeOk start size = true ↔ 0 < size ∧ start % pageSize = 0 ∧
      userMmapBase ≤ start ∧ start + size ≤ userInterpBase := by
  have hsame : pageAlign size = size := by
    unfold pageAlign wrap pageSize at *
    omega
  unfold userMappingRangeOk
  rw [hsame, decide_eq_true_eq]
  unfold wrap userHeapBase userMmapBase userInterpBase pageSize at *
  omega

theorem checkPlace_gap (h : GapAt areas size start) : checkPlace areas size start = .ok start := by
  have hpos := (processVmRangeFree_iff.mp h.free).1
  have hok := (userMappingRangeOk_iff hsize haligned (le_of_add_right_le h.high)).mpr
    ⟨by omega, h.aligned, h.low, h.high⟩
  rw [checkPlace, hok, wrap_add h.high, h.free]
  rfl

theorem checkPlace_none (hstart : start ≤ userInterpBase) (h : userInterpBase < start + size) :
    checkPlace areas size start = .error .enomem := by
  have hbad : ¬userMappingRangeOk start size = true := fun hok => by
    have := ((userMappingRangeOk_iff hsize haligned hstart).mp hok).2.2.2
    omega
  rw [checkPlace, not_eq_true _ |>.mp hbad]
  rfl

end

theorem pickFrom_small (areas : List Area) (hsize : 0 < size) (hsmall : size ≤ userInterpBase) :
    ∀ rounds start, start ≤ userInterpBase → userInterpBase - start < rounds →
      ∃ k, pickFrom areas size rounds start = some (start + k * size) ∧
        (start + k * size + size ≤ userInterpBase ∧
            processVmRangeFree areas (start + k * size) (start + k * size + size) = true ∨
          userInterpBase < start + k * size + size ∧ start + k * size ≤ userInterpBase ∧
            ∀ j, start + j * size + size ≤ userInterpBase →
              ¬processVmRangeFree areas (start + j * size) (start + j * size + size) = true) := by
  intro rounds
  induction rounds with
  | zero => exact fun start _ h => absurd h (Nat.not_lt_zero _)
  | succ n ih =>
    intro start hstart hrounds
    have hwrap : wrap (start + size) = start + size := by
      unfold wrap userInterpBase at *
      omega
    rw [pickFrom, hwrap]
    by_cases hin : start + size ≤ userInterpBase
    · rw [if_pos hin]
      by_cases hfree : processVmRangeFree areas start (start + size) = true
      · rw [if_pos hfree]
        exact ⟨0, by simp, .inl (by simpa using ⟨hin, hfree⟩)⟩
      · rw [if_neg hfree]
        obtain ⟨k, hpick, hend⟩ := ih (start + size) hin (by omega)
        have hshift : ∀ j, start + size + j * size = start + (j + 1) * size := fun j => by
          rw [succ_mul]
          omega
        rw [hshift] at hpick hend
        refine ⟨k + 1, hpick, hend.imp id fun ⟨hlast, hle, hnone⟩ => ⟨hlast, hle, fun j => ?_⟩⟩
        cases j with
        | zero => simpa using fun _ => hfree
        | succ j =>
          rw [← hshift]
          exact hnone j
    · rw [if_neg hin]
      exact ⟨0, by simp, .inr ⟨by omega, by omega, fun j hj => absurd hj (by omega)⟩⟩

theorem pickFrom_large (areas : List Area) (hlarge : userInterpBase < size)
    (hsize : size < 2 ^ 32) : ∀ rounds start, start ≤ userInterpBase → start < rounds →
      ∃ place, pickFrom areas size rounds start = some place ∧ place ≤ userInterpBase := by
  intro rounds
  induction rounds with
  | zero => exact fun start _ h => absurd h (Nat.not_lt_zero _)
  | succ n ih =>
    intro start hstart hrounds
    rw [pickFrom]
    by_cases hin : wrap (start + size) ≤ userInterpBase
    · rw [if_pos hin]
      have hdown : wrap (start + size) < start := by
        unfold wrap userInterpBase at *
        omega
      have hempty : ¬processVmRangeFree areas start (wrap (start + size)) = true := fun h =>
        absurd (processVmRangeFree_iff.mp h).1 (by omega)
      rw [if_neg hempty]
      exact ih _ hin (by omega)
    · rw [if_neg hin]
      exact ⟨start, rfl, hstart⟩

structure Proc.Ok (p : Proc) : Prop where
  filled : Filled p.space.areas
  aligned : p.mmapNext % pageSize = 0
  low : userMmapBase ≤ p.mmapNext
  high : p.mmapNext ≤ userInterpBase

variable {p : Proc}

theorem Proc.Ok.cursor_eq (h : p.Ok) : p.cursor = p.mmapNext := by
  have haligned := h.aligned
  have hlow := h.low
  have hhigh := h.high
  have hne : p.mmapNext ≠ 0 := by
    unfold userMmapBase at hlow
    omega
  rw [Proc.cursor, if_pos hne]
  unfold pageAlign wrap userInterpBase pageSize at *
  omega

theorem pickStart_cases (h : p.Ok) (addr : Nat)
    (hrounds : mmapRounds ≤ rounds) (hfixed : flags &&& mapFixed = 0) (hpos : 0 < size)
    (hsize : size < 2 ^ 32) (haligned : size % pageSize = 0) :
    (∃ start, sysMmapPickStart rounds p addr size flags = some (.ok start) ∧
        GapAt p.space.areas size start) ∧ OnGrid p size ∨
      sysMmapPickStart rounds p addr size flags = some (.error .enomem) ∧ ¬OnGrid p size := by
  have hcursor := h.cursor_eq
  have hlow := h.low
  have hhigh := h.high
  have hmod := h.aligned
  rw [← hcursor] at hlow hhigh hmod
  unfold sysMmapPickStart
  rw [if_neg (not_not.mpr hfixed)]
  unfold mmapRounds at hrounds
  by_cases hsmall : size ≤ userInterpBase
  · obtain ⟨k, hpick, ⟨hin, hfree⟩ | ⟨hlast, hle, hnone⟩⟩ :=
      pickFrom_small p.space.areas hpos hsmall rounds p.cursor hhigh (by omega)
    · have hgap : GapAt p.space.areas size (p.cursor + k * size) := by
        refine ⟨?_, hlow.trans (Nat.le_add_right _ _), hin, hfree⟩
        rw [add_mod, hmod, mul_mod, haligned]
        rfl
      refine .inl ⟨⟨_, ?_, hgap⟩, k, hgap⟩
      rw [hpick, map_some, checkPlace_gap hsize haligned hgap]
    · refine .inr ⟨?_, fun ⟨j, hj⟩ => hnone j hj.high hj.free⟩
      rw [hpick, map_some, checkPlace_none hsize haligned hle hlast]
  · obtain ⟨place, hpick, hle⟩ := pickFrom_large p.space.areas (not_le.mp hsmall) hsize
      rounds p.cursor hhigh (by omega)
    refine .inr ⟨?_, fun ⟨j, hj⟩ => ?_⟩
    · rw [hpick, map_some, checkPlace_none hsize haligned hle (by omega)]
    · have := hj.high
      omega

theorem growCapacity_enough (hneeded : needed ≤ areaMax) :
    ∀ rounds capacity, 0 < capacity → needed ≤ capacity + rounds →
      needed ≤ growCapacity needed rounds capacity := by
  intro rounds
  induction rounds with
  | zero => exact fun capacity _ h => h
  | succ n ih =>
    intro capacity hpos h
    rw [growCapacity]
    split_ifs with hless hmany
    · exact hneeded
    · exact ih _ (by omega) (by omega)
    · exact not_lt.mp hless

theorem newCapacity_enough {capacity : Nat} (hneeded : needed ≤ areaMax) :
    needed ≤ newCapacity needed capacity := by
  refine growCapacity_enough hneeded _ _ ?_ (Nat.le_add_left _ _)
  split_ifs with hzero
  · decide
  · omega

theorem allocate_ok (h : s.alloc s.allocs = true) :
    allocate s = .ok () { s with allocs := s.allocs + 1 } := by
  unfold allocate
  rw [if_pos h]

theorem SlotLeft.ensureCapacity (h : SlotLeft s) :
    Post (processVmEnsureCapacity (s.areas.length + 1)) s (fun _ _ => True) (fun _ _ => False) := by
  refine .bind (R := fun _ s' => s'.array = some ⟨areaInitial, []⟩ ∧ s.areas = [] ∨
    s' = s ∧ s.array.isSome) (F := fun _ _ => False) ?_ (fun _ _ h => h) ?_
  · refine .bind_get (.branch (fun hnone => ?_) fun hsome => ?_)
    · have hnone := isNone_iff_eq_none.mp hnone
      have hempty : s.areas = [] := by rw [areas, hnone]
      have halloc : s.alloc s.allocs = true := by
        rcases h with hroom | ⟨-, halloc⟩
        · rw [capacity, hnone] at hroom
          exact absurd hroom (Nat.not_lt_zero _)
        · exact halloc
      exact .bind_run (allocate_ok halloc) (.assign (.inl ⟨rfl, hempty⟩))
    · exact Post.ret (.inr ⟨rfl, by simpa [isSome_iff_ne_none] using hsome⟩)
  · rintro u s1 (⟨harray, hempty⟩ | ⟨rfl, hsome⟩)
    · refine .bind_get ?_
      rw [harray, hempty]
      exact .branch (fun _ => .ret trivial) fun hmany => absurd (by decide) hmany
    · refine .bind_get ?_
      obtain ⟨array, harray⟩ := isSome_iff_exists.mp hsome
      have hcapacity : s1.capacity = array.capacity := by rw [capacity, harray]; rfl
      rw [harray]
      refine .branch (fun _ => .ret trivial) fun hfull => ?_
      rcases h with hroom | ⟨hmax, halloc⟩
      · exact absurd (hcapacity ▸ hroom) hfull
      refine .branch (fun hmany => absurd hmany (by omega)) fun _ => ?_
      refine .branch (fun hshort => absurd hshort (not_lt.mpr (newCapacity_enough hmax)))
        fun _ => ?_
      exact .bind_run (allocate_ok halloc) (.assign trivial)

theorem processVmAdd_ok {a : Area} (filled : Filled s.areas) (slot : SlotLeft s)
    (valid : a.Valid) (hmax : Prot.within a.maxProt protAll)
    (free : processVmRangeFree s.areas a.start a.stop = true) :
    Post (processVmAdd a) s (fun _ _ => True) (fun _ _ => False) := by
  have hstart := valid.startAligned
  have hstop := valid.stopAligned
  have hlow := valid.low
  have hhigh := valid.high
  have hne := valid.nonempty
  have apart := (processVmRangeFree_iff.mp free).2
  refine .branch (fun h => absurd h (by omega)) fun _ => ?_
  refine .branch (fun h => absurd h (by omega)) fun _ => ?_
  refine .branch (fun h => absurd valid.prot h) fun _ => ?_
  refine .branch (fun h => absurd hmax h) fun _ => .bind_get ?_
  refine Post.branch (fun h => absurd h (by simp [free])) fun _ => ?_
  refine Post.branch (fun h => absurd h (by simpa using hne)) fun _ => Post.bind_get ?_
  refine .bind (slot.ensureCapacity.and (processVmEnsureCapacity_post _ s)) (fun _ _ h => h.1) ?_
  rintro u s1 ⟨-, kept, -⟩
  refine .bind_get ?_
  rw [kept.areas]
  -- the neighbours of the new area do not reach into it
  refine .branch (fun h => ?_) fun _ => .branch (fun h => ?_) fun _ => trivial
  · obtain ⟨b, hlast, hover⟩ := (Option.any_eq_true _ _).mp h
    have hmem := mem_of_getLast? hlast
    have hbelow := start_lt_of_mem_takeWhile hmem
    have := apart b (takeWhile_subset _ hmem)
    simp only [decide_eq_true_eq] at hover hbelow
    omega
  · obtain ⟨b, hhead, hover⟩ := (Option.any_eq_true _ _).mp h
    have hmem := mem_of_mem_head? hhead
    have habove := head?_dropWhile_not (fun b : Area => decide (b.start < a.start)) s.areas
    rw [hhead] at habove
    have hb := dropWhile_subset _ hmem
    have hbne := filled b hb
    have := apart b hb
    simp only [decide_eq_true_eq, decide_eq_false_iff_not] at hover habove
    omega

theorem adaptExcept_post {ε ε' σ α : Type} {x : EStateM ε σ α} {s : σ} {Q : α → σ → Prop}
    {E : ε → σ → Prop} {F : ε' → σ → Prop} {f : ε → ε'} (h : Post x s Q E)
    (err : ∀ e s', E e s' → F (f e) s') : Post (EStateM.adaptExcept f x) s Q F := by
  unfold Post EStateM.adaptExcept at *
  cases run : x s with
  | ok a s' => rw [run] at h; exact h
  | error e s' => rw [run] at h; exact err e s' h

variable {args : MmapArgs}

theorem mapAt_anon (filled : Filled s.areas) (hanon : args.flags &&& mapAnon ≠ 0)
    (hgap : GapAt s.areas size start) (haligned : size % pageSize = 0) :
    Post (mapAt args start size) s (fun _ _ => True) (fun e _ => e = .enomem → ¬SlotLeft s) := by
  have hhigh := hgap.high
  have hlow := hgap.low
  have hstart := hgap.aligned
  have hpos := (processVmRangeFree_iff.mp hgap.free).1
  have hwrap := wrap_add hhigh
  unfold mapAt sysMmapAnonImpl
  rw [if_pos hanon]
  refine .guard (fun h => nomatch h) fun hprot => ?_
  by_cases slot : SlotLeft s
  · have valid : (anonArea start size args.prot).Valid := by
      have hcode : userCodeBase ≤ userMmapBase := by decide
      have htop : userInterpBase ≤ userStackTop := by decide
      refine ⟨hstart, ?_, ?_, hcode.trans hlow, ?_, not_not.mp hprot⟩
      · rw [anonArea, hwrap, add_mod, hstart, haligned]
        rfl
      · rw [anonArea, hwrap]
        exact hpos
      · rw [anonArea, hwrap]
        exact hhigh.trans htop
    refine adaptExcept_post (processVmAdd_ok filled slot valid ?_ ?_) fun _ _ h => h.elim
    · exact (by decide : Prot.within protAll protAll)
    · simp only [anonArea, hwrap]
      exact hgap.free
  · exact adaptExcept_post (.any _ _) fun _ _ _ _ => slot

def MmapArgs.Sized (args : MmapArgs) : Prop :=
  args.length ≠ 0 ∧ args.length.toNat + (pageSize - 1) < 2 ^ 32

theorem MmapArgs.sized_iff (args : MmapArgs) : args.Sized ↔ ¬args.length = 0 ∧
      ¬(pageAlign args.length.toNat = 0 ∨ pageAlign args.length.toNat < args.length.toNat) := by
  refine and_congr_right fun hne => ?_
  have hpos : args.length.toNat ≠ 0 := fun h => hne (UInt32.toNat_inj.mp h)
  unfold pageAlign wrap pageSize
  omega

theorem sysMmapImpl_refused (h : ¬(args.Sized ∧ args.Accepted)) (rounds : Nat)
    (p : Proc) : sysMmapImpl rounds args p = some (.error .einval, p) := by
  rw [MmapArgs.sized_iff] at h
  unfold sysMmapImpl
  dsimp only
  split_ifs with hzero hsize hflags hprivate
  · rfl
  · rfl
  · rfl
  · rfl
  · exact absurd ⟨⟨hzero, hsize⟩, not_not.mp hflags, hprivate⟩ h

theorem sysMmapImpl_accepted (hsized : args.Sized) (hflags : args.Accepted)
    (rounds : Nat) (p : Proc) :
    sysMmapImpl rounds args p =
      match sysMmapPickStart rounds p args.addr.toNat (roundUp args.length.toNat) args.flags with
      | none => none
      | some (.error e) => some (.error e, p)
      | some (.ok start) => match mapAt args start (roundUp args.length.toNat) p.space with
        | .error e s => some (.error e, { p with space := s })
        | .ok _ s => some (.ok start, { p with
            space := s
            mmapNext := p.advance args.flags (wrap (start + roundUp args.length.toNat)) }) := by
  obtain ⟨hzero, hsize⟩ := args.sized_iff.mp hsized
  unfold sysMmapImpl
  rw [if_neg hzero, if_neg hsize, if_neg (not_not.mpr hflags.1), if_neg hflags.2,
    pageAlign_eq hsized.2]

theorem MmapArgs.Sized.size_lt (h : args.Sized) :
    0 < roundUp args.length.toNat ∧ roundUp args.length.toNat < 2 ^ 32 ∧
      roundUp args.length.toNat % pageSize = 0 := by
  have hpos : args.length.toNat ≠ 0 := fun hzero => h.1 (UInt32.toNat_inj.mp hzero)
  have hlt := h.2
  unfold roundUp pageSize at *
  omega

theorem GapAt.sized (h : GapAt areas (roundUp args.length.toNat) start) : args.Sized := by
  have hpos := (processVmRangeFree_iff.mp h.free).1
  have hhigh := h.high
  constructor
  · intro hzero
    rw [hzero] at hpos
    exact absurd hpos (lt_irrefl _)
  · unfold roundUp userInterpBase pageSize at *
    omega

/-- In every state between calls, the search finds a gap when there is one exactly when a gap
lies on its grid. -/
theorem mmapComplete_iff (h : p.Ok)
    (hfixed : args.flags &&& mapFixed = 0) (hanon : args.flags &&& mapAnon ≠ 0) :
    MmapComplete p args ↔ (args.Accepted → SlotLeft p.space →
      (∃ start, GapAt p.space.areas (roundUp args.length.toNat) start) →
      OnGrid p (roundUp args.length.toNat)) := by
  constructor
  · intro hcomplete hflags hslot hgap
    have hsized := hgap.choose_spec.sized
    obtain ⟨hpos, hsize, haligned⟩ := hsized.size_lt
    rcases pickStart_cases h args.addr.toNat (le_refl mmapRounds) hfixed hpos hsize
      haligned with ⟨-, hgrid⟩ | ⟨hpick, -⟩
    · exact hgrid
    · obtain ⟨result, p', hrun, hnomem, -⟩ := hcomplete mmapRounds (le_refl _)
      rw [sysMmapImpl_accepted hsized hflags, hpick] at hrun
      obtain ⟨rfl, -⟩ := Prod.mk.inj (some.inj hrun)
      rcases hnomem rfl with hnone | hfull
      · exact absurd hgap hnone
      · exact absurd hslot hfull
  · intro hfinds rounds hrounds
    by_cases hsent : args.Sized ∧ args.Accepted
    · obtain ⟨hsized, hflags⟩ := hsent
      obtain ⟨hpos, hsize, haligned⟩ := hsized.size_lt
      rw [sysMmapImpl_accepted hsized hflags]
      rcases pickStart_cases h args.addr.toNat hrounds hfixed hpos hsize haligned with
        ⟨⟨start, hpick, hgap⟩, -⟩ | ⟨hpick, hgrid⟩
      · rw [hpick]
        have hpost := mapAt_anon h.filled hanon hgap haligned
        dsimp only
        cases hrun : mapAt args start (roundUp args.length.toNat) p.space with
        | error e s =>
          exact ⟨_, _, rfl, fun he => .inr (hpost.of_error hrun (Except.error.inj he)),
            fun _ he => nomatch he⟩
        | ok u s =>
          refine ⟨_, _, rfl, fun he => (nomatch he), fun place hplace => ?_⟩
          obtain rfl := Except.ok.inj hplace
          exact (processVmRangeFree_iff.mp hgap.free).2
      · rw [hpick]
        refine ⟨_, _, rfl, fun _ => ?_, fun _ he => nomatch he⟩
        by_contra hwrong
        obtain ⟨hgap, hslot⟩ := not_or.mp hwrong
        exact hgrid (hfinds hflags (not_not.mp hslot) (not_not.mp hgap))
    · exact ⟨_, _, sysMmapImpl_refused hsent rounds p, fun he => (nomatch he),
        fun _ he => (nomatch he)⟩

theorem merge_filled (h : Filled l) : Filled (processVmMerge l) :=
  (processVmMerge_same (f := fun _ _ => ()) (P := fun a => a.start < a.stop)
    (fun a b ha hb hc => ⟨rfl, (processVmCompatible_iff.mp hc).1, rfl, ⟨ha.le, hb.le⟩,
      fun _ _ => rfl, fun _ _ => rfl⟩)
    (fun a b ha hb hc => by
      have := (processVmCompatible_iff.mp hc).1
      show a.start < b.stop
      omega) l h).2

theorem processVmAdd_filled (a : Area) (h : Filled s.areas) :
    Post (processVmAdd a) s (fun _ s' => Filled s'.areas) (fun _ s' => Filled s'.areas) := by
  refine (processVmAdd_post a s).mono ?_ fun e s' kept => kept.areas ▸ h
  rintro u s' ⟨added, -⟩
  rw [added.merged]
  refine merge_filled fun b hb => ?_
  rcases mem_append.mp hb with hb | hb
  · exact h b (takeWhile_subset _ hb)
  · rcases mem_cons.mp hb with rfl | hb
    · exact added.valid.nonempty
    · exact h b (dropWhile_subset _ hb)

theorem Halted.filled (h : Halted start l l') (hl : Filled l) : Filled l' := by
  rcases h with rfl | ⟨moved, split⟩
  · exact hl
  · exact split.filled hl

theorem Removed.filled {fits : Prop} {stop : Nat} (h : Removed fits start stop l l')
    (hl : Filled l) : Filled l' := by
  obtain ⟨l1, isolated, rfl⟩ := h
  exact merge_filled fun a ha => isolated.filled hl a (mem_of_mem_filter ha)

theorem processVmRemoveRange_filled (start stop : Nat) (h : Filled s.areas) :
    Post (processVmRemoveRange start stop) s (fun _ s' => Filled s'.areas)
      (fun _ s' => Filled s'.areas) := by
  refine (processVmRemoveRange_post start stop s).mono ?_ ?_
  · rintro u s' (⟨-, rfl⟩ | ⟨removed, -⟩)
    · exact h
    · exact removed.filled h
  · rintro e s' (kept | ⟨-, halted⟩)
    · exact kept.areas ▸ h
    · exact halted.filled h

theorem Reshaped.filled {stop : Nat} (h : Reshaped start stop l l')
    (hl : Filled l) : Filled l' := by
  cases h with
  | same => exact hl
  | removed removed => exact removed.filled hl
  | reprotected prot hprot =>
    obtain ⟨l1, isolated, rfl⟩ := hprot.merged
    refine merge_filled fun b hb => ?_
    obtain ⟨a, ha, rfl⟩ := List.mem_map.mp hb
    have := isolated.filled hl a ha
    split_ifs <;> exact this

theorem filled_nil : Filled [] := fun _ h => absurd h not_mem_nil

theorem loadAreas_filled (areas : List Area) :
    ∀ {s : Space}, Filled s.areas → Post (loadAreas areas) s (fun _ s' => Filled s'.areas)
      (fun _ s' => Filled s'.areas) := by
  induction areas with
  | nil => exact fun h => .ret h
  | cons a areas ih =>
    intro s h
    exact .seq (processVmAdd_filled a h) fun _ s' h => ih h

theorem checkPlace_ok (h : checkPlace areas size start = .ok place) (hsize : size < 2 ^ 32)
    (haligned : size % pageSize = 0) :
    wrap (place + size) % pageSize = 0 ∧ userMmapBase ≤ wrap (place + size) ∧
      wrap (place + size) ≤ userInterpBase := by
  unfold checkPlace at h
  split_ifs at h with hok hfree
  obtain rfl := Except.ok.inj h
  have hsame : pageAlign size = size := by
    unfold pageAlign wrap pageSize at *
    omega
  simp only [userMappingRangeOk, hsame, not_eq_true', not_eq_false, decide_eq_true_eq] at hok
  unfold wrap pageSize at *
  omega

theorem sysMmapPickStart_ok (h : sysMmapPickStart rounds p addr size flags = some (.ok place)) :
    ∃ start, checkPlace p.space.areas size start = .ok place := by
  unfold sysMmapPickStart at h
  split_ifs at h with hfixed haligned
  · cases h
  · exact ⟨addr, Option.some.inj h⟩
  · obtain ⟨start, -, hplace⟩ := map_eq_some_iff.mp h
    exact ⟨start, hplace⟩

section

variable {P : Space → Prop}
  (hadd : ∀ {s : Space} (a : Area), P s → Post (processVmAdd a) s (fun _ => P) fun _ => P)
include hadd

theorem mapAt_keeps (args : MmapArgs) (start size : Nat) {s : Space} (h : P s) :
    Post (mapAt args start size) s (fun _ => P) fun _ => P := by
  refine .branch (fun _ => ?_) fun _ => ?_
  · refine .guard h fun _ => ?_
    exact adaptExcept_post (hadd _ h) fun _ _ h => h
  · refine .guard h fun _ => ?_
    refine .guard h fun _ => ?_
    refine .guard h fun _ => ?_
    cases args.file with
    | none => exact .raise h
    | some file =>
      refine .guard h fun _ => ?_
      exact adaptExcept_post (hadd _ h) fun _ _ h => h

theorem sysMmapImpl_keeps {p' : Proc} {result : Except MapErrno Nat} (h : P p.space)
    (hrun : sysMmapImpl rounds args p = some (result, p')) :
    P p'.space ∧ (p'.mmapNext = p.mmapNext ∨ args.Sized ∧ ∃ start place,
      checkPlace p.space.areas (roundUp args.length.toNat) start = .ok place ∧
        p'.mmapNext = wrap (place + roundUp args.length.toNat)) := by
  by_cases hsent : args.Sized ∧ args.Accepted
  · rw [sysMmapImpl_accepted hsent.1 hsent.2] at hrun
    split at hrun
    · cases hrun
    · obtain ⟨-, rfl⟩ := Prod.mk.inj (Option.some.inj hrun)
      exact ⟨h, .inl rfl⟩
    · rename_i start hpick
      have hpost := mapAt_keeps hadd args start (roundUp args.length.toNat) h
      split at hrun
      · rename_i e s hmap
        obtain ⟨-, rfl⟩ := Prod.mk.inj (Option.some.inj hrun)
        exact ⟨hpost.of_error hmap, .inl rfl⟩
      · rename_i u s hmap
        obtain ⟨-, rfl⟩ := Prod.mk.inj (Option.some.inj hrun)
        obtain ⟨place, hplace⟩ := sysMmapPickStart_ok hpick
        refine ⟨hpost.of_ok hmap, ?_⟩
        unfold Proc.advance
        split_ifs
        · exact .inr ⟨hsent.1, place, start, hplace, rfl⟩
        · exact .inl rfl
  · rw [sysMmapImpl_refused hsent] at hrun
    obtain ⟨-, rfl⟩ := Prod.mk.inj (Option.some.inj hrun)
    exact ⟨h, .inl rfl⟩

theorem sysBrkImpl_keeps (newBrk : Nat) (h : P p.space)
    (hremove : userHeapBase ≤ newBrk → pageAlign newBrk < pageAlign p.heapBrk →
      Post (processVmRemoveRange (pageAlign newBrk) (pageAlign p.heapBrk)) p.space (fun _ => P)
        fun _ => P) :
    P (sysBrkImpl newBrk p).2.space ∧ (sysBrkImpl newBrk p).2.mmapNext = p.mmapNext := by
  have hgrow := hadd (heapArea (pageAlign p.heapBrk) (pageAlign newBrk)) h
  unfold sysBrkImpl
  split_ifs with hzero hrange hsame hup hmore hless
  · exact ⟨h, rfl⟩
  · exact ⟨h, rfl⟩
  · exact ⟨h, rfl⟩
  · split
    · rename_i hrun
      exact ⟨hgrow.of_error hrun, rfl⟩
    · rename_i hrun
      exact ⟨hgrow.of_ok hrun, rfl⟩
  · exact ⟨h, rfl⟩
  · have hshrink := hremove (not_lt.mp fun hlow => hrange (.inl hlow)) hless
    split
    · rename_i hrun
      exact ⟨hshrink.of_error hrun, rfl⟩
    · rename_i hrun
      exact ⟨hshrink.of_ok hrun, rfl⟩
  · exact ⟨h, rfl⟩

end

theorem sysMmapImpl_ok {p' : Proc} {result : Except MapErrno Nat} (h : p.Ok)
    (hrun : sysMmapImpl rounds args p = some (result, p')) : p'.Ok := by
  obtain ⟨filled, hnext | ⟨hsized, start, place, hplace, hnext⟩⟩ :=
    sysMmapImpl_keeps processVmAdd_filled h.filled hrun
  · exact ⟨filled, hnext ▸ h.aligned, hnext ▸ h.low, hnext ▸ h.high⟩
  · obtain ⟨-, hsize, haligned⟩ := hsized.size_lt
    obtain ⟨hmod, hlow, hhigh⟩ := checkPlace_ok hplace hsize haligned
    exact ⟨filled, hnext ▸ hmod, hnext ▸ hlow, hnext ▸ hhigh⟩

theorem sysBrkImpl_ok (newBrk : Nat) (h : p.Ok) : (sysBrkImpl newBrk p).2.Ok := by
  obtain ⟨filled, hnext⟩ := sysBrkImpl_keeps processVmAdd_filled newBrk h.filled fun _ _ =>
    processVmRemoveRange_filled _ _ h.filled
  exact ⟨filled, hnext ▸ h.aligned, hnext ▸ h.low, hnext ▸ h.high⟩

theorem exec_filled (areas : List Area) (s : Space) :
    Post (do processVmClear; loadAreas areas) s (fun _ s' => Filled s'.areas)
      (fun _ s' => Filled s'.areas) := by
  refine .seq (processVmClear_post s) fun _ s' hclear => ?_
  refine loadAreas_filled areas ?_
  rw [hclear.1]
  exact filled_nil

theorem base_aligned : userMmapBase % pageSize = 0 := rfl

theorem base_le : userMmapBase ≤ userInterpBase := by decide

theorem Step.run_ok (h : p.Ok) (step : Step) : (step.run p).Ok := by
  cases step with
  | call c =>
    refine ⟨?_, h.aligned, h.low, h.high⟩
    cases c with
    | munmap addr length =>
      exact (after_of_post (sysMunmapImpl_post addr length p.space)).filled h.filled
    | mprotect addr length prot =>
      exact (after_of_post (sysMprotectImpl_post addr length prot p.space)).filled h.filled
    | fork child fate => exact (areas_fork p.space child fate).symm ▸ h.filled
  | mmap args =>
    rw [Step.run]
    cases hrun : sysMmapImpl mmapRounds args p with
    | none => exact h
    | some out => exact sysMmapImpl_ok h hrun
  | brk newBrk => exact sysBrkImpl_ok newBrk h
  | exec areas =>
    rw [Step.run]
    split
    · rename_i hrun
      exact ⟨(exec_filled areas _).of_ok hrun, base_aligned, le_refl _, base_le⟩
    · rename_i e s hrun
      have hclear : (after (processVmClear s)).areas = [] :=
        after_of_post ((processVmClear_post s).weaken fun _ _ h => h.1)
      have hfilled : Filled (after (processVmClear s)).areas := by
        rw [hclear]
        exact filled_nil
      exact ⟨hfilled, h.aligned, h.low, h.high⟩

theorem run_ok (h : p.Ok) (steps : List Step) : (steps.foldl Step.run p).Ok :=
  foldlRecOn _ _ h fun _ hq step _ => Step.run_ok hq step

theorem Proc.Fresh.ok (h : p.Fresh) : p.Ok := by
  refine ⟨?_, ?_, ?_, ?_⟩
  · rw [h.areas]
    exact filled_nil
  · rw [h.next]
    exact base_aligned
  · rw [h.next]
  · rw [h.next]
    exact base_le

/-- After any history, an anonymous mapping at no fixed place is made when there is room for
it exactly when the room lies at or above the cursor and on its grid. -/
theorem mmap_finds_gap (p : Proc) (hfresh : p.Fresh) (steps : List Step) (args : MmapArgs)
    (hfixed : args.flags &&& mapFixed = 0) (hanon : args.flags &&& mapAnon ≠ 0) :
    MmapComplete (steps.foldl Step.run p) args ↔
      (args.Accepted → SlotLeft (steps.foldl Step.run p).space →
        (∃ start, GapAt (steps.foldl Step.run p).space.areas (roundUp args.length.toNat) start) →
        OnGrid (steps.foldl Step.run p) (roundUp args.length.toNat)) :=
  mmapComplete_iff (run_ok hfresh.ok steps) hfixed hanon

def newProc : Proc where
  space := ⟨some ⟨areaInitial, []⟩, fun _ => none, fun _ => true, 0⟩
  heapBrk := userHeapBase
  mmapNext := userMmapBase

def anonymous (length : UInt32) : MmapArgs := ⟨0, length, protRead, 0x22, none, 0⟩

/-- The whole region is mapped and unmapped; then there is no place for one page. -/
theorem unmapped_region_is_lost : ¬∀ (p : Proc), p.Fresh → ∀ (steps : List Step) (args : MmapArgs),
    args.flags &&& mapFixed = 0 → args.flags &&& mapAnon ≠ 0 →
    MmapComplete (steps.foldl Step.run p) args := by
  intro hall
  let steps : List Step := [.mmap (anonymous 0x4000000), .call (.munmap 0x4000000 0x4000000)]
  have hfresh : newProc.Fresh := ⟨rfl, rfl, rfl⟩
  have hareas : (steps.foldl Step.run newProc).space.areas = [] := by decide +kernel
  have hnext : (steps.foldl Step.run newProc).mmapNext = userInterpBase := by decide +kernel
  have hslot : SlotLeft (steps.foldl Step.run newProc).space := by decide +kernel
  have hok := run_ok hfresh.ok steps
  have hgap : GapAt (steps.foldl Step.run newProc).space.areas (roundUp 0x1000) userMmapBase := by
    rw [hareas]
    exact ⟨rfl, le_refl _, by decide, rfl⟩
  obtain ⟨k, hk⟩ := (mmapComplete_iff hok rfl (by decide)).mp
    (hall newProc hfresh steps (anonymous 0x1000) rfl (by decide)) ⟨rfl, by decide⟩ hslot ⟨_, hgap⟩
  have hhigh := hk.high
  have hpos := (processVmRangeFree_iff.mp hk.free).1
  rw [hok.cursor_eq, hnext] at hhigh hpos
  omega

theorem mmap_finds_gap_first :
    MmapComplete newProc (anonymous 0x2000) ∧ OnGrid newProc (roundUp 0x2000) := by
  have hgrid : OnGrid newProc (roundUp 0x2000) := ⟨0, rfl, by decide, by decide, by decide⟩
  have hfresh : newProc.Fresh := ⟨rfl, rfl, rfl⟩
  exact ⟨(mmap_finds_gap newProc hfresh [] (anonymous 0x2000) rfl (by decide)).mpr
    fun _ _ _ => hgrid, hgrid⟩

end SmallOS.Vm
