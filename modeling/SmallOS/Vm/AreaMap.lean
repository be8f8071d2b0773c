import SmallOS.Vm.Areas

/-! What the area operations do to the map from pages to attributes. Splits and merges are lemmas
for any reading of an area that agrees on the parts, so that they serve for the attributes here and
for the backing file later. -/

namespace SmallOS.Vm

open Bytes Prog Ranges Option Area Space List

variable {a : Area} {l l' : List Area} {addr start stop x : Nat} {s : Space}
  {Q : Unit → Space → Prop}

structure Kept (s s' : Space) : Prop where
  areas : s'.areas = s.areas
  pages : s'.pages = s.pages

theorem Kept.refl (s : Space) : Kept s s := ⟨rfl, rfl⟩

theorem Kept.trans {t u : Space} (h : Kept s t) (k : Kept t u) : Kept s u :=
  ⟨k.areas.trans h.areas, k.pages.trans h.pages⟩

theorem Space.areas_setAreas (h : s.array.isSome) (l : List Area) : (s.setAreas l).areas = l := by
  obtain ⟨array, ha⟩ := isSome_iff_exists.mp h
  simp [areas, setAreas, ha]

theorem capacity_setAreas (l : List Area) : (s.setAreas l).capacity = s.capacity := by
  cases h : s.array <;> simp [capacity, setAreas, h]

theorem allocate_post (s : Space) :
    Post allocate s (fun _ s' => Kept s s' ∧ s'.array = s.array) (fun _ s' => Kept s s') := by
  unfold Post allocate
  by_cases h : s.alloc s.allocs
  · simp only [h, if_true]
    exact ⟨⟨rfl, rfl⟩, trivial⟩
  · simp only [h]
    exact ⟨rfl, rfl⟩

theorem processVmInit_some (h : s.array.isSome) : processVmInit s = .ok () s := by
  obtain ⟨array, ha⟩ := isSome_iff_exists.mp h
  simp [processVmInit, ha, run_bind, run_get, run_pure]

theorem processVmInit_post (s : Space) :
    Post processVmInit s (fun _ s' => Kept s s' ∧ s'.array.isSome) (fun _ s' => Kept s s') := by
  refine .bind_get (.branch ?_ ?_)
  · intro hnone
    refine .seq (allocate_post s) ?_
    rintro u s' ⟨kept, -⟩
    refine .assign ⟨⟨?_, kept.pages⟩, rfl⟩
    simp [areas, isNone_iff_eq_none.mp hnone]
  · intro hsome
    exact Post.ret ⟨Kept.refl s, by simpa [isSome_iff_ne_none] using hsome⟩

theorem processVmClear_post (s : Space) {E : Unit → Space → Prop} :
    Post processVmClear s (fun _ s' => s'.areas = [] ∧ s'.pages = s.pages) E := by
  cases harray : s.array with
  | none =>
    have hempty : s.areas = [] := by rw [areas, harray]
    refine .rescue (F := fun _ s' => Kept s s') ?_
      fun _ _ kept => .ret ⟨kept.areas.trans hempty, kept.pages⟩
    refine .seq (processVmInit_post s) fun _ s' h => ?_
    exact .assign ⟨areas_setAreas h.2 _, h.1.pages⟩
  | some array =>
    have hsome : s.array.isSome := by simp [harray]
    refine .rescue (F := fun _ _ => False) ?_ fun _ _ h => h.elim
    exact Post.bind_run (processVmInit_some hsome) (Post.assign ⟨areas_setAreas hsome _, rfl⟩)

theorem processVmEnsureCapacity_post (needed : Nat) (s : Space) :
    Post (processVmEnsureCapacity needed) s
      (fun _ s' => Kept s s' ∧ s'.array.isSome ∧ needed ≤ s'.capacity) (fun _ s' => Kept s s') := by
  refine .seq (processVmInit_post s) ?_
  rintro u s1 ⟨kept, hsome⟩
  refine .bind_get ?_
  cases harray : s1.array with
  | none => exact .raise kept
  | some array =>
    refine .branch (fun hroom => .ret ⟨kept, hsome, ?_⟩) fun _ => ?_
    · simpa [capacity, harray] using hroom
    refine .guard kept fun _ => ?_
    refine .guard kept fun hroom => ?_
    refine .bind (allocate_post s1) (fun _ _ h => kept.trans h) ?_
    rintro u s2 ⟨kept2, -⟩
    refine .assign ⟨kept.trans ⟨?_, kept2.pages⟩, rfl, not_lt.mp hroom⟩
    simp [areas, harray]

theorem processVmEnsureCapacity_room {needed : Nat} (hsome : s.array.isSome)
    (room : needed ≤ s.capacity) : processVmEnsureCapacity needed s = .ok () s := by
  obtain ⟨array, ha⟩ := isSome_iff_exists.mp hsome
  have room : needed ≤ array.capacity := by simpa [capacity, ha] using room
  simp [processVmEnsureCapacity, run_bind, processVmInit_some hsome, run_get, ha, room, run_pure]

def Inner (l : List Area) (addr : Nat) : Prop := ∃ a, find l addr = some a ∧ a.start < addr

inductive SplitTo (addr : Nat) (moved : Bool) (l : List Area) : List Area → Prop
  | whole (h : ¬Inner l addr) : SplitTo addr moved l l
  | parts (aligned : addr % pageSize = 0) (h : Inner l addr) :
      SplitTo addr moved l (splitAreas addr moved l)

theorem length_splitAreas {moved : Bool} (h : Inner l addr) :
    (splitAreas addr moved l).length = l.length + 1 := by
  obtain ⟨a, hfind, -⟩ := h
  induction l with
  | nil => cases hfind
  | cons b rest ih =>
    rw [find_cons] at hfind
    unfold splitAreas
    by_cases hb : Covers b addr
    · simp [hb]
    · rw [if_neg hb] at hfind
      simp [hb, ih hfind]

theorem SplitTo.clean {moved : Bool} (h : SplitTo addr moved l l')
    (hm : Inner l addr → moved = false) : SplitTo addr false l l' := by
  cases h with
  | whole no => exact .whole no
  | parts aligned inner => exact hm inner ▸ .parts aligned inner

theorem SplitTo.parts_of {moved : Bool} (h : SplitTo addr moved l l') (inner : Inner l addr) :
    l' = splitAreas addr moved l := by
  cases h with
  | whole no => exact absurd inner no
  | parts => rfl

theorem processVmSplitAt_post (hsome : s.array.isSome) (aligned : addr % pageSize = 0) :
    Post (processVmSplitAt addr) s
      (fun _ s' => SplitTo addr (s.capacity ≤ s.areas.length) s.areas s'.areas ∧
        s'.pages = s.pages ∧ s'.array.isSome ∧
        ((Inner s.areas addr → s.areas.length < s.capacity) → s'.capacity = s.capacity))
      (fun _ s' => Kept s s' ∧ Inner s.areas addr ∧ s.capacity ≤ s.areas.length) := by
  have hne := isSome_iff_ne_none.mp hsome
  refine .bind_get (.branch (fun h => absurd (isNone_iff_eq_none.mp h) hne) fun _ => ?_)
  refine .branch (fun h => absurd aligned h) fun _ => ?_
  cases hfind : find s.areas addr with
  | none =>
    refine .ret ⟨.whole ?_, rfl, hsome, fun _ => rfl⟩
    rintro ⟨a, ha, -⟩
    rw [hfind] at ha
    cases ha
  | some a =>
    obtain ⟨-, hlo, hhi⟩ := find_some hfind
    simp only [lo_eq, hi_eq] at hlo hhi
    refine .branch (fun hedge => ?_) fun hedge => ?_
    · refine .ret ⟨.whole ?_, rfl, hsome, fun _ => rfl⟩
      rintro ⟨b, hb, hinner⟩
      obtain rfl : a = b := by rw [hfind] at hb; exact Option.some.inj hb
      omega
    have inner : Inner s.areas addr := ⟨a, hfind, by omega⟩
    by_cases room : s.areas.length < s.capacity
    · refine .bind_run (processVmEnsureCapacity_room hsome room) (.assign ⟨?_, rfl, ?_, fun _ => ?_⟩)
      · rw [areas_setAreas hsome]
        exact .parts aligned inner
      · simpa [setAreas] using hsome
      · exact capacity_setAreas _
    · refine .bind (processVmEnsureCapacity_post _ s)
        (fun _ _ kept => ⟨kept, inner, not_lt.mp room⟩) ?_
      rintro u s' ⟨kept, hsome', -⟩
      refine .assign ⟨?_, kept.pages, by simpa [setAreas] using hsome', fun h => absurd (h inner) room⟩
      rw [areas_setAreas hsome', kept.areas]
      exact .parts aligned inner

section Reshape

variable {β : Type} {f : Area → Nat → β} {P : Area → Prop}

section

variable (join : ∀ a b, P a → P b → processVmCompatible a b → Cut f (a.extend b) a b)
  (closed : ∀ a b, P a → P b → processVmCompatible a b → P (a.extend b))
include join closed

theorem mergeFrom_same : ∀ (l : List Area) (cur : Area), P cur → (∀ a ∈ l, P a) →
      Same f (cur :: l) (mergeFrom cur l) ∧ ∀ a ∈ mergeFrom cur l, P a := by
  intro l
  induction l with
  | nil =>
    intro cur hcur _
    refine ⟨Same.refl _, fun a ha => ?_⟩
    rwa [mem_singleton.mp ha]
  | cons next rest ih =>
    intro cur hcur hl
    have hnext := hl next mem_cons_self
    have hrest : ∀ a ∈ rest, P a := fun a ha => hl a (mem_cons_of_mem next ha)
    unfold mergeFrom
    by_cases hc : processVmCompatible cur next
    · rw [if_pos hc]
      obtain ⟨same, hP⟩ := ih (cur.extend next) (closed cur next hcur hnext hc) hrest
      exact ⟨((join cur next hcur hnext hc).join rest).trans same, hP⟩
    · rw [if_neg hc]
      obtain ⟨same, hP⟩ := ih next hnext hrest
      refine ⟨same.cons cur, fun a ha => ?_⟩
      rcases mem_cons.mp ha with rfl | ha
      · exact hcur
      · exact hP a ha

theorem processVmMerge_same (l : List Area) (hl : ∀ a ∈ l, P a) :
    Same f l (processVmMerge l) ∧ ∀ a ∈ processVmMerge l, P a := by
  cases l with
  | nil => exact ⟨Same.refl _, hl⟩
  | cons a rest =>
    exact mergeFrom_same join closed rest a (hl a mem_cons_self)
      fun b hb => hl b (mem_cons_of_mem a hb)

end

theorem splitAreas_each {moved : Bool} (hfind : find l addr = some a) (hl : ∀ b ∈ l, P b)
    (left : P (a.leftOf addr)) (right : P (a.rightOf addr)) :
    ∀ b ∈ splitAreas addr moved l, P b := by
  induction l with
  | nil => cases hfind
  | cons b rest ih =>
    obtain ⟨hb, hrest⟩ := forall_mem_cons.mp hl
    rw [find_cons] at hfind
    unfold splitAreas
    split_ifs at hfind ⊢ with hc hm
    · obtain rfl := Option.some.inj hfind
      exact forall_mem_cons.mpr ⟨hb, forall_mem_cons.mpr ⟨right, hrest⟩⟩
    · obtain rfl := Option.some.inj hfind
      exact forall_mem_cons.mpr ⟨left, forall_mem_cons.mpr ⟨right, hrest⟩⟩
    · exact forall_mem_cons.mpr ⟨hb, ih hfind hrest⟩

theorem splitAreas_same (hfind : find l addr = some a)
    (cut : Cut f a (a.leftOf addr) (a.rightOf addr)) : Same f l (splitAreas addr false l) := by
  induction l with
  | nil => cases hfind
  | cons b rest ih =>
    rw [find_cons] at hfind
    unfold splitAreas
    by_cases hb : Covers b addr
    · rw [if_pos hb] at hfind ⊢
      obtain rfl : b = a := Option.some.inj hfind
      exact cut.split rest
    · rw [if_neg hb] at hfind ⊢
      exact (ih hfind).cons b

theorem SplitTo.each {moved : Bool} (h : SplitTo addr moved l l') (hl : ∀ b ∈ l, P b)
    (parts : ∀ a ∈ l, addr % pageSize = 0 → a.start < addr → addr < a.stop →
      P (a.leftOf addr) ∧ P (a.rightOf addr)) : ∀ b ∈ l', P b := by
  cases h with
  | whole _ => exact hl
  | parts aligned inner =>
    obtain ⟨a, hfind, inner⟩ := inner
    obtain ⟨hmem, hcov⟩ := find_some hfind
    obtain ⟨left, right⟩ := parts a hmem aligned inner hcov.2
    exact splitAreas_each hfind hl left right

theorem SplitTo.same (h : SplitTo addr false l l') (hl : ∀ b ∈ l, P b)
    (cut : ∀ a ∈ l, addr % pageSize = 0 → a.start < addr → addr < a.stop →
      Cut f a (a.leftOf addr) (a.rightOf addr) ∧ P (a.leftOf addr) ∧ P (a.rightOf addr)) :
    Same f l l' ∧ ∀ b ∈ l', P b := by
  refine ⟨?_, h.each hl fun a ha aligned lower upper => (cut a ha aligned lower upper).2⟩
  cases h with
  | whole _ => exact Same.refl l
  | parts aligned inner =>
    obtain ⟨a, hfind, inner⟩ := inner
    obtain ⟨hmem, hcov⟩ := find_some hfind
    exact splitAreas_same hfind (cut _ hmem aligned inner hcov.2).1

end Reshape

@[simp] theorem Area.leftOf_start (a : Area) (addr : Nat) : (a.leftOf addr).start = a.start := rfl
@[simp] theorem leftOf_stop (a : Area) (addr : Nat) : (a.leftOf addr).stop = addr := rfl

@[simp] theorem Area.rightOf_start (a : Area) (addr : Nat) : (a.rightOf addr).start = addr := by
  unfold rightOf
  split_ifs <;> rfl

@[simp] theorem Area.rightOf_stop (a : Area) (addr : Nat) : (a.rightOf addr).stop = a.stop := by
  unfold rightOf
  split_ifs <;> rfl

theorem splitAreas_keeps_cutAt (h : CutAt x l) : CutAt x (splitAreas addr false l) := by
  induction l with
  | nil => exact h
  | cons a rest ih =>
    have hrest : CutAt x rest := fun b hb => h b (mem_cons_of_mem a hb)
    have ha := h a mem_cons_self
    unfold splitAreas
    split
    · rename_i hc
      unfold Covers at hc
      intro b hb
      simp only [mem_cons] at hb
      rcases hb with rfl | rfl | hb
      · simp only [Bool.false_eq_true, if_false, lo_eq, hi_eq, leftOf_start, leftOf_stop] at ha hc ⊢
        omega
      · simp only [lo_eq, hi_eq, rightOf_start, rightOf_stop] at ha hc ⊢
        omega
      · exact hrest b hb
    · intro b hb
      rcases mem_cons.mp hb with rfl | hb
      · exact ha
      · exact ih hrest b hb

theorem SplitTo.cutAt_of_cutAt (h : SplitTo addr false l l') (hx : CutAt x l) : CutAt x l' := by
  cases h with
  | whole _ => exact hx
  | parts _ _ => exact splitAreas_keeps_cutAt hx

theorem splitAreas_cutAt (apart : Apart l) : CutAt addr (splitAreas addr false l) := by
  induction l with
  | nil => intro a ha; cases ha
  | cons a rest ih =>
    obtain ⟨habove, hrest⟩ := pairwise_cons.mp apart
    unfold splitAreas
    split
    · rename_i hc
      intro b hb
      simp only [mem_cons] at hb
      rcases hb with rfl | rfl | hb
      · exact .inl le_rfl
      · exact .inr (by simp)
      · have := habove b hb
        have := hc.2
        omega
    · rename_i hc
      intro b hb
      rcases mem_cons.mp hb with rfl | hb
      · unfold Covers at hc
        omega
      · exact ih hrest b hb

theorem SplitTo.cutAt (h : SplitTo addr false l l') (apart : Apart l) : CutAt addr l' := by
  cases h with
  | parts _ _ => exact splitAreas_cutAt apart
  | whole h =>
    intro a ha
    by_cases hc : Covers a addr
    · have : ¬a.start < addr := fun hlow => h ⟨a, find_of_mem apart ha hc, hlow⟩
      simp only [lo_eq]
      omega
    · unfold Covers at hc
      omega

structure Area.Valid (a : Area) : Prop where
  startAligned : a.start % pageSize = 0
  stopAligned : a.stop % pageSize = 0
  nonempty : a.start < a.stop
  low : userCodeBase ≤ a.start
  high : a.stop ≤ userStackTop
  prot : Prot.within a.prot a.maxProt

structure Sound (l : List Area) : Prop where
  valid : ∀ a ∈ l, a.Valid
  apart : Apart l

def Area.stored (a : Area) : Area := { a with path := a.path.take (fdNameMax - 1) }

theorem Area.Valid.stored (h : a.Valid) : a.stored.Valid :=
  ⟨h.startAligned, h.stopAligned, h.nonempty, h.low, h.high, h.prot⟩

structure Added (a : Area) (l l' : List Area) : Prop where
  valid : a.Valid
  free : ∀ b ∈ l, b.stop ≤ a.start ∨ a.stop ≤ b.start
  merged : l' = processVmMerge
    (l.takeWhile (·.start < a.start) ++ a :: l.dropWhile (·.start < a.start))

theorem processVmRangeFree_iff : processVmRangeFree l start stop ↔
      start < stop ∧ ∀ b ∈ l, b.stop ≤ start ∨ stop ≤ b.start := by
  simp only [processVmRangeFree, Bool.and_eq_true, decide_eq_true_eq, List.all_eq_true,
    Bool.not_eq_true', decide_eq_false_iff_not]
  refine and_congr_right fun _ => forall₂_congr fun b _ => ?_
  omega

theorem processVmInsertArea_post (a : Area) (s : Space) : Post (processVmInsertArea a true) s
      (fun _ s' => s'.areas = processVmMerge
          (s.areas.takeWhile (·.start < a.start) ++ a :: s.areas.dropWhile (·.start < a.start)) ∧
        s'.pages = s.pages) (fun _ s' => Kept s s') := by
  refine .guard (Kept.refl s) fun _ => .bind_get ?_
  refine .seq (processVmEnsureCapacity_post _ s) ?_
  rintro u s1 ⟨kept, hsome, -⟩
  refine .bind_get (.guard kept fun _ => ?_)
  refine .guard kept fun _ => ?_
  refine ⟨?_, kept.pages⟩
  rw [areas_setAreas hsome, kept.areas]
  rfl

theorem processVmAdd_post (a : Area) (s : Space) : Post (processVmAdd a) s
      (fun _ s' => Added a.stored s.areas s'.areas ∧ s'.pages = s.pages)
      (fun _ s' => Kept s s') := by
  refine .guard (Kept.refl s) fun aligned => ?_
  refine .guard (Kept.refl s) fun bounds => ?_
  refine .guard (Kept.refl s) fun prot => ?_
  refine .guard (Kept.refl s) fun _ => .bind_get ?_
  refine .guard (Kept.refl s) fun free => ?_
  refine (processVmInsertArea_post a.stored s).weaken ?_
  rintro u s' ⟨merged, pages⟩
  have free := (processVmRangeFree_iff.mp (by simpa using free)).2
  have valid : a.Valid :=
    ⟨by omega, by omega, by omega, by omega, by omega, not_not.mp prot⟩
  exact ⟨⟨valid.stored, free, merged⟩, pages⟩

inductive Torn (start stop : Nat) (l : List Area) : List Area → Prop
  | first {l' : List Area} {moved : Bool} (aligned : start % pageSize = 0) (inner : Inner l start)
      (split : SplitTo stop moved (splitAreas start true l) l') : Torn start stop l l'
  | second {l₁ : List Area} (split : SplitTo start false l l₁) (aligned : stop % pageSize = 0)
      (inner : Inner l₁ stop) : Torn start stop l (splitAreas stop true l₁)

structure Isolated (fits : Prop) (start stop : Nat) (l l' : List Area) : Prop where
  range : start < stop
  split : fits → ∃ l₁, SplitTo start false l l₁ ∧ SplitTo stop false l₁ l'
  torn : ¬fits → Torn start stop l l'

def Halted (start : Nat) (l l' : List Area) : Prop := l' = l ∨ ∃ moved, SplitTo start moved l l'

/-- Every split that the call needs finds a free slot. -/
def Space.Fits (s : Space) (start stop : Nat) : Prop :=
  s.slotsFor start stop = s.areas.length ∨ s.slotsFor start stop ≤ s.capacity

theorem splitNeeded_iff (hsome : s.array.isSome) (aligned : addr % pageSize = 0) :
    processVmSplitNeeded s addr = true ↔ Inner s.areas addr := by
  have hne := isSome_iff_ne_none.mp hsome
  cases hfind : find s.areas addr with
  | none => simp [processVmSplitNeeded, Inner, hfind]
  | some a =>
    obtain ⟨-, hlow, hhigh⟩ := find_some hfind
    simp only [lo_eq, hi_eq] at hlow hhigh
    simp [processVmSplitNeeded, Inner, hfind, hne, aligned]
    omega

theorem inner_splitAreas (h : start < stop) :
    Inner (splitAreas start false l) stop ↔ Inner l stop := by
  induction l with
  | nil => rfl
  | cons a rest ih =>
    rw [splitAreas]
    unfold Inner at *
    by_cases hc : Covers a start
    · have hleft : ¬Covers (a.leftOf start) stop := fun hcov => absurd hcov.2 (not_lt.mpr h.le)
      have hright : Covers (a.rightOf start) stop ↔ Covers a stop := by
        unfold Covers at *
        simp only [lo_eq, hi_eq, rightOf_start, rightOf_stop] at *
        omega
      have hlow : a.start < stop := lt_of_le_of_lt hc.1 h
      simp only [hc, if_true, Bool.false_eq_true, if_false, find_cons, hleft, hright]
      split_ifs with hcov
      · simp [h, hlow]
      · rfl
    · simp only [hc, if_false, find_cons]
      split_ifs with hcov
      · rfl
      · exact ih

theorem SplitTo.next (h : SplitTo start false l l') (range : start < stop) :
    (Inner l' stop ↔ Inner l stop) ∧
      (Inner l start ∧ l'.length = l.length + 1 ∨ ¬Inner l start ∧ l'.length = l.length) := by
  cases h with
  | whole no => exact ⟨.rfl, .inr ⟨no, rfl⟩⟩
  | parts _ inner => exact ⟨inner_splitAreas range, .inl ⟨inner, length_splitAreas inner⟩⟩

section

variable (hsome : s.array.isSome) (range : start < stop) (hstart : start % pageSize = 0)
  (hstop : stop % pageSize = 0)
include hsome hstart

theorem Space.Fits.first (fits : s.Fits start stop) (inner : Inner s.areas start) :
    s.areas.length < s.capacity := by
  have := (splitNeeded_iff hsome hstart).mpr inner
  simp only [Fits, slotsFor, this, if_true] at fits
  omega

include range hstop

theorem Space.fits_iff (room : Inner s.areas start → s.areas.length < s.capacity)
    (split : SplitTo start false s.areas l) :
    s.Fits start stop ↔ (Inner l stop → l.length < s.capacity) := by
  obtain ⟨same, length⟩ := split.next range
  have atStart := splitNeeded_iff hsome hstart
  have atStop := splitNeeded_iff hsome hstop
  rw [same, Fits, slotsFor]
  by_cases h1 : Inner s.areas start <;> by_cases h2 : Inner s.areas stop <;>
    simp [h1, h2, atStart, atStop] at room length ⊢ <;> omega

theorem splitBoth_post {k : Unit → M Unit} {E : Unit → Space → Prop}
    (ok : ∀ s', Isolated (s.Fits start stop) start stop s.areas s'.areas → s'.pages = s.pages →
      s'.array.isSome → Post (k ()) s' Q E)
    (err : ¬s.Fits start stop → ∀ e s', Halted start s.areas s'.areas → E e s') :
    Post (processVmSplitAt start >>= fun _ => processVmSplitAt stop >>= k) s Q E := by
  refine .bind (processVmSplitAt_post hsome hstart) ?_ ?_
  · rintro e s' ⟨kept, inner, full⟩
    exact err (fun fits => absurd full (not_le.mpr (fits.first hsome hstart inner))) e s'
      (.inl kept.areas)
  rintro u s1 ⟨split, pages, hsome1, capacity⟩
  -- the second split is a clean one in an array that is still the same, or the first one is torn
  by_cases room : Inner s.areas start → s.areas.length < s.capacity
  · have clean := split.clean fun inner => decide_eq_false (not_le.mpr (room inner))
    have fits := fits_iff hsome range hstart hstop room clean
    rw [← capacity room] at fits
    refine .bind (processVmSplitAt_post hsome1 hstop) ?_ ?_
    · rintro e s' ⟨kept, inner, full⟩
      exact err (fun h => absurd full (not_le.mpr (fits.mp h inner))) e s'
        (.inr ⟨false, kept.areas ▸ clean⟩)
    rintro u s2 ⟨split2, pages2, hsome2, -⟩
    refine ok s2 ⟨range, fun h => ⟨_, clean, split2.clean fun inner => ?_⟩, fun h => ?_⟩
      (pages2.trans pages) hsome2
    · exact decide_eq_false (not_le.mpr (fits.mp h inner))
    · obtain ⟨inner, full⟩ := Classical.not_imp.mp (mt fits.mpr h)
      rw [decide_eq_true (not_lt.mp full)] at split2
      exact split2.parts_of inner ▸ .second clean hstop inner
  · have unfit : ¬s.Fits start stop := fun fits => room (fits.first hsome hstart)
    obtain ⟨inner, full⟩ := Classical.not_imp.mp room
    rw [decide_eq_true (not_lt.mp full)] at split
    refine .bind (processVmSplitAt_post hsome1 hstop) ?_ ?_
    · rintro e s' ⟨kept, -⟩
      exact err unfit e s' (.inr ⟨true, kept.areas ▸ split⟩)
    rintro u s2 ⟨split2, pages2, hsome2, -⟩
    have torn := Torn.first hstart inner (split.parts_of inner ▸ split2)
    exact ok s2 ⟨range, fun h => absurd h unfit, fun _ => torn⟩ (pages2.trans pages) hsome2

end

theorem Isolated.same {fits : Prop} {β : Type} {f : Area → Nat → β} {P : Area → Prop}
    (h : Isolated fits start stop l l') (hf : fits) (hl : ∀ b ∈ l, P b)
    (cut : ∀ a addr, addr = start ∨ addr = stop → P a → addr % pageSize = 0 →
      a.start < addr → addr < a.stop → Cut f a (a.leftOf addr) (a.rightOf addr) ∧
        P (a.leftOf addr) ∧ P (a.rightOf addr)) : Same f l l' ∧ ∀ b ∈ l', P b := by
  obtain ⟨l1, split1, split2⟩ := h.split hf
  obtain ⟨same1, hP1⟩ := split1.same hl fun a ha => cut a start (.inl rfl) (hl a ha)
  obtain ⟨same2, hP2⟩ := split2.same hP1 fun a ha => cut a stop (.inr rfl) (hP1 a ha)
  exact ⟨same1.trans same2, hP2⟩

def Filled (l : List Area) : Prop := ∀ a ∈ l, a.start < a.stop

theorem SplitTo.filled {moved : Bool} (h : SplitTo addr moved l l') (hl : Filled l) : Filled l' :=
  h.each hl fun a _ _ lower upper => ⟨lower, by simpa using upper⟩

theorem Isolated.filled {fits : Prop} (h : Isolated fits start stop l l') (hl : Filled l) :
    Filled l' := by
  by_cases hf : fits
  · obtain ⟨l1, split1, split2⟩ := h.split hf
    exact split2.filled (split1.filled hl)
  · cases h.torn hf with
    | first aligned inner split => exact split.filled ((SplitTo.parts aligned inner).filled hl)
    | second split aligned inner => exact (SplitTo.parts aligned inner).filled (split.filled hl)

def Removed (fits : Prop) (start stop : Nat) (l l' : List Area) : Prop :=
  ∃ l₁, Isolated fits start stop l l₁ ∧
    l' = processVmMerge (l₁.filter fun a => !a.inside start stop)

theorem processVmRemoveRange_post (start stop : Nat) (s : Space) :
    Post (processVmRemoveRange start stop) s (fun _ s' => (s.array = none ∧ s' = s) ∨
        Removed (s.Fits start stop) start stop s.areas s'.areas ∧
          s'.pages = unmapPages s.pages start stop)
      (fun _ s' => Kept s s' ∨ ¬s.Fits start stop ∧ Halted start s.areas s'.areas) := by
  refine .guard (.inl (Kept.refl s)) fun range => ?_
  refine .guard (.inl (Kept.refl s)) fun aligned => .bind_get ?_
  refine .branch (fun hnone => ?_) fun hsome => ?_
  · exact .ret (.inl ⟨isNone_iff_eq_none.mp hnone, rfl⟩)
  refine splitBoth_post (by simpa [isSome_iff_ne_none] using hsome) (by omega) (by omega)
    (by omega) ?_ fun unfit _ _ halted => .inr ⟨unfit, halted⟩
  intro s' isolated pages hsome'
  refine .assign (.inr ⟨⟨s'.areas, isolated, ?_⟩, ?_⟩)
  · exact areas_setAreas hsome' _
  · rw [pages]

structure Protected (fits : Prop) (start stop : Nat) (prot : Prot) (l l' : List Area) : Prop where
  allowed : ∀ a ∈ l, ¬a.outside start stop → Prot.within prot a.maxProt
  merged : ∃ l₁, Isolated fits start stop l l₁ ∧
    l' = processVmMerge (protectAreas start stop prot l₁)

theorem processVmProtect_post (start stop : Nat) (prot : Prot) (s : Space) :
    Post (processVmProtect start stop prot) s
      (fun _ s' => Protected (s.Fits start stop) start stop prot s.areas s'.areas ∧
        ∃ l, Isolated (s.Fits start stop) start stop s.areas l ∧
          s'.pages = protectPages l start stop prot s.pages)
      (fun _ s' => Kept s s' ∨ ¬s.Fits start stop ∧ Halted start s.areas s'.areas) := by
  refine .guard (.inl (Kept.refl s)) fun range => ?_
  refine .guard (.inl (Kept.refl s)) fun aligned => ?_
  refine .guard (.inl (Kept.refl s)) fun _ => .bind_get ?_
  refine .guard (.inl (Kept.refl s)) fun covered => .bind_get ?_
  refine .guard (.inl (Kept.refl s)) fun allowed => ?_
  have hsome : s.array.isSome := by
    simp only [processVmRangeCovered, Bool.not_eq_true', Bool.not_eq_false, Bool.and_eq_true] at covered
    exact covered.1.1
  refine splitBoth_post hsome (by omega) (by omega) (by omega) ?_
    fun unfit _ _ halted => .inr ⟨unfit, halted⟩
  intro s' isolated pages hsome'
  refine .assign ⟨⟨?_, s'.areas, isolated, areas_setAreas hsome' _⟩,
    s'.areas, isolated, by rw [pages]⟩
  intro a ha hmeets
  by_contra hprot
  refine allowed (any_eq_true.mpr ⟨a, ha, ?_⟩)
  simp [hmeets, hprot]

theorem withErrno_post {x : M Unit} {E : Space → Prop}
    (e : Errno) (h : Post x s Q (fun _ s' => E s')) :
    Post (withErrno e x) s Q (fun _ s' => E s') := by
  unfold Post withErrno at *
  cases run : x s with
  | ok a s' => rw [run] at h; exact h
  | error u s' => rw [run] at h; exact h

/-- What `munmap` and `mprotect` of a range can do to the list, whether they succeed or not. -/
inductive Reshaped (start stop : Nat) (l : List Area) : List Area → Prop
  | same : Reshaped start stop l l
  | removed {l' : List Area} (h : Removed True start stop l l') : Reshaped start stop l l'
  | reprotected {l' : List Area} (prot : Prot) (h : Protected True start stop prot l l') :
      Reshaped start stop l l'

section

variable {P : Space → Prop} {addr length : Nat} {prot : Prot} (h : ∀ s1, Kept s s1 → P s1)
include h

theorem slots_post (e : Errno) (hsome : s.array.isSome) {x : M Unit} {e' : Errno}
    (run : ∀ s1, Kept s s1 → s1.Fits start stop → Post x s1 (fun _ => P) fun _ => P) :
    Post (do
      withErrno e (processVmEnsureCapacity (s.slotsFor start stop))
      withErrno e' x) s (fun _ => P) fun _ => P := by
  refine .bind (withErrno_post _ (processVmEnsureCapacity_post _ s)) (fun _ s1 kept => h s1 kept) ?_
  rintro u s1 ⟨kept, hsome1, room⟩
  have same (x : Nat) : processVmSplitNeeded s1 x = processVmSplitNeeded s x := by
    simp [processVmSplitNeeded, kept.areas, isSome_iff_ne_none.mp hsome,
      isSome_iff_ne_none.mp hsome1]
  refine withErrno_post _ (run s1 kept (.inr ?_))
  rwa [slotsFor, same, same, kept.areas]

theorem sysMunmapImpl_keeps
    (remove : ∀ s1, Kept s s1 → s1.Fits addr (wrap (addr + pageAlign length)) →
      Post (processVmRemoveRange addr (wrap (addr + pageAlign length))) s1 (fun _ => P) fun _ => P) :
    Post (sysMunmapImpl addr length) s (fun _ => P) fun _ => P := by
  have hs := h s (.refl s)
  refine .guard hs fun _ => ?_
  refine .guard hs fun _ => .bind_get ?_
  refine .guard hs fun _ => ?_
  refine .guard hs fun _ => ?_
  refine .branch (fun _ => .ret hs) fun hsome => ?_
  exact slots_post h .enomem (by simpa [isSome_iff_ne_none] using hsome) remove

theorem sysMprotectImpl_keeps
    (protect : ∀ s1, Kept s s1 → s1.Fits addr (wrap (addr + pageAlign length)) →
      Post (processVmProtect addr (wrap (addr + pageAlign length)) prot) s1 (fun _ => P) fun _ => P) :
    Post (sysMprotectImpl addr length prot) s (fun _ => P) fun _ => P := by
  have hs := h s (.refl s)
  refine .guard hs fun _ => ?_
  refine .guard hs fun _ => ?_
  refine .guard hs fun _ => .bind_get ?_
  refine .guard hs fun _ => ?_
  refine .guard hs fun _ => ?_
  refine .guard hs fun _ => ?_
  refine .guard hs fun covered => ?_
  refine slots_post h .enomem ?_ protect
  simp only [processVmRangeCovered, Bool.not_eq_true', Bool.not_eq_false, Bool.and_eq_true] at covered
  exact covered.1.1

end

theorem sysMunmapImpl_post (addr length : Nat) (s : Space) : Post (sysMunmapImpl addr length) s
      (fun _ s' => Reshaped addr (wrap (addr + pageAlign length)) s.areas s'.areas)
      (fun _ s' => Reshaped addr (wrap (addr + pageAlign length)) s.areas s'.areas) := by
  refine sysMunmapImpl_keeps (fun s1 kept => kept.areas ▸ .same) fun s1 kept fits => ?_
  rw [← kept.areas]
  refine (processVmRemoveRange_post _ _ s1).mono ?_ ?_
  · rintro u s' (⟨-, rfl⟩ | ⟨removed, -⟩)
    · exact .same
    · exact .removed (by rwa [eq_true fits] at removed)
  · rintro e s' (kept | ⟨unfit, -⟩)
    · exact kept.areas ▸ .same
    · exact absurd fits unfit

theorem sysMprotectImpl_post (addr length : Nat) (prot : Prot) (s : Space) :
    Post (sysMprotectImpl addr length prot) s
      (fun _ s' => Reshaped addr (wrap (addr + pageAlign length)) s.areas s'.areas)
      (fun _ s' => Reshaped addr (wrap (addr + pageAlign length)) s.areas s'.areas) := by
  refine sysMprotectImpl_keeps (fun s1 kept => kept.areas ▸ .same) fun s1 kept fits => ?_
  rw [← kept.areas]
  refine (processVmProtect_post _ _ prot s1).mono ?_ ?_
  · rintro u s' ⟨reprotected, -⟩
    exact .reprotected prot (by rwa [eq_true fits] at reprotected)
  · rintro e s' (kept | ⟨unfit, -⟩)
    · exact kept.areas ▸ .same
    · exact absurd fits unfit

theorem processVmClone_post (src s : Space) :
    Post (processVmClone src) s (fun _ s' => s'.areas = src.areas) (fun _ _ => True) := by
  refine .bind (processVmInit_post s) (fun _ _ _ => trivial) ?_
  rintro u s1 -
  refine .bind (processVmEnsureCapacity_post _ s1) (fun _ _ _ => trivial) ?_
  rintro u s2 ⟨-, hsome, -⟩
  exact .assign (areas_setAreas hsome _)

end SmallOS.Vm
