import SmallOS.Mem.FrameInvariant

/-! How the calls move the reference counts. A set of free frames is taken, with one reference each,
or a set of frames with one reference each is given back. -/

namespace SmallOS.Mem

open List Finset

variable {idxs : List Nat} {i : Nat}

structure SameCounts (p q : State) : Prop where
  agrees : Agrees q
  managed : q.managedFrames = p.managedFrames
  counts : q.refcount = p.refcount
  free : q.freeCount = p.freeCount

structure Takes (p q : State) (frames : Finset Nat) : Prop where
  agrees : Agrees q
  managed : q.managedFrames = p.managedFrames
  fresh : ∀ i ∈ frames, i < p.managedFrames ∧ p.refcount i = 0
  counts : ∀ i, q.refcount i = if i ∈ frames then 1 else p.refcount i
  free : q.freeCount + frames.card = p.freeCount

structure Gives (p q : State) (frames : Finset Nat) : Prop where
  agrees : Agrees q
  managed : q.managedFrames = p.managedFrames
  last : ∀ i ∈ frames, i < p.managedFrames ∧ p.refcount i = 1
  counts : ∀ i, q.refcount i = if i ∈ frames then 0 else p.refcount i
  free : q.freeCount = p.freeCount + frames.card

section

variable {p q r : State} {F G : Finset Nat}

theorem Takes.empty (h : Agrees p) : Takes p p ∅ :=
  ⟨h, rfl, fun _ hi => absurd hi (notMem_empty _), fun _ => by simp, by simp⟩

theorem Takes.disjoint (h : Takes p q F) (k : Takes q r G) : Disjoint F G := by
  rw [Finset.disjoint_left]
  intro i hF hG
  have hone : q.refcount i = 1 := by rw [h.counts, if_pos hF]
  exact absurd ((k.fresh i hG).2.symm.trans hone) (by decide)

theorem Takes.trans (h : Takes p q F) (k : Takes q r G) : Takes p r (F ∪ G) := by
  have hdisjoint := h.disjoint k
  refine ⟨k.agrees, k.managed.trans h.managed, fun i hi => ?_, fun i => ?_, ?_⟩
  · by_cases hF : i ∈ F
    · exact h.fresh i hF
    · obtain ⟨hlt, hzero⟩ := k.fresh i ((mem_union.mp hi).resolve_left hF)
      rw [h.counts, if_neg hF] at hzero
      exact ⟨h.managed ▸ hlt, hzero⟩
  · rw [k.counts, h.counts]
    by_cases hG : i ∈ G
    · simp [hG]
    · simp [hG]
  · rw [card_union_of_disjoint hdisjoint]
    have := h.free
    have := k.free
    omega

theorem Takes.held (h : Takes p q idxs.toFinset) (hi : i ∈ idxs) :
    i < q.managedFrames ∧ q.refcount i = 1 := by
  have hmem := mem_toFinset.mpr hi
  rw [h.managed, h.counts, if_pos hmem]
  exact ⟨(h.fresh i hmem).1, rfl⟩

theorem Takes.free_length (h : Takes p q idxs.toFinset) (hnodup : idxs.Nodup) :
    q.freeCount + idxs.length = p.freeCount := by
  rw [← h.free, toFinset_card_of_nodup hnodup]

theorem Takes.undo (h : Takes p q F) (k : Gives q r F) : SameCounts p r := by
  refine ⟨k.agrees, k.managed.trans h.managed, funext fun i => ?_, ?_⟩
  · rw [k.counts, h.counts]
    by_cases hF : i ∈ F
    · rw [if_pos hF, (h.fresh i hF).2]
    · rw [if_neg hF, if_neg hF]
  · have := h.free
    have := k.free
    omega

theorem Gives.trans (h : Gives p q F) (k : Gives q r G) : Gives p r (F ∪ G) := by
  have hdisjoint : Disjoint F G := by
    rw [Finset.disjoint_left]
    intro i hF hG
    have hzero : q.refcount i = 0 := by rw [h.counts, if_pos hF]
    exact absurd ((k.last i hG).2.symm.trans hzero) (by decide)
  refine ⟨k.agrees, k.managed.trans h.managed, fun i hi => ?_, fun i => ?_, ?_⟩
  · by_cases hF : i ∈ F
    · exact h.last i hF
    · obtain ⟨hlt, hone⟩ := k.last i ((mem_union.mp hi).resolve_left hF)
      rw [h.counts, if_neg hF] at hone
      exact ⟨h.managed ▸ hlt, hone⟩
  · rw [k.counts, h.counts]
    by_cases hG : i ∈ G
    · simp [hG]
    · simp [hG]
  · rw [card_union_of_disjoint hdisjoint]
    have := h.free
    have := k.free
    omega

theorem Agrees.refcount_zero (h : Agrees p) (hi : i ∈ freeFrames p) :
    i < p.managedFrames ∧ p.refcount i = 0 := by
  obtain ⟨hlt, hclear⟩ := mem_freeFrames.mp hi
  refine ⟨hlt, ?_⟩
  by_contra hne
  rw [(h.counts i hlt).mpr hne] at hclear
  cases hclear

theorem pmmAllocFrame_takes (h : Agrees p) : pmmAllocFrame p = (0, p) ∨
      ∃ idx q, pmmAllocFrame p = (idxToAddr idx, q) ∧ Takes p q {idx} := by
  have hcases := pmmAllocFrame_cases h
  unfold pmmAllocFrame at hcases ⊢
  split_ifs at hcases ⊢ with hzero
  · exact .inl rfl
  · cases hfind : nextFreeFrame p p.managedFrames 0 with
    | none => exact .inl rfl
    | some idx =>
      rw [hfind] at hcases
      have hfree := nextFreeFrame_some h hfind
      refine .inr ⟨idx, _, rfl, ?_, rfl, fun i hi => ?_, fun i => ?_, ?_⟩
      · rcases hcases with ⟨heq, -⟩ | ⟨_, _, _, hagrees⟩
        · exact absurd (congrArg Prod.fst heq) (idxToAddr_ne_zero idx)
        · exact hagrees
      · rw [Finset.mem_singleton.mp hi]
        exact h.refcount_zero hfree
      · simp only [setRefcount, Function.update_apply, Finset.mem_singleton]
      · have : 0 < p.freeCount := h.free ▸ card_pos.mpr ⟨_, hfree⟩
        simp only [setRefcount, card_singleton]
        omega

theorem pmmAllocContiguousFrames_takes (h : Agrees p) (n : Nat) :
    pmmAllocContiguousFrames p n = (0, p) ∨
      ∃ start q, pmmAllocContiguousFrames p n = (idxToAddr start, q) ∧
        start + n ≤ p.managedFrames ∧ Takes p q (Finset.Ico start (start + n)) := by
  rcases pmmAllocContiguousFrames_cases h n with ⟨heq, -⟩ | ⟨start, hleast, heq⟩
  · exact .inl heq
  · have run := hleast.1
    refine .inr ⟨start, _, heq, run.inside, takeRun_agrees h run, rfl, fun i hi => ?_,
      fun i => ?_, ?_⟩
    · exact h.refcount_zero (run.subset hi)
    · simp only [takeRun, mem_Ico]
    · have := run.le_free h
      simp only [takeRun, Nat.card_Ico]
      omega

theorem addrToIdx_idxToAddr (i : Nat) : addrToIdx (idxToAddr i) = i := by
  unfold addrToIdx idxToAddr pmmFrameSize
  omega

theorem Agrees.idxToAddr_bounds (h : Agrees p) (hi : i < p.managedFrames) :
    pmmBase ≤ idxToAddr i ∧ idxToAddr i < p.maxPhys ∧ idxToAddr i < 4294967296 := by
  have htop := h.top
  have hfew := h.few
  unfold idxToAddr pmmNumFrames pmmLimit pmmBase pmmFrameSize at *
  omega

theorem pmmReleaseFrame_gives (h : Agrees p) {idx : Nat} (hidx : idx < p.managedFrames)
    (hone : p.refcount idx = 1) : Gives p (pmmReleaseFrame p (idxToAddr idx)) {idx} := by
  obtain ⟨hlow, hhigh, -⟩ := h.idxToAddr_bounds hidx
  have hused := (h.counts _ hidx).mpr (by rw [hone]; decide)
  have hagrees := pmmReleaseFrame_agrees h (idxToAddr idx)
  unfold pmmReleaseFrame at hagrees ⊢
  rw [if_neg (by omega), addrToIdx_idxToAddr] at hagrees ⊢
  simp only [hused, hone, Bool.not_true, Bool.false_eq_true, one_ne_zero, or_self, if_false,
    if_true] at hagrees ⊢
  refine ⟨hagrees, rfl, fun i hi => ?_, fun i => ?_, ?_⟩
  · rw [Finset.mem_singleton.mp hi]
    exact ⟨hidx, hone⟩
  · simp only [setRefcount, Function.update_apply, Finset.mem_singleton]
  · simp only [card_singleton]

theorem pmmFreeContiguousFrames_gives (h : Agrees p) {start : Nat} (n : Nat)
    (hin : start + n ≤ p.managedFrames)
    (hone : ∀ i ∈ Finset.Ico start (start + n), p.refcount i = 1) :
    Gives p (pmmFreeContiguousFrames p (idxToAddr start) n) (Finset.Ico start (start + n)) := by
  induction n with
  | zero =>
    simp only [pmmFreeContiguousFrames, List.range_zero, foldl_nil, Nat.add_zero, Ico_self]
    exact ⟨h, rfl, fun _ hi => absurd hi (notMem_empty _), fun _ => by simp, by simp⟩
  | succ n ih =>
    have hfirst := ih (by omega) fun i hi => hone i (by
      rw [mem_Ico] at hi ⊢
      omega)
    have haddr : (idxToAddr start + n * 4096) % 4294967296 = idxToAddr (start + n) := by
      have hbound := (h.idxToAddr_bounds (show start + n < p.managedFrames by omega)).2.2
      unfold idxToAddr pmmFrameSize at *
      omega
    have hnot : start + n ∉ Finset.Ico start (start + n) := by
      rw [mem_Ico]
      omega
    have hlast : Gives (pmmFreeContiguousFrames p (idxToAddr start) n)
        (pmmReleaseFrame (pmmFreeContiguousFrames p (idxToAddr start) n) (idxToAddr (start + n)))
        {start + n} := by
      refine pmmReleaseFrame_gives hfirst.agrees ?_ ?_
      · rw [hfirst.managed]
        omega
      · rw [hfirst.counts, if_neg hnot]
        exact hone _ (by
          rw [mem_Ico]
          omega)
    have hunion : Finset.Ico start (start + n) ∪ {start + n} =
        Finset.Ico start (start + (n + 1)) := by
      ext i
      simp only [mem_union, mem_Ico, Finset.mem_singleton]
      omega
    rw [← hunion]
    have hstep := hfirst.trans hlast
    unfold pmmFreeContiguousFrames at hstep ⊢
    rw [range_succ, foldl_append, foldl_cons, foldl_nil, haddr]
    exact hstep

end

end SmallOS.Mem
