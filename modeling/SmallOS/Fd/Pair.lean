import SmallOS.Fd.Table
import SmallOS.Mem.Counts

/-! Making a pair of descriptors is all or nothing unless the table moves between the two:
the entry of the first one is then written where the table was. -/

namespace SmallOS.Fd

open Prog Mem Function List Option Nat

variable {e : Entry} {a capacity fd frame : Nat} {o : Object}

def State.tableIdx (s : State) : Finset Nat :=
  Finset.Ico (addrToIdx s.tableFrame) (addrToIdx s.tableFrame + s.tableFrames)

/-- What holds between calls: the table has its frames to itself, and an entry that is not in
use is zero. -/
structure State.Ok (s : State) : Prop where
  agrees : Agrees s.pmm
  placed : s.tableFrame = idxToAddr (addrToIdx s.tableFrame)
  inside : addrToIdx s.tableFrame + s.tableFrames ≤ s.pmm.managedFrames
  owned : ∀ i ∈ s.tableIdx, s.pmm.refcount i = 1
  frames : s.tableFrames = frameCount s.capacity
  low : fdFirst < s.capacity
  high : s.capacity ≤ s.limit
  hard : s.limit ≤ fdLimitHard
  cleared : ∀ fd, (s.ent fd).valid = false → s.ent fd = Entry.zero
  beyond : ∀ fd, s.capacity ≤ fd → s.ent fd = Entry.zero

def State.setEnt (s : State) (fd : Nat) (e : Entry) : State := { s with
  tables := update s.tables s.tableFrame
    (update (s.tables s.tableFrame) fd e) }

section

variable {s t : State}

theorem State.ent_setEnt (s : State) (a : Nat) (e : Entry) (fd : Nat) :
    (s.setEnt a e).ent fd = if fd = a then e else s.ent fd := by
  simp only [State.ent, State.setEnt, update_self, update_apply]

theorem store_run (s : State) (a : Nat) (e : Entry) :
    store ⟨s.tableFrame, a⟩ e s = .ok () (s.setEnt a e) := rfl

theorem State.Ok.takes (h : s.Ok) {q : Mem.State} {F : Finset Nat} (ht : Takes s.pmm q F) :
    ({ s with pmm := q } : State).Ok := by
  refine ⟨ht.agrees, h.placed, ?_, fun i hi => ?_, h.frames, h.low, h.high, h.hard, h.cleared,
    h.beyond⟩
  · exact ht.managed ▸ h.inside
  · have hone := h.owned i hi
    rw [ht.counts, if_neg]
    · exact hone
    · exact fun hF => absurd ((ht.fresh i hF).2.symm.trans hone) (by decide)

theorem State.Ok.setEnt (h : s.Ok) (ha : a < s.capacity)
    (he : e.valid = true) : (s.setEnt a e).Ok := by
  refine ⟨h.agrees, h.placed, h.inside, h.owned, h.frames, h.low, h.high, h.hard, fun fd => ?_,
    fun fd hfd => ?_⟩
  · rw [State.ent_setEnt]
    split_ifs
    · exact fun hno => absurd (he.symm.trans hno) (by decide)
    · exact h.cleared fd
  · have hne : fd ≠ a := by
      change s.capacity ≤ fd at hfd
      omega
    rw [State.ent_setEnt, if_neg hne]
    exact h.beyond fd hfd

theorem pmmAllocFrame_post (h : Agrees s.pmm) : Post pmmAllocFrame s
      (fun frame s' => ∃ idx q, frame = idxToAddr idx ∧ Takes s.pmm q {idx} ∧
        Mem.pmmAllocFrame s.pmm = (frame, q) ∧ s' = { s with pmm := q })
      (fun e s' => e = .enomem ∧ s' = s ∧ (Mem.pmmAllocFrame s.pmm).1 = 0) := by
  unfold Post pmmAllocFrame
  rcases pmmAllocFrame_takes h with heq | ⟨idx, q, heq, ht⟩
  · rw [heq]
    exact ⟨rfl, rfl, rfl⟩
  · rw [heq]
    simp only [if_neg (idxToAddr_ne_zero idx)]
    exact ⟨idx, q, rfl, ht, rfl, rfl⟩

theorem freeFrames_run (idxs : List Nat) : ∀ {s : State}, Agrees s.pmm → idxs.Nodup →
      (∀ i ∈ idxs, i < s.pmm.managedFrames ∧ s.pmm.refcount i = 1) →
      ∃ q, freeFrames (idxs.map idxToAddr) s = .ok () { s with pmm := q } ∧
        Gives s.pmm q idxs.toFinset := by
  induction idxs with
  | nil =>
    intro s h _ _
    exact ⟨s.pmm, rfl, h, rfl, fun i hi => absurd hi (Finset.notMem_empty i), fun _ => by simp,
      by simp⟩
  | cons i idxs ih =>
    intro s h hnodup hone
    obtain ⟨hnot, hnodup⟩ := nodup_cons.mp hnodup
    obtain ⟨q, hrun, hgives⟩ := ih h hnodup fun j hj => hone j (mem_cons_of_mem _ hj)
    obtain ⟨hlt, hcount⟩ := hone i mem_cons_self
    have hlast : Gives q (pmmReleaseFrame q (idxToAddr i)) {i} := by
      refine pmmReleaseFrame_gives hgives.agrees (hgives.managed ▸ hlt) ?_
      rw [hgives.counts, if_neg (fun hi => hnot (List.mem_toFinset.mp hi))]
      exact hcount
    refine ⟨pmmReleaseFrame q (idxToAddr i), ?_, ?_⟩
    · rw [map_cons, freeFrames]
      simp only [run_bind, hrun]
      rfl
    · have hboth := hgives.trans hlast
      rwa [Finset.union_comm, ← Finset.insert_eq, ← toFinset_cons] at hboth

def takeFrames : Nat → Mem.State → Option Mem.State
  | 0, p => some p
  | n + 1, p => (takeFrames n p).bind fun q =>
    if (Mem.pmmAllocFrame q).1 = 0 then none else some (Mem.pmmAllocFrame q).2

theorem allocFrames_post (n : Nat) (h : Agrees s.pmm) : Post (allocFrames n) s
      (fun frames s' => ∃ (idxs : List Nat) (q : Mem.State), frames = idxs.map idxToAddr ∧
        idxs.length = n ∧ idxs.Nodup ∧ Takes s.pmm q idxs.toFinset ∧
        takeFrames n s.pmm = some q ∧ s' = { s with pmm := q })
      (fun e s' => e = .enomem ∧ takeFrames n s.pmm = none ∧
        ∃ q, SameCounts s.pmm q ∧ s' = { s with pmm := q }) := by
  induction n with
  | zero => exact .ret ⟨[], s.pmm, rfl, rfl, nodup_nil, .empty h, rfl, rfl⟩
  | succ n ih =>
    rw [allocFrames]
    refine .bind ih ?_ ?_
    · rintro e s' ⟨rfl, hnone, hsame⟩
      refine ⟨rfl, ?_, hsame⟩
      rw [takeFrames, hnone]
      rfl
    · rintro frames s' ⟨idxs, q, rfl, hlen, hnodup, htakes, hsome, rfl⟩
      refine .seq (.rescue (pmmAllocFrame_post (s := { s with pmm := q }) htakes.agrees)
        (E := fun e s' => e = .enomem ∧ takeFrames (n + 1) s.pmm = none ∧
          ∃ q, SameCounts s.pmm q ∧ s' = { s with pmm := q }) ?_) ?_
      · rintro e s' ⟨rfl, rfl, hzero⟩
        obtain ⟨r, hrun, hgives⟩ := freeFrames_run idxs (s := { s with pmm := q }) htakes.agrees
          hnodup fun i hi => htakes.held hi
        refine .bind_run hrun (.raise ⟨rfl, ?_, r, htakes.undo hgives, rfl⟩)
        rw [takeFrames, hsome, bind_some, if_pos hzero]
      · rintro frame s' ⟨idx, r, rfl, hlast, heq, rfl⟩
        have hboth := htakes.trans hlast
        have hfresh := Finset.disjoint_left.mp (htakes.disjoint hlast)
        refine Post.ret ⟨idxs ++ [idx], r, by simp, by simp [hlen], ?_, ?_, ?_, rfl⟩
        · refine nodup_append.mpr ⟨hnodup, nodup_singleton _, ?_⟩
          intro i hi j hj heq
          rw [mem_singleton.mp hj] at heq
          exact hfresh (List.mem_toFinset.mpr hi) (Finset.mem_singleton.mpr heq)
        · rw [toFinset_append]
          simpa using hboth
        · rw [takeFrames, hsome, bind_some, heq, if_neg (idxToAddr_ne_zero idx)]

structure Grown (s t : State) : Prop where
  ok : t.Ok
  capacity : t.capacity = newCapacity s.capacity s.limit (s.capacity + 1)
  limit : t.limit = s.limit
  ent : ∀ fd, t.ent fd = if fd < s.capacity then s.ent fd else Entry.zero
  moved : t.tableFrame ≠ s.tableFrame
  objects : t.objects = s.objects
  managed : t.pmm.managedFrames = s.pmm.managedFrames
  counts : ∀ i, s.pmm.refcount i ≠ 0 → i ∉ s.tableIdx → t.pmm.refcount i = s.pmm.refcount i
  free : t.pmm.freeCount + t.tableFrames = s.pmm.freeCount + s.tableFrames

theorem newCapacity_bounds (hroom : s.capacity < s.limit) :
    s.capacity < newCapacity s.capacity s.limit (s.capacity + 1) ∧
      newCapacity s.capacity s.limit (s.capacity + 1) ≤ s.limit := by
  unfold newCapacity
  split_ifs <;> omega

def FramesToGrow (s : State) : Prop :=
  (pmmAllocContiguousFrames s.pmm
    (frameCount (newCapacity s.capacity s.limit (s.capacity + 1)))).1 ≠ 0

theorem frameCount_pos (h : 0 < capacity) : 0 < frameCount capacity := by
  unfold frameCount entryBytes pageSize
  omega

def State.withTable (s : State) (q : Mem.State) (frame : Nat) : State :=
  { s with pmm := q, tables := update s.tables frame fun _ => Entry.zero }

theorem State.ent_withTable (hmoved : frame ≠ s.tableFrame) (q : Mem.State)
    (fd : Nat) : (s.withTable q frame).ent fd = s.ent fd := by
  simp only [State.ent, State.withTable, update_of_ne hmoved.symm]

theorem State.ent_moveTable (hmoved : frame ≠ s.tableFrame) (q : Mem.State)
    (capacity fd : Nat) : ((s.withTable q frame).moveTable frame capacity).ent fd =
      if fd < s.capacity then s.ent fd else Entry.zero := by
  rw [← State.ent_withTable hmoved q]
  unfold State.ent State.moveTable State.withTable
  simp only [update_self]
  rfl

theorem State.Ok.grown (h : s.Ok) (hroom : s.capacity < s.limit) {start : Nat}
    {q : Mem.State} (hcap : newCapacity s.capacity s.limit (s.capacity + 1) = capacity)
    (hinside : start + frameCount capacity ≤ s.pmm.managedFrames)
    (ht : Takes s.pmm q (Finset.Ico start (start + frameCount capacity))) :
    Grown s ((s.withTable q (idxToAddr start)).moveTable (idxToAddr start) capacity) := by
  obtain ⟨hmore, hle⟩ := newCapacity_bounds hroom
  rw [hcap] at hmore hle
  have hlow := h.low
  have hold := h.takes ht
  have hgives : Gives q (pmmFreeContiguousFrames q s.tableFrame s.tableFrames) s.tableIdx := by
    rw [h.placed]
    exact pmmFreeContiguousFrames_gives ht.agrees _ hold.inside hold.owned
  have hapart : ∀ i ∈ s.tableIdx, i ∉ Finset.Ico start (start + frameCount capacity) :=
    fun i hi hnew => absurd ((ht.fresh i hnew).2.symm.trans (h.owned i hi)) (by decide)
  have hmoved : idxToAddr start ≠ s.tableFrame := by
    intro heq
    refine hapart start ?_ (Finset.left_mem_Ico.mpr ?_)
    · have hpos := frameCount_pos (show 0 < s.capacity by omega)
      rw [State.tableIdx, ← heq, addrToIdx_idxToAddr, h.frames]
      exact Finset.left_mem_Ico.mpr (by omega)
    · have := frameCount_pos (show 0 < capacity by omega)
      omega
  have hent := State.ent_moveTable hmoved q capacity
  refine ⟨⟨hgives.agrees, ?_, ?_, fun i hi => ?_, rfl, hlow.trans hmore, hle, h.hard,
    fun fd => ?_, fun fd hfd => ?_⟩, hcap.symm, rfl, hent, hmoved, rfl,
    hgives.managed.trans ht.managed, fun i hne hout => ?_, ?_⟩
  · exact (congrArg idxToAddr (addrToIdx_idxToAddr start)).symm
  · have hmanaged := hgives.managed.trans ht.managed
    refine (congrArg (· + frameCount capacity) (addrToIdx_idxToAddr start)).trans_le ?_
    exact hinside.trans_eq hmanaged.symm
  · have hi : i ∈ Finset.Ico start (start + frameCount capacity) := by
      rw [← addrToIdx_idxToAddr start]
      exact hi
    exact (hgives.counts i).trans (by rw [if_neg fun hi' => hapart i hi' hi, ht.counts, if_pos hi])
  · rw [hent]
    split_ifs
    · exact h.cleared fd
    · exact fun _ => rfl
  · rw [hent, if_neg]
    exact not_lt.mpr (hmore.le.trans hfd)
  · refine (hgives.counts i).trans ?_
    rw [if_neg hout, ht.counts, if_neg fun hnew => hne (ht.fresh i hnew).2]
  · have hfree := hgives.free
    have htaken := ht.free
    rw [card_Ico] at htaken
    rw [State.tableIdx, card_Ico] at hfree
    simp only [State.moveTable, State.withTable]
    omega

instance (s : State) : Decidable (FramesToGrow s) := inferInstanceAs (Decidable (_ ≠ _))

theorem processFdTableGrow_post (h : s.Ok) (hroom : s.capacity < s.limit) :
    Post (processFdTableGrow (s.capacity + 1)) s (fun _ t => Grown s t ∧ FramesToGrow s)
      (fun e t => e = .enomem ∧ t = s ∧ ¬FramesToGrow s) := by
  obtain ⟨hmore, hle⟩ := newCapacity_bounds hroom
  have hhard := h.hard
  refine .bind_get (.branch (fun hno => absurd hno (by omega)) fun _ => ?_)
  refine .branch (fun hno => absurd hno (by omega)) fun _ => ?_
  refine .branch (fun hno => absurd hno (by omega)) fun _ => ?_
  unfold FramesToGrow
  generalize hcap : newCapacity s.capacity s.limit (s.capacity + 1) = capacity at *
  rcases pmmAllocContiguousFrames_takes h.agrees (frameCount capacity) with
    heq | ⟨start, q, heq, hinside, htakes⟩
  · have hfail : processFdTableAlloc capacity s = .error .enomem s := by
      unfold processFdTableAlloc
      rw [if_neg (by omega), heq]
      rfl
    have hpost : Post (processFdTableAlloc capacity) s (fun _ _ => False)
        (fun e t => e = .enomem ∧ t = s) := by
      unfold Post
      rw [hfail]
      exact ⟨rfl, rfl⟩
    refine .bind hpost (fun e t he => ⟨he.1, he.2, ?_⟩) fun _ _ hno => hno.elim
    rw [heq]
    exact not_not.mpr rfl
  · have hrun : processFdTableAlloc capacity s = .ok (idxToAddr start)
        (s.withTable q (idxToAddr start)) := by
      unfold processFdTableAlloc
      rw [if_neg (by omega), heq]
      exact if_neg (idxToAddr_ne_zero start)
    refine .bind_run hrun (.assign ⟨?_, ?_⟩)
    · exact h.grown hroom hcap hinside htakes
    · rw [heq]
      exact idxToAddr_ne_zero start

theorem firstFree_some (h : firstFree s = some fd) :
    fdFirst ≤ fd ∧ fd < s.capacity ∧ (s.ent fd).valid = false := by
  have hvalid := find?_some h
  obtain ⟨hlow, hhigh⟩ := mem_range'_1.mp (mem_of_find?_eq_some h)
  exact ⟨hlow, by omega, by simpa using hvalid⟩

theorem firstFree_none (h : firstFree s = none) (fd : Nat) (hlow : fdFirst ≤ fd)
    (hhigh : fd < s.capacity) : (s.ent fd).valid = true := by
  have := find?_eq_none.mp h fd (mem_range'_1.mpr ⟨hlow, by omega⟩)
  simpa using this

theorem Grown.first_slot (h : Grown s t) (hlow : fdFirst ≤ s.capacity)
    (hmore : s.capacity < t.capacity) (hfull : firstFree s = none) :
    firstFree t = some s.capacity := by
  refine find?_range'_eq_some.mpr ⟨?_, mem_range'_1.mpr ⟨hlow, by omega⟩, ?_⟩
  · rw [h.ent, if_neg (lt_irrefl _)]
    rfl
  · intro fd hfd hlt
    rw [h.ent, if_pos hlt, firstFree_none hfull fd hfd hlt]
    rfl

inductive Allotted (s : State) : Ptr → State → Prop
  | here {fd : Nat} (h : firstFree s = some fd) : Allotted s ⟨s.tableFrame, fd⟩ s
  | moved {t : State} (full : firstFree s = none) (room : s.capacity < s.limit)
      (frames : FramesToGrow s) (h : Grown s t) : Allotted s ⟨t.tableFrame, s.capacity⟩ t

theorem processFdAllocEntry_post (h : s.Ok) :
    Post processFdAllocEntry s (fun ptr t => Allotted s ptr t)
      (fun e t => e ≠ .hung ∧ t = s ∧ firstFree s = none ∧
        ¬(s.capacity < s.limit ∧ FramesToGrow s)) := by
  have hlow := h.low
  refine .bind_get (.branch (fun hno => absurd hno (not_le.mpr hlow)) fun _ => ?_)
  refine .bind_get ?_
  refine .seq (R := fun fd t => Allotted s ⟨t.tableFrame, fd⟩ t) ?_
    fun fd t ht => .bind_get (.ret ht)
  rw [allocEntry]
  refine .bind_get ?_
  cases hfind : firstFree s with
  | some fd => exact .ret (.here hfind)
  | none =>
    refine .branch (fun hfull => ?_) fun hroom => ?_
    · exact .raise ⟨by decide, rfl, rfl, fun hgrow => absurd hgrow.1 (not_lt.mpr hfull)⟩
    · have hroom := not_le.mp hroom
      have hmore := (newCapacity_bounds hroom).1
      refine .bind (processFdTableGrow_post h hroom) ?_ ?_
      · rintro e t ⟨rfl, rfl, hframes⟩
        exact ⟨by decide, rfl, rfl, fun hgrow => hframes hgrow.2⟩
      · rintro u t ⟨hgrown, hframes⟩
        -- the limit is not zero, so there is a second round, and it finds the new slot
        obtain ⟨n, hn⟩ := exists_eq_succ_of_ne_zero (show s.limit ≠ 0 by omega)
        rw [hn, allocEntry]
        refine .bind_get ?_
        rw [hgrown.first_slot hlow.le (hgrown.capacity ▸ hmore) hfind]
        exact .ret (.moved hfind hroom hframes hgrown)

def State.Open (s : State) (fd : Nat) : Prop := fd < s.capacity ∧ (s.ent fd).valid = true

structure Made (ends : Nat → Entry × Entry) (s : State) (fds : Nat × Nat) (t : State) : Prop where
  distinct : fds.1 ≠ fds.2
  unused : ¬s.Open fds.1 ∧ ¬s.Open fds.2
  inTable : fds.1 < t.capacity ∧ fds.2 < t.capacity
  object : ∃ idx, idx < s.pmm.managedFrames ∧ s.pmm.refcount idx = 0 ∧
    t.ent fds.1 = (ends (idxToAddr idx)).1 ∧ t.ent fds.2 = (ends (idxToAddr idx)).2 ∧
    ∃ o, t.objects (idxToAddr idx) = some o ∧ o.firstRefs = 1 ∧ o.secondRefs = 1
  others : ∀ fd, fd ≠ fds.1 → fd ≠ fds.2 →
    t.ent fd = if fd < s.capacity then s.ent fd else Entry.zero

structure Undone (s t : State) : Prop where
  same : ∀ fd, t.Open fd ↔ s.Open fd
  free : t.pmm.freeCount + t.tableFrames = s.pmm.freeCount + s.tableFrames

structure Marked (s t : State) (idxs : List Nat) (a : Nat) : Prop where
  ok : t.Ok
  inTable : a < t.capacity
  grown : s.capacity ≤ t.capacity
  mark : t.ent a = { Entry.zero with valid := true }
  unused : ¬s.Open a
  others : ∀ fd, fd ≠ a → t.ent fd = if fd < s.capacity then s.ent fd else Entry.zero
  nodup : idxs.Nodup
  held : ∀ i ∈ idxs, i < t.pmm.managedFrames ∧ t.pmm.refcount i = 1
  free : t.pmm.freeCount + idxs.length + t.tableFrames = s.pmm.freeCount + s.tableFrames

theorem Marked.open_iff {idxs : List Nat} (h : Marked s t idxs a)
    (hne : fd ≠ a) : t.Open fd ↔ s.Open fd := by
  unfold State.Open
  rw [h.others fd hne]
  have := h.grown
  split_ifs with hlt
  · exact and_congr_left fun _ => ⟨fun _ => hlt, fun _ => by omega⟩
  · exact ⟨fun hno => (nomatch hno.2), fun hno => absurd hno.1 hlt⟩

theorem Marked.undo {idxs : List Nat} (h : Marked s t idxs a) :
    ∃ q, freeFrames (idxs.map idxToAddr) (t.setEnt a Entry.zero) =
        .ok () { t.setEnt a Entry.zero with pmm := q } ∧
      Undone s { t.setEnt a Entry.zero with pmm := q } := by
  obtain ⟨q, hrun, hgives⟩ := freeFrames_run idxs (s := t.setEnt a Entry.zero) h.ok.agrees h.nodup
    h.held
  refine ⟨q, hrun, fun fd => ?_, ?_⟩
  · by_cases heq : fd = a
    · subst heq
      refine ⟨fun hopen => ?_, fun hopen => absurd hopen h.unused⟩
      have hvalid : ((t.setEnt fd Entry.zero).ent fd).valid = true := hopen.2
      rw [State.ent_setEnt, if_pos rfl] at hvalid
      cases hvalid
    · refine Iff.trans (and_congr_right fun _ => ?_) (h.open_iff heq)
      change ((t.setEnt a Entry.zero).ent fd).valid = true ↔ _
      rw [State.ent_setEnt, if_neg heq]
  · have hfree := h.free
    have hback := hgives.free
    rw [toFinset_card_of_nodup h.nodup] at hback
    have hpmm : (t.setEnt a Entry.zero).pmm = t.pmm := rfl
    rw [hpmm] at hback
    change q.freeCount + t.tableFrames = _
    omega

theorem finishPair_post (ends : Nat → Entry × Entry) {idxs : List Nat} {idx : Nat}
    (h : Marked s t idxs a) (hidx : idx < s.pmm.managedFrames ∧ s.pmm.refcount idx = 0)
    (ho : t.objects (idxToAddr idx) = some o ∧ o.firstRefs = 1 ∧ o.secondRefs = 1) :
    Post (finishPair (idxs.map idxToAddr) (ends (idxToAddr idx)) ⟨t.tableFrame, a⟩) t
      (fun fds u => (firstFree t ≠ none ∧ Made ends s fds u) ∨
        (firstFree t = none ∧ t.capacity < t.limit ∧ FramesToGrow t) ∧ (u.ent fds.1).kind = .none)
      (fun e u => e ≠ .hung ∧ Undone s u ∧
        ¬(firstFree t = none ∧ t.capacity < t.limit ∧ FramesToGrow t)) := by
  refine .seq (.rescue (processFdAllocEntry_post h.ok) (E := fun e u => e ≠ .hung ∧ Undone s u ∧
      ¬(firstFree t = none ∧ t.capacity < t.limit ∧ FramesToGrow t)) ?_) ?_
  · rintro e u ⟨hne, rfl, hfull, hgrow⟩
    obtain ⟨q, hrun, hundone⟩ := h.undo
    refine .bind_run (store_run u a Entry.zero) (.bind_run hrun (.raise ?_))
    exact ⟨hne, hundone, fun hall => hgrow hall.2⟩
  · rintro second u hslot
    cases hslot with
    | here hfind =>
      rename_i b
      obtain ⟨hlow, hhigh, hinvalid⟩ := firstFree_some hfind
      have hne : b ≠ a := fun heq => by
        rw [heq, h.mark] at hinvalid
        cases hinvalid
      refine .bind_run (store_run t a _) ?_
      refine .bind_run (store_run (t.setEnt a _) b _) (.ret (.inl ⟨?_, ?_⟩))
      · rw [hfind]
        exact nofun
      · have hent : ∀ fd, ((t.setEnt a (ends (idxToAddr idx)).1).setEnt b
            (ends (idxToAddr idx)).2).ent fd = if fd = b then (ends (idxToAddr idx)).2
              else if fd = a then (ends (idxToAddr idx)).1 else t.ent fd := fun fd => by
          rw [State.ent_setEnt, State.ent_setEnt]
        refine ⟨hne.symm, ⟨h.unused, ?_⟩, ⟨h.inTable, hhigh⟩,
          ⟨idx, hidx.1, hidx.2, ?_, ?_, o, ho⟩, fun fd hfa hfb => ?_⟩
        · rw [← h.open_iff hne]
          exact fun hopen => absurd (hopen.2.symm.trans hinvalid) (by decide)
        · rw [hent, if_neg hne.symm, if_pos rfl]
        · rw [hent, if_pos rfl]
        · rw [hent, if_neg hfb, if_neg hfa, h.others fd hfa]
    | moved hfull hroom hframes hgrown =>
      -- the first entry is written to the frames that the table has left
      have hstale : store ⟨t.tableFrame, a⟩ (ends (idxToAddr idx)).1 u = .ok () { u with
          tables := update u.tables t.tableFrame (update
            (u.tables t.tableFrame) a (ends (idxToAddr idx)).1) } := rfl
      refine .bind_run hstale (.bind_run (store_run { u with tables := _ } t.capacity _) ?_)
      refine .ret (.inr ⟨⟨hfull, hroom, hframes⟩, ?_⟩)
      have hlost : State.ent { u with
          tables := update u.tables t.tableFrame (update
            (u.tables t.tableFrame) a (ends (idxToAddr idx)).1) } a = u.ent a := by
        simp only [State.ent, update_of_ne hgrown.moved]
      rw [State.ent_setEnt, if_neg h.inTable.ne, hlost, hgrown.ent, if_pos h.inTable, h.mark]
      rfl

def OneSlot (s : State) : Prop :=
  ∃ fd, fdFirst ≤ fd ∧ fd < s.capacity ∧ (s.ent fd).valid = false ∧
    ∀ i, fdFirst ≤ i → i < s.capacity → i ≠ fd → (s.ent i).valid = true

def Moves (s : State) (count : Nat) : Prop :=
  OneSlot s ∧ s.capacity < s.limit ∧
    ∃ q, takeFrames count s.pmm = some q ∧ FramesToGrow { s with pmm := q }

theorem OneSlot.not_full (h : OneSlot s) : firstFree s ≠ none := by
  obtain ⟨fd, hlow, hhigh, hinvalid, -⟩ := h
  intro hnone
  exact absurd ((firstFree_none hnone fd hlow hhigh).symm.trans hinvalid) (by decide)

theorem oneSlot_iff (hfind : firstFree s = some a) (he : e.valid = true) :
    OneSlot s ↔ firstFree (s.setEnt a e) = none := by
  obtain ⟨hlow, hhigh, hinvalid⟩ := firstFree_some hfind
  constructor
  · rintro ⟨fd, -, -, -, hothers⟩
    have hfd : a = fd := by
      by_contra hne
      exact absurd ((hothers a hlow hhigh hne).symm.trans hinvalid) (by decide)
    refine find?_eq_none.mpr fun i hi => ?_
    obtain ⟨hi1, hi2⟩ := mem_range'_1.mp hi
    rw [State.ent_setEnt]
    split_ifs with heq
    · simp [he]
    · have hhigh : i < s.capacity := by
        change fdFirst + (s.capacity - fdFirst) > i at hi2
        omega
      simp [hothers i hi1 hhigh (hfd ▸ heq)]
  · intro hnone
    refine ⟨a, hlow, hhigh, hinvalid, fun i hi1 hi2 hne => ?_⟩
    have hvalid := firstFree_none hnone i hi1 hi2
    rwa [State.ent_setEnt, if_neg hne] at hvalid

def State.withObject (s : State) (q : Mem.State) (frame : Nat) (o : Object) : State :=
  { s with pmm := q, objects := update s.objects frame (some o) }

section

variable {q : Mem.State} {idxs : List Nat}

theorem State.Ok.withObject (h : s.Ok) (ht : Takes s.pmm q idxs.toFinset) (frame : Nat)
    (o : Object) : (s.withObject q frame o).Ok :=
  have hq := h.takes ht
  ⟨hq.agrees, hq.placed, hq.inside, hq.owned, hq.frames, hq.low, hq.high, hq.hard, hq.cleared,
    hq.beyond⟩

theorem marked_here (h : s.Ok) (hnodup : idxs.Nodup) (ht : Takes s.pmm q idxs.toFinset)
    (frame : Nat) (o : Object) (hfind : firstFree s = some a) :
    Marked s ((s.withObject q frame o).setEnt a { Entry.zero with valid := true }) idxs a := by
  obtain ⟨hlow, hhigh, hinvalid⟩ := firstFree_some hfind
  refine ⟨(h.withObject ht frame o).setEnt hhigh rfl, hhigh, le_refl _, ?_, ?_, fun fd hne => ?_,
    hnodup, fun i hi => ht.held hi, ?_⟩
  · rw [State.ent_setEnt, if_pos rfl]
  · exact fun hopen => absurd (hopen.2.symm.trans hinvalid) (by decide)
  · rw [State.ent_setEnt, if_neg hne]
    split_ifs with hlt
    · rfl
    · exact h.beyond fd (not_lt.mp hlt)
  · have hfree := ht.free_length hnodup
    change q.freeCount + idxs.length + s.tableFrames = _
    omega

theorem marked_moved (h : s.Ok) (hnodup : idxs.Nodup) (ht : Takes s.pmm q idxs.toFinset)
    (hroom : s.capacity < s.limit) (hgrown : Grown (s.withObject q frame o) t) :
    Marked s (t.setEnt s.capacity { Entry.zero with valid := true }) idxs s.capacity := by
  have hmore : s.capacity < t.capacity := hgrown.capacity ▸ (newCapacity_bounds hroom).1
  refine ⟨hgrown.ok.setEnt hmore rfl, hmore, hmore.le, ?_, fun hopen => lt_irrefl _ hopen.1,
    fun fd hne => ?_, hnodup, fun i hi => ?_, ?_⟩
  · rw [State.ent_setEnt, if_pos rfl]
  · rw [State.ent_setEnt, if_neg hne]
    exact hgrown.ent fd
  · obtain ⟨hlt, hone⟩ := ht.held hi
    have hout : i ∉ s.tableIdx := fun htable =>
      absurd ((ht.fresh i (List.mem_toFinset.mpr hi)).2.symm.trans (h.owned i htable)) (by decide)
    refine ⟨hgrown.managed.symm ▸ hlt, (hgrown.counts i ?_ hout).trans hone⟩
    exact fun hzero => absurd (hone.symm.trans hzero) (by decide)
  · have hfree := ht.free_length hnodup
    have hmoved := hgrown.free
    change t.pmm.freeCount + t.tableFrames = q.freeCount + s.tableFrames at hmoved
    change t.pmm.freeCount + idxs.length + t.tableFrames = _
    omega

theorem Grown.not_again (hlow : fdFirst < s.capacity)
    (hgrown : Grown s t) : ¬(firstFree (t.setEnt s.capacity e) = none ∧ t.capacity < t.limit) := by
  rintro ⟨hfull, hmore⟩
  have hcap := hgrown.capacity
  rw [hgrown.limit] at hmore
  unfold newCapacity at hcap
  unfold fdFirst at hlow
  have hnext : s.capacity + 1 < t.capacity := by
    split_ifs at hcap <;> omega
  have hvalid := firstFree_none hfull (s.capacity + 1) (by unfold fdFirst; omega) hnext
  rw [State.ent_setEnt, if_neg (by omega), hgrown.ent, if_neg (by omega)] at hvalid
  cases hvalid

end

theorem makePair_post {count : Nat} (hcount : 0 < count) (ends : Nat → Entry × Entry) (h : s.Ok) :
    Post (makePair count ends) s (fun fds t => ¬Moves s count ∧ Made ends s fds t ∨
        Moves s count ∧ (t.ent fds.1).kind = .none)
      (fun e t => e ≠ .hung ∧ Undone s t ∧ ¬Moves s count) := by
  refine .bind (allocFrames_post count h.agrees) ?_ ?_
  · rintro e t ⟨rfl, hnone, q, hsame, rfl⟩
    refine ⟨by decide, ⟨fun _ => Iff.rfl, congrArg (· + s.tableFrames) hsame.free⟩, ?_⟩
    rintro ⟨-, -, r, hr, -⟩
    exact absurd (hnone.symm.trans hr) nofun
  rintro frames t ⟨idxs, q, rfl, hlen, hnodup, ht, hsome, rfl⟩
  obtain ⟨idx, rest, rfl⟩ := exists_cons_of_length_pos (hlen ▸ hcount)
  have hidx := ht.fresh idx (by simp)
  -- what the growth of the table depends on is known before the call
  have hmoves : Moves s count ↔
      OneSlot s ∧ s.capacity < s.limit ∧ FramesToGrow { s with pmm := q } := by
    unfold Moves
    rw [hsome]
    simp
  refine .bind_assign ?_
  generalize hobject : (⟨((idx :: rest).map idxToAddr).tail, 1, 1⟩ : Object) = o
  have hok := h.withObject ht (idxToAddr idx) o
  have ho : (s.withObject q (idxToAddr idx) o).objects (idxToAddr idx) = some o ∧
      o.firstRefs = 1 ∧ o.secondRefs = 1 := by
    rw [← hobject]
    exact ⟨update_self _ _ _, rfl, rfl⟩
  refine .seq (.rescue (processFdAllocEntry_post hok)
    (E := fun e u => e ≠ .hung ∧ Undone s u ∧ ¬Moves s count) ?_) ?_
  · rintro e u ⟨hne, rfl, hfull, -⟩
    obtain ⟨r, hrun, hgives⟩ := freeFrames_run _ hok.agrees hnodup fun i hi => ht.held hi
    refine .bind_run hrun (.raise ⟨hne, ⟨fun _ => Iff.rfl, ?_⟩, ?_⟩)
    · exact congrArg (· + s.tableFrames) (ht.undo hgives).free
    · exact fun hmove => hmove.1.not_full hfull
  · rintro first u hslot
    refine .bind_get ?_
    cases hslot with
    | here hfind =>
      rename_i a
      have hzero : s.ent a = Entry.zero := h.cleared a (firstFree_some hfind).2.2
      refine .bind_run (store_run (s.withObject q (idxToAddr idx) o) a _) ?_
      change Post (finishPair _ _ _) ((s.withObject q (idxToAddr idx) o).setEnt a
        { s.ent a with valid := true }) _ _
      rw [hzero]
      have hmarked := marked_here h hnodup ht (idxToAddr idx) o hfind
      have hone := oneSlot_iff (s := s.withObject q (idxToAddr idx) o)
        (e := { Entry.zero with valid := true }) hfind rfl
      refine (finishPair_post ends hmarked hidx ho).mono ?_ ?_
      · rintro fds v (⟨hfree, hmade⟩ | ⟨⟨hfull, hroom, hframes⟩, hkind⟩)
        · exact .inl ⟨fun hmove => hfree (hone.mp hmove.1), hmade⟩
        · exact .inr ⟨hmoves.mpr ⟨hone.mpr hfull, hroom, hframes⟩, hkind⟩
      · rintro e v ⟨hne, hundone, hno⟩
        refine ⟨hne, hundone, fun hmove => hno ?_⟩
        obtain ⟨hslot, hroom, hframes⟩ := hmoves.mp hmove
        exact ⟨hone.mp hslot, hroom, hframes⟩
    | moved hfull hroom hframes hgrown =>
      have hnot : ¬Moves s count := fun hmove => hmove.1.not_full hfull
      have hzero : u.ent s.capacity = Entry.zero :=
        (hgrown.ent s.capacity).trans (if_neg (lt_irrefl _))
      refine .bind_run (store_run u s.capacity _) ?_
      change Post (finishPair _ _ _)
        (u.setEnt s.capacity { u.ent s.capacity with valid := true }) _ _
      rw [hzero]
      have hmarked := marked_moved h hnodup ht hroom hgrown
      have ho : u.objects (idxToAddr idx) = some o ∧ o.firstRefs = 1 ∧ o.secondRefs = 1 :=
        hgrown.objects ▸ ho
      refine (finishPair_post ends hmarked hidx ho).mono ?_ ?_
      · rintro fds v (⟨-, hmade⟩ | ⟨⟨hfull, hroom', -⟩, -⟩)
        · exact .inl ⟨hnot, hmade⟩
        · exact absurd ⟨hfull, hroom'⟩
            (Grown.not_again (s := s.withObject q (idxToAddr idx) o) h.low hgrown)
      · rintro e v ⟨hne, hundone, -⟩
        exact ⟨hne, hundone, hnot⟩

end

inductive Pair
  | pipe | pty

def Pair.frames : Pair → Nat
  | .pipe => 2
  | .pty => 3

def Pair.ends : Pair → BitVec 32 → Nat → Entry × Entry
  | .pipe => pipeEnds
  | .pty => ptyEnds

def Pair.make : Pair → BitVec 32 → M (Nat × Nat)
  | .pipe => processFdPipe
  | .pty => processFdPty

/-- Two descriptors of a new object and no other change, or an error and no change. -/
def AllOrNothing (pair : Pair) (flags : BitVec 32) (s : State) : Prop :=
  Post (pair.make flags) s (Made (pair.ends flags) s) fun e t => e ≠ .hung ∧ Undone s t

theorem Pair.make_eq (pair : Pair) (flags : BitVec 32) :
    pair.make flags = makePairFlags pair.frames pair.ends flags := by
  cases pair <;> rfl

theorem AllOrNothing.not_moves {pair : Pair} {flags : BitVec 32} {s : State} (h : s.Ok)
    (hflags : flags &&& ~~~(flagNonblock ||| flagCloexec) = 0)
    (hall : AllOrNothing pair flags s) : ¬Moves s pair.frames := by
  intro hmoves
  have hpos : 0 < pair.frames := by cases pair <;> decide
  unfold AllOrNothing at hall
  rw [pair.make_eq, makePairFlags, if_neg (not_not.mpr hflags)] at hall
  have hboth := hall.and (makePair_post hpos (pair.ends flags) h)
  unfold Post at hboth
  split at hboth
  · rename_i fds t hrun
    rcases hboth with ⟨hmade, ⟨hnot, -⟩ | ⟨-, hkind⟩⟩
    · exact hnot hmoves
    · obtain ⟨idx, -, -, hfirst, -⟩ := hmade.object
      rw [hfirst] at hkind
      cases pair <;> cases hkind
  · exact hboth.2.2.2 hmoves

/-- Making a pipe or a PTY is all or nothing, unless the only free slot is taken first and the
table then moves. -/
theorem pair_all_or_nothing (pair : Pair) (flags : BitVec 32) (s : State) (h : s.Ok) :
    AllOrNothing pair flags s ↔
      ¬(flags &&& ~~~(flagNonblock ||| flagCloexec) = 0 ∧ Moves s pair.frames) := by
  constructor
  · rintro hall ⟨hflags, hmoves⟩
    exact hall.not_moves h hflags hmoves
  · intro hnot
    have hpos : 0 < pair.frames := by cases pair <;> decide
    unfold AllOrNothing
    rw [pair.make_eq, makePairFlags]
    refine .guard ⟨by decide, fun _ => Iff.rfl, rfl⟩ fun hflags => ?_
    refine (makePair_post hpos _ h).mono ?_ fun e t he => ⟨he.1, he.2.1⟩
    rintro fds t (⟨-, hmade⟩ | ⟨hmoves, -⟩)
    · exact hmade
    · exact absurd ⟨not_not.mp hflags, hmoves⟩ hnot

def smallMemory : Mem.State where
  bitmap := Bytes.bitSet Bytes.zeros 0
  refcount := fun i => if i = 0 then 1 else 0
  managedFrames := 16
  maxPhys := pmmBase + 16 * pmmFrameSize
  freeCount := 15
  totalCount := 15
  nextFree := 1
  ready := true

def smallTable (used : Nat) : State where
  pmm := smallMemory
  tables := fun _ fd => if fd < used then { Entry.zero with valid := true, kind := .console }
    else Entry.zero
  objects := fun _ => none
  tableFrame := pmmBase
  tableFrames := 1
  capacity := 16
  limit := 128

theorem smallMemory_agrees : Agrees smallMemory :=
  ⟨by decide, by decide, rfl, by decide, by decide⟩

theorem smallTable_ok (used : Nat) (h : used ≤ 16) : (smallTable used).Ok := by
  have hplaced : pmmBase = idxToAddr (addrToIdx pmmBase) := by decide
  have hinside : addrToIdx pmmBase + 1 ≤ 16 := by decide
  have howned : ∀ i ∈ Finset.Ico (addrToIdx pmmBase) (addrToIdx pmmBase + 1),
      smallMemory.refcount i = 1 := by decide
  have hframes : 1 = frameCount 16 := by decide
  have hbounds : fdFirst < 16 ∧ 16 ≤ 128 ∧ 128 ≤ fdLimitHard := by decide
  refine ⟨smallMemory_agrees, hplaced, hinside, howned, hframes, hbounds.1, hbounds.2.1,
    hbounds.2.2, fun fd => ?_, fun fd hfd => ?_⟩
  · simp only [State.ent, smallTable]
    split_ifs
    · exact nofun
    · exact fun _ => rfl
  · have hfd : 16 ≤ fd := hfd
    exact if_neg (by omega)

theorem smallTable_moves : Moves (smallTable 15) 2 := by
  refine ⟨⟨15, by decide, by decide, by decide, fun i hlow hhigh hne => ?_⟩, by decide, ?_⟩
  · have hhigh : i < 16 := hhigh
    exact congrArg Entry.valid (if_pos (by omega))
  · exact ⟨_, rfl, by decide⟩

/-- With one slot left, `pipe` returns a descriptor that is no pipe. -/
theorem pipe_end_is_lost :
    ¬∀ (pair : Pair) (flags : BitVec 32) (s : State), s.Ok → AllOrNothing pair flags s :=
  fun hall => (hall .pipe 0 _ (smallTable_ok 15 (by decide))).not_moves
    (smallTable_ok 15 (by decide)) rfl smallTable_moves

theorem pair_all_or_nothing_two_slots :
    (smallTable 14).Ok ∧ AllOrNothing .pipe 0 (smallTable 14) := by
  have hok : (smallTable 14).Ok := smallTable_ok 14 (by decide)
  refine ⟨hok, (pair_all_or_nothing .pipe 0 _ hok).mpr ?_⟩
  rintro ⟨-, ⟨fd, -, -, -, hothers⟩, -⟩
  have hfirst := hothers 14 (by decide) (by decide)
  have hsecond := hothers 15 (by decide) (by decide)
  by_cases hfd : fd = 14
  · exact absurd (hsecond (by omega)) (by decide)
  · exact absurd (hfirst (by omega)) (by decide)

end SmallOS.Fd
