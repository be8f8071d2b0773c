import SmallOS.Ext2.Ownership

/-! Adding blocks to the tree of an inode. `Grow` is the guarantee of every
function that allocates: pointers that are set stay, and apart from pointer blocks
no block in use changes. -/

namespace SmallOS.Ext2
open Bytes Prog Ownership Function

variable {zero : Bool} {e : Fail} {nd' : Inode} {P b c first i k logical n : Nat} {d : Nat → Buf}
  {p : Ptr} {s : Slot} {v' : Vol}

def SameAttrs (nd nd' : Inode) : Prop :=
  nd' = { nd with block := nd'.block, blocks512 := nd'.blocks512 }

theorem SameAttrs.refl (nd : Inode) : SameAttrs nd nd := rfl

variable {nd nd1 : Inode}

theorem SameAttrs.trans {nd2 : Inode} (h : SameAttrs nd nd1) (k : SameAttrs nd1 nd2) :
    SameAttrs nd nd2 := by
  rw [h] at k
  exact k

/-- Pointers that are set stay; the contents of the data blocks are free to change. -/
structure Fill (ino : Nat) (v : Vol) (nd : Inode) (v' : Vol) (nd' : Inode) : Prop
    extends TreeStep ino v nd v' nd' where
  keep : ∀ s, tree v.disk nd s ≠ 0 → tree v'.disk nd' s = tree v.disk nd s
  used : ∀ c, usedBlock v c = true → usedBlock v' c = true
  sub : nd.Sub nd'
  attrs : SameAttrs nd nd'

structure Grow (ino : Nat) (v : Vol) (nd : Inode) (v' : Vol) (nd' : Inode) : Prop
    extends Fill ino v nd v' nd' where
  data : ∀ c, DataLive v c → (∀ p, ptr v.disk nd p ≠ c) → v'.disk c = v.disk c

theorem Inode.Sub.refl (nd : Inode) : nd.Sub nd := fun _ => .inr rfl

theorem Inode.Sub.trans {nd2 : Inode} (h : nd.Sub nd1) (k : nd1.Sub nd2) : nd.Sub nd2 := by
  intro i
  obtain h0 | h1 := h i
  · exact .inl h0
  · exact h1 ▸ k i

section Grow

variable {ino : Nat} {v v1 v2 : Vol} {nd nd1 nd2 : Inode}

theorem Fill.refl (hv : Ready v) (h : Held v ino nd) : Fill ino v nd v nd :=
  ⟨TreeStep.refl hv h, fun _ _ => rfl, fun _ hc => hc, Inode.Sub.refl nd, rfl⟩

theorem Fill.trans (h : Fill ino v nd v1 nd1) (k : Fill ino v1 nd1 v2 nd2) :
    Fill ino v nd v2 nd2 := by
  refine ⟨h.toTreeStep.trans k.toTreeStep, fun s hs => ?_, fun c hc => k.used c (h.used c hc),
    h.sub.trans k.sub, h.attrs.trans k.attrs⟩
  have hs1 := h.keep s hs
  exact (k.keep s (by rwa [hs1])).trans hs1

theorem Grow.refl (hv : Ready v) (h : Held v ino nd) : Grow ino v nd v nd :=
  ⟨Fill.refl hv h, fun _ _ _ => rfl⟩

theorem Grow.live (h : Grow ino v nd v1 nd1) (hc : DataLive v c) : DataLive v1 c :=
  ⟨hc.1, hc.2.1, h.used c hc.2.2⟩

theorem Fill.fresh (h : Fill ino v nd v1 nd1) (h0 : tree v.disk nd s = 0)
    (hs : tree v1.disk nd1 s ≠ 0) : usedBlock v (tree v1.disk nd1 s) = false := by
  obtain ⟨t, ht⟩ | hfree := h.origin s hs
  · have hne : tree v.disk nd t ≠ 0 := by rwa [ht]
    have heq : tree v1.disk nd1 s = tree v1.disk nd1 t := by rw [h.keep t hne, ht]
    rw [h.held.inj hs heq] at h0
    exact absurd h0 hne
  · exact hfree

theorem Grow.ptr_ne (h : Grow ino v nd v1 nd1) (hc : DataLive v c)
    (hp : ∀ p, ptr v.disk nd p ≠ c) (p : Ptr) : ptr v1.disk nd1 p ≠ c := by
  intro heq
  rw [← tree_slot] at heq
  have hne : tree v1.disk nd1 p.slot ≠ 0 := by have := hc.1; omega
  by_cases h0 : tree v.disk nd p.slot = 0
  · have hfree := h.fresh h0 hne
    rw [heq, hc.2.2] at hfree
    cases hfree
  · have := h.keep _ h0
    rw [heq, tree_slot] at this
    exact hp p this.symm

theorem Grow.trans (h : Grow ino v nd v1 nd1) (k : Grow ino v1 nd1 v2 nd2) :
    Grow ino v nd v2 nd2 := by
  refine ⟨h.toFill.trans k.toFill, fun c hc hp => ?_⟩
  exact (k.data c (h.live hc) (h.ptr_ne hc hp)).trans (h.data c hc hp)

theorem Grow.content (h : Grow ino v nd v1 nd1) (hheld : Held v ino nd)
    (hs : tree v.disk nd (dataSlot logical) ≠ 0) :
    v1.disk (tree v.disk nd (dataSlot logical)) = v.disk (tree v.disk nd (dataSlot logical)) := by
  refine h.data _ (hheld.live hs) fun p hp => ?_
  rw [← tree_slot] at hp
  exact dataSlot_ne_slot logical p (hheld.inj hs hp.symm)

/-- The records are kept, and of the blocks in `L` only pointer blocks of `nd` are written. -/
structure Writes (v : Vol) (nd : Inode) (L : Nat → Prop) (v' : Vol) : Prop where
  ready : Ready v'
  env : SameEnv v v'
  inodes : inodeBits v' = inodeBits v
  records : ∀ c, 4 ≤ c → c < 36 → v'.disk c = v.disk c
  data : ∀ c, L c → (∀ p, ptr v.disk nd p ≠ c) → v'.disk c = v.disk c

theorem Writes.put {L : Nat → Prop} (h : Writes v nd L v1) (hL : ∀ c, L c → 36 ≤ c)
    (hP : 36 ≤ ptr v.disk nd p) (buf : Buf) :
    Writes v nd L (setBlock v1 (ptr v.disk nd p) buf) := by
  have hP4 : 4 ≤ ptr v.disk nd p := by omega
  have heff := setBlock_effect h.ready hP4 buf
  refine ⟨heff.ready, h.env.trans heff.env, (setBlock_bits hP4 buf).inodes.trans h.inodes,
    fun c h4 h36 => ?_, fun c hc hp => ?_⟩
  · exact (heff.disk c h4 (by omega)).trans (h.records c h4 h36)
  · exact (heff.disk c (le_trans (by decide) (hL c hc)) (Ne.symm (hp p))).trans (h.data c hc hp)

theorem Grow.intro (h : Held v ino nd) (writes : Writes v nd (DataLive v) v1)
    (fits : nd1.Fits) (used : ∀ c, usedBlock v c = true → usedBlock v1 c = true)
    (keep : ∀ s, tree v.disk nd s ≠ 0 → tree v1.disk nd1 s = tree v.disk nd s)
    (fresh : ∀ s, tree v.disk nd s = 0 → tree v1.disk nd1 s ≠ 0 →
      DataLive v1 (tree v1.disk nd1 s) ∧ usedBlock v (tree v1.disk nd1 s) = false)
    (inj : ∀ s t, tree v.disk nd s = 0 → tree v.disk nd t = 0 → tree v1.disk nd1 s ≠ 0 →
      tree v1.disk nd1 s = tree v1.disk nd1 t → s = t)
    (sub : nd.Sub nd1) (attrs : SameAttrs nd nd1) : Grow ino v nd v1 nd1 := by
  have old : ∀ s, tree v.disk nd s ≠ 0 → usedBlock v (tree v1.disk nd1 s) = true := by
    intro s hs
    rw [keep s hs]
    exact (h.live hs).2.2
  obtain ⟨ready, env, inodes, records, data⟩ := writes
  refine ⟨⟨TreeStep.intro h ready env inodes records fits (fun b hb => used b (h.reserved b hb))
    ?_ ?_ ?_ ?_, keep, used, sub, attrs⟩, data⟩
  · intro c hc hno
    refine ⟨used c hc.2.2, data c hc fun p hp => ?_⟩
    rw [← tree_slot] at hp
    exact hno p.slot hp
  · intro s hs
    by_cases h0 : tree v.disk nd s = 0
    · exact (fresh s h0 hs).1
    · rw [keep s h0]
      have := h.live h0
      exact ⟨this.1, this.2.1, used _ this.2.2⟩
  · intro s hs
    by_cases h0 : tree v.disk nd s = 0
    · exact .inr (fresh s h0 hs).2
    · exact .inl ⟨s, (keep s h0).symm⟩
  · intro s t hs heq
    by_cases hs0 : tree v.disk nd s = 0 <;> by_cases ht0 : tree v.disk nd t = 0
    · exact inj s t hs0 ht0 hs heq
    · have := (fresh s hs0 hs).2
      rw [heq, old t ht0] at this
      cases this
    · have := (fresh t ht0 (heq ▸ hs)).2
      rw [← heq, old s hs0] at this
      cases this
    · rw [keep s hs0, keep t ht0] at heq
      exact h.inj hs0 heq

theorem Grow.of_tree (h : Held v ino nd) (writes : Writes v nd (DataLive v) v1)
    (used : ∀ c, usedBlock v c = true → usedBlock v1 c = true)
    (htree : tree v1.disk nd = tree v.disk nd) : Grow ino v nd v1 nd := by
  refine Grow.intro h writes h.fits used (fun s _ => by rw [htree]) ?_ ?_ (Inode.Sub.refl nd) rfl
  · intro s h0 hs
    rw [htree] at hs
    exact absurd h0 hs
  · intro s t h0 _ hs
    rw [htree] at hs
    exact absurd h0 hs

theorem Idle.grow (hi : Idle v v1) (h : Held v ino nd) : Grow ino v nd v1 nd := by
  have disk : ∀ c, 4 ≤ c → v1.disk c = v.disk c := fun c hc => hi.disk c hc id
  exact Grow.of_tree h ⟨hi.ready, hi.env, hi.inodes, fun c hc _ => disk c hc,
    fun c hc _ => disk c (le_trans (by decide) hc.1)⟩ (fun c hc => (hi.usedBlock c).trans hc)
    (tree_congr fun p hp => disk _ (le_trans (by decide) (h.ptr_ge hp)))

theorem Grow.insert (h : Held v ino nd) (writes : Writes v nd (DataLive v) v1)
    (fits : nd1.Fits) (used : ∀ c, usedBlock v c = true → usedBlock v1 c = true)
    (hb : DataLive v1 b) (hfree : usedBlock v b = false) (h0 : tree v.disk nd s = 0)
    (htree : tree v1.disk nd1 = update (tree v.disk nd) s b) (sub : nd.Sub nd1)
    (attrs : SameAttrs nd nd1) : Grow ino v nd v1 nd1 := by
  have here : ∀ t, tree v.disk nd t = 0 → tree v1.disk nd1 t ≠ 0 → t = s := by
    intro t ht hne
    by_contra hts
    rw [htree, update_of_ne hts] at hne
    exact hne ht
  refine Grow.intro h writes fits used ?_ ?_ ?_ sub attrs
  · intro t ht
    rw [htree, update_of_ne (by rintro rfl; exact ht h0)]
  · intro t ht hne
    obtain rfl := here t ht hne
    rw [htree, update_self]
    exact ⟨hb, hfree⟩
  · intro t r ht hr hne heq
    rw [here t ht hne, here r hr (heq ▸ hne)]

end Grow

theorem Inode.setBlock_same (nd : Inode) (k b : Nat) : (nd.setBlock k b).block k = b :=
  update_self ..

theorem Inode.setBlock_of_ne {j : Nat} (h : j ≠ k) : (nd.setBlock k b).block j = nd.block j :=
  update_of_ne h ..

@[simp] theorem tree_chargeBlocks (d : Nat → Buf) (nd : Inode) (n : Nat) :
    tree d (nd.chargeBlocks n) = tree d nd := by
  funext s
  cases s with
  | root k => rfl
  | entry p i => cases p <;> rfl

theorem entryAt_of_zeros (h : d b = zeros) (i : Nat) : entryAt d b i = 0 := by
  simp [entryAt, h]

theorem tree_setRoot (hk : k < 14)
    (hsame : 12 ≤ k → ∀ i, entryAt d b i = entryAt d (nd.block k) i) :
    tree d (nd.setBlock k b) = update (tree d nd) (.root k) b := by
  have hroot : ∀ j, 12 ≤ j → ∀ i, entryAt d ((nd.setBlock k b).block j) i =
      entryAt d (nd.block j) i := by
    intro j hj i
    by_cases h : j = k
    · subst h
      rw [Inode.setBlock_same]
      exact hsame hj i
    · rw [Inode.setBlock_of_ne h]
  funext s
  cases s with
  | entry p i =>
    rw [update_of_ne (by simp)]
    cases p with
    | single => exact hroot 12 (by decide) i
    | double => exact hroot 13 (by decide) i
    | outer o => simp only [tree, ptr, hroot 13 (by decide) o]
  | root j =>
    by_cases hj : j = k
    · subst hj
      simp only [tree, hk, if_true, Inode.setBlock_same, update_self]
    · rw [update_of_ne (by simpa using hj)]
      simp only [tree, Inode.setBlock_of_ne hj]

theorem tree_setLeaf (buf : Buf) (hp : p ≠ .double)
    (hone : ∀ q, ptr d nd q = ptr d nd p → q = p) (s : Slot) :
    tree (update d (ptr d nd p) buf) nd s =
      match s with
      | .root k => tree d nd (.root k)
      | .entry q i =>
        if q = p then entryAt (update d (ptr d nd p) buf) (ptr d nd p) i
        else tree d nd (.entry q i) := by
  have hdouble : ∀ o, entryAt (update d (ptr d nd p) buf) (nd.block 13) o =
      entryAt d (nd.block 13) o := by
    intro o
    refine entryAt_congr fun _ => update_of_ne (fun heq => ?_) ..
    exact hp (hone .double heq).symm
  have hptr : ∀ q, ptr (update d (ptr d nd p) buf) nd q = ptr d nd q := by
    intro q
    cases q with
    | single => rfl
    | double => rfl
    | outer o => exact hdouble o
  cases s with
  | root k => rfl
  | entry q i =>
    simp only [tree, hptr q]
    split_ifs with hq
    · rw [hq]
    · refine entryAt_congr fun _ => update_of_ne (fun heq => hq (hone q heq)) ..

theorem entryAt_writeU32 (hP : P ≠ 0) (hi : i < 1024) (hb : b < 4294967296) (j : Nat) :
    entryAt (update d P (writeU32 (d P) (4 * i) b)) P j = if j = i then b else entryAt d P j := by
  by_cases hj : 1024 ≤ j
  · have hji : j ≠ i := by omega
    simp only [entryAt, hj, or_true, if_true, hji, if_false]
  · have h : ¬(P = 0 ∨ 1024 ≤ j) := by omega
    simp only [entryAt, h, if_false, update_self]
    split_ifs with hji
    · rw [hji, readU32_writeU32, Nat.mod_eq_of_lt hb]
    · exact readU32_writeU32_of_disjoint (by omega)

theorem tree_setEntry (hP : ptr d nd p ≠ 0) (hi : i < 1024) (hb : b < 4294967296)
    (hone : ∀ q, ptr d nd q = ptr d nd p → q = p) (hsame : p = .double → b ≠ ptr d nd p ∧
      ∀ j, entryAt d b j = entryAt d (tree d nd (.entry p i)) j) :
    tree (update d (ptr d nd p) (writeU32 (d (ptr d nd p)) (4 * i) b)) nd =
      update (tree d nd) (.entry p i) b := by
  have hw := entryAt_writeU32 (d := d) hP hi hb
  funext s
  by_cases hdouble : p = .double
  · subst hdouble
    obtain ⟨hne, hentries⟩ := hsame rfl
    cases s with
    | root k => rw [update_of_ne (by simp)]; rfl
    | entry q j =>
      cases q with
      | single =>
        rw [update_of_ne (by simp)]
        refine entryAt_congr fun _ => update_of_ne (fun heq => ?_) ..
        cases hone .single heq
      | double =>
        refine (hw j).trans ?_
        split_ifs with hj
        · rw [hj, update_self]
        · rw [update_of_ne (by simpa using hj)]
          rfl
      | outer o =>
        rw [update_of_ne (by simp)]
        simp only [tree, ptr] at hw hentries ⊢
        rw [hw o]
        split_ifs with ho
        · rw [ho, ← hentries j]
          exact entryAt_congr fun _ => update_of_ne hne ..
        · refine entryAt_congr fun _ => update_of_ne (fun heq => ?_) ..
          cases hone (.outer o) heq
  · rw [tree_setLeaf _ hdouble hone]
    cases s with
    | root k => rw [update_of_ne (by simp)]
    | entry q j =>
      by_cases hq : q = p
      · subst hq
        simp only [if_true, hw j]
        split_ifs with hj
        · rw [hj, update_self]
        · rw [update_of_ne (by simpa using hj)]
          rfl
      · simp only [hq, if_false]
        rw [update_of_ne (by simp [hq])]

section Alloc

variable {ino : Nat} {v v1 : Vol} {nd : Inode}

theorem Inode.Fits.setBlock (h : nd.Fits) (hk : k < 15)
    (hb : b < 4294967296) : (nd.setBlock k b).Fits := by
  refine { h with block := fun j => ?_, blockEnd := fun j hj => ?_ }
  · by_cases hj : j = k
    · rw [hj, Inode.setBlock_same]; exact hb
    · rw [Inode.setBlock_of_ne hj]; exact h.block j
  · rw [Inode.setBlock_of_ne (by omega)]
    exact h.blockEnd j hj

theorem Inode.Fits.chargeBlocks (h : nd.Fits) (n : Nat) : (nd.chargeBlocks n).Fits :=
  { h with blocks512 := Nat.mod_lt _ (by decide) }

section

variable (ha : Allocated v v1 first n)
include ha

theorem Allocated.apart (hc : usedBlock v c = true) : ¬(first ≤ c ∧ c < first + n) := by
  intro hin
  have := ha.free c hin.1 hin.2
  rw [hc] at this
  cases this

theorem Allocated.data (hc : DataLive v c) : v1.disk c = v.disk c :=
  ha.disk c (by have := hc.1; omega) (ha.apart hc.2.2)

theorem Allocated.tree_eq (h : Held v ino nd) : tree v1.disk nd = tree v.disk nd := by
  refine tree_congr fun p hp => ?_
  rw [← tree_slot] at hp ⊢
  exact ha.data (h.live hp)

theorem Allocated.mono (hc : usedBlock v c = true) : usedBlock v1 c = true := by
  rw [ha.used, hc, Bool.or_true]

theorem Allocated.live (hi : i < n) : DataLive v1 (first + i) := by
  have hlow := ha.low
  have hhigh := ha.high
  refine ⟨by omega, by omega, ?_⟩
  have hin : first ≤ first + i ∧ first + i < first + n := by omega
  rw [ha.used]
  simp only [hin, and_self, decide_true, Bool.true_or]

theorem Allocated.writes (nd : Inode) : Writes v nd (DataLive v) v1 :=
  ⟨ha.ready, ha.env, ha.inodes, fun c h4 _ => ha.disk c h4 (by have := ha.low; omega),
    fun _ hc _ => ha.data hc⟩

end

theorem insertRoot_grow (h : Held v ino nd) (hk : k < 14) (h0 : nd.block k = 0)
    (ha : Allocated v v1 b 1) (hz : 12 ≤ k → v1.disk b = zeros) :
    Grow ino v nd v1 ((nd.setBlock k b).chargeBlocks 1) ∧
      tree v1.disk ((nd.setBlock k b).chargeBlocks 1) = update (tree v.disk nd) (.root k) b := by
  have htree : tree v1.disk ((nd.setBlock k b).chargeBlocks 1) =
      update (tree v.disk nd) (.root k) b := by
    rw [tree_chargeBlocks, tree_setRoot hk, ha.tree_eq h]
    intro h12 i
    rw [h0, entryAt_zero, entryAt_of_zeros (hz h12)]
  have hhigh := ha.high
  refine ⟨Grow.insert h (ha.writes nd) ((h.fits.setBlock (by omega) (by omega)).chargeBlocks 1)
    (fun _ => ha.mono) (ha.live (i := 0) (by omega)) (ha.free b (by omega) (by omega))
    ?_ htree ?_ rfl, htree⟩
  · simp only [tree, hk, if_true, h0]
  · intro j
    by_cases hj : j = k
    · exact .inl (hj ▸ h0)
    · exact .inr (Inode.setBlock_of_ne hj).symm

def putEntry (v : Vol) (P i b : Nat) : Vol := setBlock v P (writeU32 (v.disk P) (4 * i) b)

theorem setPtrBlockEntry_run (hv : Ready v) (h0 : P ≠ 0) (hP : P < 8192)
    (hi : i < 1024) (b : Nat) : setPtrBlockEntry P i b v = .ok () (putEntry v P i b) := by
  have hread := query_run (e := Fail.device) (f := (readBlock · P)) (readBlock_of_ready hv hP)
  unfold setPtrBlockEntry
  rw [if_neg (by omega)]
  simp only [run_bind, hread, writeBlock_run hv hP, putEntry]

theorem ptrBlockEntry_eq (hv : Ready v) (hP : P < 8192) (i : Nat) :
    ptrBlockEntry v P i = entryAt v.disk P i := by
  simp only [ptrBlockEntry, entryAt, readBlock_of_ready hv hP]

theorem Held.tree_putEntry (h : Held v ino nd) (hsame : tree v1.disk nd = tree v.disk nd)
    (hP : ptr v.disk nd p ≠ 0) (hi : i < 1024) (hb : b < 4294967296)
    (hz : p = .double → b ≠ ptr v.disk nd p ∧
      ∀ j, entryAt v1.disk b j = entryAt v1.disk (tree v.disk nd (.entry p i)) j) :
    tree (putEntry v1 (ptr v.disk nd p) i b).disk nd = update (tree v.disk nd) (.entry p i) b := by
  have hptr : ∀ q, ptr v1.disk nd q = ptr v.disk nd q := by
    intro q
    rw [← tree_slot, ← tree_slot, hsame]
  have hset := tree_setEntry (show ptr v1.disk nd p ≠ 0 by rwa [hptr]) hi hb
    (fun q hq => (h.ptr_inj hP (by rw [← hptr, ← hptr, hq])).symm) (by rwa [hptr, hsame])
  rwa [hptr, hsame] at hset

theorem insertEntry_grow (h : Held v ino nd) (hP : ptr v.disk nd p ≠ 0)
    (hi : i < 1024) (h0 : tree v.disk nd (.entry p i) = 0) (ha : Allocated v v1 b 1)
    (hz : p = .double → v1.disk b = zeros) :
    Grow ino v nd (putEntry v1 (ptr v.disk nd p) i b) (nd.chargeBlocks 1) ∧
      tree (putEntry v1 (ptr v.disk nd p) i b).disk (nd.chargeBlocks 1) =
        update (tree v.disk nd) (.entry p i) b := by
  have hhigh := ha.high
  have hP36 := h.ptr_ge hP
  have hapart := ha.apart (h.ptr_live hP).2.2
  have htree : tree (putEntry v1 (ptr v.disk nd p) i b).disk (nd.chargeBlocks 1) =
      update (tree v.disk nd) (.entry p i) b := by
    rw [tree_chargeBlocks]
    refine h.tree_putEntry (ha.tree_eq h) hP hi (by omega) fun hp => ⟨by omega, fun j => ?_⟩
    rw [h0, entryAt_zero, entryAt_of_zeros (hz hp)]
  have hbits := setBlock_bits (v := v1) (show 4 ≤ ptr v.disk nd p by omega)
    (writeU32 (v1.disk (ptr v.disk nd p)) (4 * i) b)
  have hlive := ha.live (i := 0) (by omega)
  exact ⟨Grow.insert h ((ha.writes nd).put (fun _ hc => hc.1) hP36 _) (h.fits.chargeBlocks 1)
    (fun c hc => (hbits.usedBlock c).trans (ha.mono hc))
    ⟨hlive.1, hlive.2.1, (hbits.usedBlock _).trans hlive.2.2⟩ (ha.free b (by omega) (by omega)) h0
    htree (Inode.Sub.refl nd) rfl, htree⟩

def Full (v : Vol) : Prop := ∀ c, 36 ≤ c → c < 8192 → usedBlock v c = true

structure Placed (ino : Nat) (v : Vol) (nd : Inode) (v' : Vol) (nd' : Inode) (s : Slot) (b : Nat)
    (zero : Bool) : Prop extends Grow ino v nd v' nd' where
  here : tree v'.disk nd' s = b
  nonzero : b ≠ 0
  elsewhere : ∀ t, t ≠ s → tree v'.disk nd' t = tree v.disk nd t
  clean : zero = true → tree v.disk nd s = 0 → v'.disk b = zeros

theorem Placed.of_present (hv : Ready v) (h : Held v ino nd) (zero : Bool)
    (hs : tree v.disk nd s ≠ 0) : Placed ino v nd v nd s (tree v.disk nd s) zero :=
  ⟨Grow.refl hv h, rfl, hs, fun _ _ => rfl, fun _ h0 => absurd h0 hs⟩

theorem Placed.of_update
    (hg : Grow ino v nd v' nd') (ht : tree v'.disk nd' = update (tree v.disk nd) s b)
    (hb : b ≠ 0) (hz : zero = true → v'.disk b = zeros) : Placed ino v nd v' nd' s b zero :=
  ⟨hg, by rw [ht, update_self], hb, fun t hne => by rw [ht, update_of_ne hne],
    fun hzero _ => hz hzero⟩

def maxLogical : Nat := 12 + 1024 + 1024 * 1024

structure Mapped (ino : Nat) (v : Vol) (nd : Inode) (v' : Vol) (nd' : Inode) (logical b : Nat)
    (zero : Bool) : Prop extends Grow ino v nd v' nd' where
  here : tree v'.disk nd' (dataSlot logical) = b
  nonzero : b ≠ 0
  elsewhere : ∀ m, m ≠ logical → tree v'.disk nd' (dataSlot m) = tree v.disk nd (dataSlot m)
  clean : zero = true → tree v.disk nd (dataSlot logical) = 0 → v'.disk b = zeros
  pointers : ∀ p : Ptr, ¬p.Leads logical → ptr v'.disk nd' p = ptr v.disk nd p

theorem Mapped.lt (h : Mapped ino v nd v' nd' logical b zero) : b < 8192 :=
  h.here ▸ h.held.lt (dataSlot logical)

theorem Mapped.low (h : Mapped ino v nd v' nd' logical b zero) : 36 ≤ b :=
  h.here ▸ (h.held.live (h.here.trans_ne h.nonzero)).1

theorem Mapped.run (h : Mapped ino v nd v' nd' logical b zero) :
    ∀ i, i < 1 → tree v'.disk nd' (dataSlot (logical + i)) = b + i := by
  intro i hi
  obtain rfl : i = 0 := by omega
  exact h.here

theorem Held.run_bounds {m : Nat} (h : Held v ino nd) (h0 : b ≠ 0) (hm : 0 < m)
    (hrun : ∀ i, i < m → tree v.disk nd (dataSlot (logical + i)) = b + i) :
    36 ≤ b ∧ b + m ≤ 8192 := by
  have hfirst : tree v.disk nd (dataSlot logical) = b := hrun 0 hm
  have hlow := (h.live (s := dataSlot logical) (hfirst.trans_ne h0)).1
  have hlast := hrun (m - 1) (by omega)
  have hhigh := h.lt (dataSlot (logical + (m - 1)))
  omega

theorem Placed.ptr_eq (h : Placed ino v nd v' nd' s b zero) (hp : p.slot ≠ s) :
    ptr v'.disk nd' p = ptr v.disk nd p := by
  rw [← tree_slot, ← tree_slot]
  exact h.elsewhere _ hp

theorem Placed.mapped (h : Placed ino v nd v' nd' (dataSlot logical) b zero) :
    Mapped ino v nd v' nd' logical b zero :=
  ⟨h.toGrow, h.here, h.nonzero, fun _ hm => h.elsewhere _ fun heq => hm (dataSlot_inj heq), h.clean,
    fun p _ => h.ptr_eq (dataSlot_ne_slot logical p).symm⟩

theorem Placed.then_mapped (h : Placed ino v nd v1 nd1 p.slot P true) (hp : p.Leads logical)
    (k : Mapped ino v1 nd1 v' nd' logical b zero) : Mapped ino v nd v' nd' logical b zero := by
  have same : ∀ m, tree v1.disk nd1 (dataSlot m) = tree v.disk nd (dataSlot m) :=
    fun m => h.elsewhere _ (dataSlot_ne_slot m p)
  exact ⟨h.toGrow.trans k.toGrow, k.here, k.nonzero,
    fun m hm => (k.elsewhere m hm).trans (same m), fun hz h0 => k.clean hz ((same _).trans h0),
    fun q hq => (k.pointers q hq).trans (h.ptr_eq fun heq => hq (Ptr.slot_inj heq ▸ hp))⟩

theorem getDirectBlock_post (hv : Ready v) (nd : Inode) (hl : logical < 12) (zero : Bool) :
    Post (inodeGetDataBlockEx nd logical zero) v
      (fun r v' => nd.block logical = 0 → r.1.block = update nd.block logical r.2 ∧
        Allocated v v' r.2 1) (fun e v' => e = .noBlock ∧ Idle v v' ∧ Full v) := by
  unfold inodeGetDataBlockEx
  rw [if_pos hl]
  refine .branch (fun _ => .seq (allocBlockWithZero_post hv zero) ?_)
    fun hne => .ret fun h0 => absurd h0 hne
  rintro b v' ⟨ha, _⟩
  exact .ret fun _ => ⟨rfl, ha⟩

theorem inodeFindDataBlock_eq (hv : Ready v) (hlt : ∀ s, tree v.disk nd s < 8192)
    (hl : logical < maxLogical) :
    inodeFindDataBlock v nd logical = some (tree v.disk nd (dataSlot logical)) := by
  unfold maxLogical at hl
  have hptr : ∀ p, ptr v.disk nd p < 8192 := fun p => tree_slot v.disk nd p ▸ hlt p.slot
  have h12 := ptrBlockEntry_eq hv (hptr .single)
  have h13 := ptrBlockEntry_eq hv (hptr .double)
  have hout := fun o => ptrBlockEntry_eq hv (hptr (.outer o))
  simp only [ptr] at h12 h13 hout
  have hbig : ¬1024 ≤ (logical - 12 - 1024) / 1024 := by omega
  simp only [inodeFindDataBlock, dataSlot, h12, h13, hbig, if_false]
  split_ifs with h1 h2 h3 h4 h5 <;> simp only [tree, ptr, Option.some.injEq]
  · rw [if_pos (by omega)]
  · rw [h3, entryAt_zero]
  · rw [h4, entryAt_zero, entryAt_zero]
  · rw [h5, entryAt_zero]
  · exact hout _ _

end Alloc

end SmallOS.Ext2
