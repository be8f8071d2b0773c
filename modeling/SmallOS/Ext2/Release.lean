import SmallOS.Ext2.Growth

/-! Taking blocks out of the tree of an inode. `Shrink` is the guarantee of every function that
frees: places are emptied, the blocks that leave the tree are released, and only pointer blocks of
the inode are written. -/

namespace SmallOS.Ext2
open Bytes Prog Ownership Function

variable {acc : Inode × Buf × Bool} {i k n : Nat} {p : Ptr} {s : Slot} {S T : Slot → Prop} {w : Vol}

structure Shrink (ino : Nat) (v : Vol) (nd : Inode) (v' : Vol) (nd' : Inode) : Prop
    extends TreeStep ino v nd v' nd' where
  sub : ∀ s, tree v'.disk nd' s = 0 ∨ tree v'.disk nd' s = tree v.disk nd s
  used : ∀ c, usedBlock v' c = true → usedBlock v c = true
  data : ∀ c, 36 ≤ c → (∀ p, ptr v.disk nd p ≠ c) → v'.disk c = v.disk c

section

variable {ino : Nat} {v v1 v2 : Vol} {nd nd1 nd2 : Inode}

theorem Shrink.refl (hv : Ready v) (h : Held v ino nd) : Shrink ino v nd v nd :=
  ⟨TreeStep.refl hv h, fun _ => .inr rfl, fun _ hc => hc, fun _ _ _ => rfl⟩

theorem Shrink.trans (h : Shrink ino v nd v1 nd1) (k : Shrink ino v1 nd1 v2 nd2) :
    Shrink ino v nd v2 nd2 := by
  refine ⟨h.toTreeStep.trans k.toTreeStep, fun s => ?_, fun c hc => h.used c (k.used c hc), ?_⟩
  · obtain h0 | h1 := k.sub s
    · exact .inl h0
    · rw [h1]
      exact h.sub s
  · intro c hc hp
    refine (k.data c hc fun p heq => ?_).trans (h.data c hc hp)
    rw [← tree_slot] at heq
    obtain h0 | h1 := h.sub p.slot
    · omega
    · rw [h1, tree_slot] at heq
      exact hp p heq

section

variable (h : Held v ino nd) (writes : Writes v nd (36 ≤ ·) v1) (fits : nd1.Fits)
include h writes fits

theorem Shrink.intro (sub : ∀ s, tree v1.disk nd1 s = 0 ∨ tree v1.disk nd1 s = tree v.disk nd s)
    (used : ∀ c, usedBlock v1 c = true → usedBlock v c = true)
    (kept : ∀ c, usedBlock v c = true → (∀ s, tree v.disk nd s = c → tree v1.disk nd1 s = c) →
      usedBlock v1 c = true) : Shrink ino v nd v1 nd1 := by
  obtain ⟨ready, env, inodes, records, data⟩ := writes
  refine ⟨TreeStep.intro h ready env inodes records fits ?_ ?_ ?_ ?_ ?_, sub, used, data⟩
  · intro b hb
    refine kept b (h.reserved b hb) fun s hs => ?_
    by_cases h0 : tree v.disk nd s = 0
    · obtain h1 | h1 := sub s
      · rw [h1, ← hs, h0]
      · rw [h1, hs]
    · have := (h.live h0).1
      omega
  · intro c hc hno
    refine ⟨kept c hc.2.2 fun s hs => absurd hs (hno s), data c hc.1 fun p hp => ?_⟩
    rw [← tree_slot] at hp
    exact hno p.slot hp
  · intro s hs
    have heq := (sub s).resolve_left hs
    rw [heq] at hs
    have hlive := h.live hs
    rw [heq]
    refine ⟨hlive.1, hlive.2.1, kept _ hlive.2.2 fun t ht => ?_⟩
    rw [h.inj hs ht.symm] at heq
    rw [heq, ht]
  · intro s hs
    exact .inl ⟨s, ((sub s).resolve_left hs).symm⟩
  · intro s t hs heq
    have h₁ := (sub s).resolve_left hs
    have h2 := (sub t).resolve_left (heq ▸ hs)
    rw [h₁] at hs
    exact h.inj hs (by rw [← h₁, heq, h2])

theorem Shrink.remove
    (used : ∀ c, usedBlock v1 c = true ↔ usedBlock v c = true ∧ ¬c = tree v.disk nd s)
    (hs : tree v.disk nd s ≠ 0) (htree : tree v1.disk nd1 = update (tree v.disk nd) s 0) :
    Shrink ino v nd v1 nd1 := by
  refine Shrink.intro h writes fits (fun t => ?_) (fun c hc => ((used c).mp hc).1)
    (fun c hc hkept => (used c).mpr ⟨hc, fun heq => ?_⟩)
  · by_cases ht : t = s
    · exact .inl (by rw [htree, ht, update_self])
    · exact .inr (by rw [htree, update_of_ne ht])
  · have := hkept s heq.symm
    rw [htree, update_self] at this
    exact hs (by rw [← heq, this])

end

theorem Freed.writes {S : Nat → Prop} (hf : Freed v v1 S) (nd : Inode) : Writes v nd (36 ≤ ·) v1 :=
  ⟨hf.ready, hf.env, hf.inodes, fun c hc _ => hf.disk c hc id,
    fun c hc _ => hf.disk c (le_trans (by decide) hc) id⟩

theorem Freed.freeLoop {body : Nat → Unit → M Unit} {S : Nat → Nat → Prop} (hv : Ready v)
    (step : ∀ i w, i < n → Effect v w (fun _ => False) →
      Post (body i ()) w (fun _ w' => Freed w w' (S i)) (fun _ _ => False)) :
    Post (steps body n 0 ()) v (fun _ v' => Freed v v' fun c => ∃ i, i < n ∧ S i c)
      (fun _ _ => False) := by
  refine (.loop (fun i _ w => Freed v w fun c => ∃ j, j < i ∧ S j c) n ?_ n 0 () v
    (Nat.zero_add n) ?_)
  · intro i _ w hi hw
    refine (step i w hi hw.toEffect).weaken (fun _ w' hw' => ?_)
    refine (hw.trans hw').congr fun c => ?_
    constructor
    · rintro (⟨j, hj, hS⟩ | hS)
      · exact ⟨j, by omega, hS⟩
      · exact ⟨i, by omega, hS⟩
    · rintro ⟨j, hj, hS⟩
      by_cases hji : j = i
      · exact .inr (hji ▸ hS)
      · exact .inl ⟨j, by omega, hS⟩
  · exact (Freed.refl hv).congr fun c => by simp

theorem freeEach_post {f : Nat → Nat} (hv : Ready v) (hf : ∀ i, i < n → f i < 8192) :
    Post (steps (fun i (_ : Unit) => if f i = 0 then pure () else freeBlock (f i)) n 0 ()) v
      (fun _ v' => Freed v v' fun c => c ≠ 0 ∧ ∃ i, i < n ∧ f i = c) (fun _ _ => False) := by
  refine (Freed.freeLoop (S := fun i c => c ≠ 0 ∧ f i = c) hv ?_).weaken (fun _ v' hv' =>
    hv'.congr fun c => by tauto)
  intro i w hi hw
  refine .branch (fun h0 => .ret ?_) (fun h0 => ?_)
  · exact (Freed.refl hw.ready).congr fun c => ⟨False.elim, fun hc => hc.1 (hc.2.symm.trans h0)⟩
  · refine (freeBlock_post hw.ready h0 (hf i hi)).weaken (fun _ w' hw' => ?_)
    exact hw'.congr fun c => by omega

theorem freeDirect_post (hv : Ready v) (h : Held v ino nd) :
    Post (freeDirect nd) v (fun _ v' => Freed v v' fun c => c ≠ 0 ∧ ∃ i, i < 12 ∧ nd.block i = c)
      (fun _ _ => False) := by
  refine freeEach_post hv fun i hi => ?_
  exact tree_root v.disk nd (show i < 14 by omega) ▸ h.lt (.root i)

theorem entry_of_ptr (hp : ptr v.disk nd p ≠ 0) (hi : i < 1024) :
    tree v.disk nd (.entry p i) = readU32 (v.disk (ptr v.disk nd p)) (4 * i) := by
  have hcond : ¬(ptr v.disk nd p = 0 ∨ 1024 ≤ i) := by omega
  simp only [tree, entryAt, hcond, if_false]

section

variable (h : Held v ino nd) (hw : Effect v w (fun _ => False))
include h hw

theorem freePtrBlock_post (hp : ptr v.disk nd p ≠ 0) : Post (do
        let buf ← query (readBlock · (ptr v.disk nd p)) Fail.device
        freeEntries buf
        freeBlock (ptr v.disk nd p)) w
      (fun _ w' => Freed w w' fun c => c ≠ 0 ∧
        (tree v.disk nd p.slot = c ∨ ∃ i, tree v.disk nd (.entry p i) = c))
      (fun _ _ => False) := by
  have hlt := h.ptr_lt p
  have hdisk := hw.disk _ (le_trans (by decide) (h.ptr_ge hp)) id
  refine .bind_run (query_run (readBlock_of_ready hw.ready hlt)) ?_
  rw [hdisk]
  refine .seq (freeEach_post hw.ready fun i hi => ?_) ?_
  · rw [← entry_of_ptr hp hi]
    exact h.lt _
  · intro _ w' hw'
    refine (freeBlock_post hw'.ready hp hlt).weaken (fun _ w'' hw'' => ?_)
    refine (hw'.trans hw'').congr fun c => ?_
    rw [tree_slot]
    constructor
    · rintro (⟨hc, i, hi, heq⟩ | rfl)
      · exact ⟨hc, .inr ⟨i, (entry_of_ptr hp hi).trans heq⟩⟩
      · exact ⟨hp, .inl rfl⟩
    · rintro ⟨hc, heq | ⟨i, heq⟩⟩
      · exact .inr heq.symm
      · refine .inl ⟨hc, i, ?_⟩
        by_cases hi : i < 1024
        · exact ⟨hi, (entry_of_ptr hp hi).symm.trans heq⟩
        · have hcond : ptr v.disk nd p = 0 ∨ 1024 ≤ i := by omega
          simp only [tree, entryAt, hcond, if_true] at heq
          exact absurd heq.symm hc

theorem freeIndirect_post : Post (freeIndirect nd) w (fun _ w' => Freed w w' fun c => c ≠ 0 ∧
        (tree v.disk nd (.root 12) = c ∨ ∃ i, tree v.disk nd (.entry .single i) = c))
      (fun _ _ => False) := by
  refine .branch (fun h0 => .ret ?_) (fun h0 => freePtrBlock_post (p := .single) h hw h0)
  refine (Freed.refl hw.ready).congr fun c => ⟨False.elim, ?_⟩
  rintro ⟨hc, heq | ⟨i, heq⟩⟩
  · exact hc (heq.symm.trans h0)
  · exact hc (heq.symm.trans (tree_entry_zero h0 _))

theorem freeDoubleIndirect_post : Post (freeDoubleIndirect nd) w
      (fun _ w' => Freed w w' fun c => c ≠ 0 ∧
        (tree v.disk nd (.root 13) = c ∨ (∃ o, tree v.disk nd (.entry .double o) = c) ∨
          ∃ o i, tree v.disk nd (.entry (.outer o) i) = c)) (fun _ _ => False) := by
  refine .branch (fun h0 => .ret ?_) (fun h0 => ?_)
  · refine (Freed.refl hw.ready).congr fun c => ⟨False.elim, ?_⟩
    rintro ⟨hc, heq | ⟨o, heq⟩ | ⟨o, i, heq⟩⟩
    · exact hc (heq.symm.trans h0)
    · exact hc (heq.symm.trans (tree_entry_zero h0 _))
    · exact hc (heq.symm.trans (tree_entry_zero h0 _))
  · have hlt : nd.block 13 < 8192 := h.ptr_lt .double
    have hdisk : w.disk (nd.block 13) = v.disk (nd.block 13) :=
      hw.disk _ (le_trans (by decide) (h.ptr_ge (p := .double) h0)) id
    refine .bind_run (query_run (readBlock_of_ready hw.ready hlt)) ?_
    rw [hdisk]
    have hentry : ∀ o, o < 1024 →
        readU32 (v.disk (nd.block 13)) (4 * o) = ptr v.disk nd (.outer o) :=
      fun o ho => (entry_of_ptr (p := .double) h0 ho).symm
    refine .seq (Freed.freeLoop (S := fun o c => c ≠ 0 ∧
      (tree v.disk nd (.entry .double o) = c ∨ ∃ i, tree v.disk nd (.entry (.outer o) i) = c))
      hw.ready ?_) ?_
    · intro o u ho hu
      rw [hentry o ho]
      refine .branch (fun hzero => .ret ?_) (fun hne => ?_)
      · refine (Freed.refl hu.ready).congr fun c => ⟨False.elim, ?_⟩
        rintro ⟨hc, heq | ⟨i, heq⟩⟩
        · exact hc (heq.symm.trans hzero)
        · simp only [tree, hzero, entryAt_zero] at heq
          exact hc heq.symm
      · exact freePtrBlock_post h (hw.trans hu) hne
    · intro _ u hu
      refine (freeBlock_post hu.ready h0 hlt).weaken (fun _ u' hu' => ?_)
      refine (hu.trans hu').congr fun c => ?_
      constructor
      · rintro (⟨o, ho, hc, heq | ⟨i, heq⟩⟩ | rfl)
        · exact ⟨hc, .inr (.inl ⟨o, heq⟩)⟩
        · exact ⟨hc, .inr (.inr ⟨o, i, heq⟩)⟩
        · exact ⟨h0, .inl rfl⟩
      · have hbound : ∀ o, tree v.disk nd (.entry .double o) ≠ 0 → o < 1024 := by
          intro o hne
          by_contra ho
          have hcond : ptr v.disk nd .double = 0 ∨ 1024 ≤ o := by omega
          simp only [tree, entryAt, hcond, if_true, ne_eq, not_true_eq_false] at hne
        rintro ⟨hc, heq | ⟨o, heq⟩ | ⟨o, i, heq⟩⟩
        · exact .inr heq.symm
        · exact .inl ⟨o, hbound o (heq ▸ hc), hc, .inl heq⟩
        · refine .inl ⟨o, hbound o fun h1 => ?_, hc, .inr ⟨i, heq⟩⟩
          have hptr : ptr v.disk nd (.outer o) = 0 := h1
          simp only [tree, hptr, entryAt_zero] at heq
          exact hc heq.symm

end

theorem freeInodeBlocks_post (hv : Ready v) (h : Held v ino nd) : Post (freeInodeBlocks nd) v
      (fun nd' v' => Shrink ino v nd v' nd' ∧ (∀ s, tree v'.disk nd' s = 0) ∧
        (∀ c, 4 ≤ c → v'.disk c = v.disk c) ∧
        (∀ c, usedBlock v' c = true ↔ usedBlock v c = true ∧ ¬(c ≠ 0 ∧ ∃ s, tree v.disk nd s = c)) ∧
        nd' = { nd with block := fun _ => 0, size := 0, blocks512 := 0 })
      (fun _ _ => False) := by
  refine .seq (freeDirect_post hv h) fun _ v1 h1 => ?_
  refine .seq (freeIndirect_post h h1.toEffect) fun _ v2 h2 => ?_
  refine .seq (freeDoubleIndirect_post h (h1.toEffect.trans h2.toEffect))
    fun _ v3 h3 => ?_
  have hfreed : Freed v v3 fun c => c ≠ 0 ∧ ∃ s, tree v.disk nd s = c := by
    refine ((h1.trans h2).trans h3).congr fun c => ⟨?_, ?_⟩
    · rintro ((⟨hc, i, hi, heq⟩ | ⟨hc, heq | ⟨i, heq⟩⟩) | ⟨hc, heq | ⟨o, heq⟩ | ⟨o, i, heq⟩⟩)
      · refine ⟨hc, .root i, ?_⟩
        simp only [tree]
        rw [if_pos (by omega), heq]
      · exact ⟨hc, _, heq⟩
      · exact ⟨hc, _, heq⟩
      · exact ⟨hc, _, heq⟩
      · exact ⟨hc, _, heq⟩
      · exact ⟨hc, _, heq⟩
    · rintro ⟨hc, s, heq⟩
      cases s with
      | root k =>
        by_cases h12 : k < 12
        · refine .inl (.inl ⟨hc, k, h12, ?_⟩)
          simp only [tree] at heq
          rwa [if_pos (by omega)] at heq
        · by_cases h14 : k < 14
          · obtain rfl | rfl : k = 12 ∨ k = 13 := by omega
            · exact .inl (.inr ⟨hc, .inl heq⟩)
            · exact .inr ⟨hc, .inl heq⟩
          · simp only [tree, h14, if_false] at heq
            exact absurd heq.symm hc
      | entry p i =>
        cases p with
        | single => exact .inl (.inr ⟨hc, .inr ⟨i, heq⟩⟩)
        | double => exact .inr ⟨hc, .inr (.inl ⟨i, heq⟩)⟩
        | outer o => exact .inr ⟨hc, .inr (.inr ⟨o, i, heq⟩)⟩
  have hdisk : ∀ c, 4 ≤ c → v3.disk c = v.disk c := fun c hc => hfreed.disk c hc id
  have hblock : (fun i => if i < 15 then 0 else nd.block i) = fun _ => 0 := by
    funext i
    split_ifs with hi
    · rfl
    · exact h.fits.blockEnd i (by omega)
  rw [hblock]
  have hzero : ∀ s, tree v3.disk { nd with block := fun _ => 0, size := 0, blocks512 := 0 } s = 0 :=
    tree_zero_roots fun _ _ => rfl
  refine .ret ⟨?_, hzero, hdisk, hfreed.used, rfl⟩
  have hfits : ({ nd with block := fun _ => 0, size := 0, blocks512 := 0 } : Inode).Fits :=
    { h.fits with
      size := (by decide : 0 < 4294967296)
      blocks512 := (by decide : 0 < 4294967296)
      block := fun _ => (by decide : 0 < 4294967296)
      blockEnd := fun _ _ => rfl }
  refine Shrink.intro h (hfreed.writes nd) hfits (fun s => .inl (hzero s))
    (fun c hc => ((hfreed.used c).mp hc).1) fun c hc hkept => ?_
  refine (hfreed.used c).mpr ⟨hc, ?_⟩
  rintro ⟨h0, s, hs⟩
  exact h0 ((hkept s hs).symm.trans (hzero s))

@[simp] theorem tree_refundBlock (d : Nat → Buf) (nd : Inode) :
    tree d nd.refundBlock = tree d nd := by
  funext s
  cases s with
  | root k => rfl
  | entry p i => cases p <;> rfl

theorem Inode.Fits.refundBlock {nd : Inode} (h : nd.Fits) : nd.refundBlock.Fits := by
  refine { h with blocks512 := ?_ }
  have := h.blocks512
  simp only [Inode.refundBlock]
  split_ifs
  · omega
  · exact this

theorem removeRoot_shrink (h : Held v ino nd) (hk : k < 14) (h0 : nd.block k ≠ 0)
    (hempty : 12 ≤ k → ∀ i, entryAt v.disk (nd.block k) i = 0) (hf : Freed v v1 (· = nd.block k)) :
    Shrink ino v nd v1 (nd.setBlock k 0).refundBlock ∧ tree v1.disk (nd.setBlock k 0).refundBlock =
        update (tree v.disk nd) (.root k) 0 := by
  have hdisk : ∀ c, 4 ≤ c → v1.disk c = v.disk c := fun c hc => hf.disk c hc id
  have hsame : tree v1.disk nd = tree v.disk nd :=
    tree_congr fun p hp => hdisk _ (le_trans (by decide) (h.ptr_ge hp))
  have hroot := tree_root v.disk nd hk
  have hge : 4 ≤ nd.block k := by
    have := (h.live (s := .root k) (by rwa [hroot])).1
    omega
  have htree : tree v1.disk (nd.setBlock k 0).refundBlock =
      update (tree v.disk nd) (.root k) 0 := by
    rw [tree_refundBlock, tree_setRoot hk, hsame]
    intro h12 i
    rw [entryAt_zero, entryAt_congr fun _ => hdisk _ hge, hempty h12]
  exact ⟨Shrink.remove h (hf.writes nd) (h.fits.setBlock (by omega) (by decide)).refundBlock
    (by rw [hroot]; exact hf.used) (by rwa [hroot]) htree, htree⟩

theorem removeEntry_shrink (h : Held v ino nd) (hp : p ≠ .double)
    (hP : ptr v.disk nd p ≠ 0) (hi : i < 1024) (h0 : tree v.disk nd (.entry p i) ≠ 0)
    (hf : Freed v v1 (· = tree v.disk nd (.entry p i))) :
    Shrink ino v nd (putEntry v1 (ptr v.disk nd p) i 0) nd.refundBlock ∧
      tree (putEntry v1 (ptr v.disk nd p) i 0).disk nd.refundBlock =
        update (tree v.disk nd) (.entry p i) 0 := by
  have hP36 := h.ptr_ge hP
  have hsame : tree v1.disk nd = tree v.disk nd :=
    tree_congr fun q hq => hf.disk _ (le_trans (by decide) (h.ptr_ge hq)) id
  have htree : tree (putEntry v1 (ptr v.disk nd p) i 0).disk nd.refundBlock =
      update (tree v.disk nd) (.entry p i) 0 := by
    rw [tree_refundBlock]
    exact h.tree_putEntry hsame hP hi (by decide) fun heq => absurd heq hp
  have hbits := setBlock_bits (v := v1) (show 4 ≤ ptr v.disk nd p by omega)
    (writeU32 (v1.disk (ptr v.disk nd p)) (4 * i) 0)
  exact ⟨Shrink.remove h ((hf.writes nd).put (fun _ hc => hc) hP36 _) h.fits.refundBlock
    (fun c => by rw [← hf.used c]; exact Bool.eq_iff_iff.mp (hbits.usedBlock c)) h0 htree, htree⟩

structure Cleared (ino : Nat) (v : Vol) (nd : Inode) (v' : Vol) (nd' : Inode) (S : Slot → Prop) :
    Prop extends Shrink ino v nd v' nd' where
  gone : ∀ s, S s → tree v'.disk nd' s = 0
  stays : ∀ s, ¬S s → tree v'.disk nd' s = tree v.disk nd s
  attrs : SameAttrs nd nd'

theorem Cleared.refl (hv : Ready v) (h : Held v ino nd) : Cleared ino v nd v nd (fun _ => False) :=
  ⟨Shrink.refl hv h, fun _ hs => hs.elim, fun _ _ => rfl, SameAttrs.refl nd⟩

theorem Cleared.trans (h : Cleared ino v nd v1 nd1 S)
    (k : Cleared ino v1 nd1 v2 nd2 T) : Cleared ino v nd v2 nd2 (fun s => S s ∨ T s) := by
  refine ⟨h.toShrink.trans k.toShrink, ?_, ?_, h.attrs.trans k.attrs⟩
  · rintro s (hS | hT)
    · obtain h0 | h1 := k.sub s
      · exact h0
      · rw [h1]
        exact h.gone s hS
    · exact k.gone s hT
  · intro s hs
    rw [not_or] at hs
    exact (k.stays s hs.2).trans (h.stays s hs.1)

theorem Cleared.congr (h : Cleared ino v nd v1 nd1 S)
    (e : ∀ s, tree v.disk nd s ≠ 0 → (S s ↔ T s)) : Cleared ino v nd v1 nd1 T := by
  have hzero : ∀ s, tree v.disk nd s = 0 → tree v1.disk nd1 s = 0 := by
    intro s hs
    obtain h0 | h1 := h.sub s
    · exact h0
    · exact h1.trans hs
  refine ⟨h.toShrink, fun s hs => ?_, fun s hs => ?_, h.attrs⟩
  · by_cases h0 : tree v.disk nd s = 0
    · exact hzero s h0
    · exact h.gone s ((e s h0).mpr hs)
  · by_cases h0 : tree v.disk nd s = 0
    · rw [h0]
      exact hzero s h0
    · exact h.stays s fun hS => hs ((e s h0).mp hS)

theorem Cleared.of_update {v' : Vol} {nd' : Inode} (hs : Shrink ino v nd v' nd')
    (ht : tree v'.disk nd' = update (tree v.disk nd) s 0) (ha : SameAttrs nd nd') :
    Cleared ino v nd v' nd' (· = s) :=
  ⟨hs, fun t h => by rw [ht, h, update_self],
    fun t h => by rw [ht, update_of_ne h], ha⟩

theorem freePtrEntry_post (hv : Ready v) (h : Held v ino nd) (hp : p ≠ .double)
    (hP : ptr v.disk nd p ≠ 0) (hi : i < 1024) : Post (freePtrEntry nd (ptr v.disk nd p) i) v
      (fun nd' v' => Cleared ino v nd v' nd' (· = .entry p i)) (fun _ _ => False) := by
  have hlt := h.ptr_lt p
  refine .bind_run (query_run (readBlock_of_ready hv hlt)) ?_
  rw [← entry_of_ptr hP hi]
  refine .branch (fun h0 => .ret ?_) (fun h0 => ?_)
  · exact (Cleared.refl hv h).congr fun s hs => ⟨False.elim, fun heq => hs (heq ▸ h0)⟩
  · refine .seq (freeBlock_post hv h0 (h.lt _)) fun _ v1 hf => ?_
    obtain ⟨hs, ht⟩ := removeEntry_shrink h hp hP hi h0 hf
    have hsame := hf.disk _ (le_trans (by decide) (h.ptr_ge hP)) id
    rw [← hsame]
    exact .bind_run (writeBlock_run hf.ready hlt _) (.ret (Cleared.of_update hs ht rfl))

theorem freeLogicalBlock_post (hv : Ready v) (h : Held v ino nd) {logical : Nat}
    (hl : logical < maxLogical) : Post (freeLogicalBlock nd logical) v
      (fun nd' v' => Cleared ino v nd v' nd' (· = dataSlot logical)) (fun _ _ => False) := by
  have none : tree v.disk nd (dataSlot logical) = 0 →
      Cleared ino v nd v nd (· = dataSlot logical) := by
    intro h0
    exact (Cleared.refl hv h).congr fun s hs => ⟨False.elim, fun heq => hs (heq ▸ h0)⟩
  unfold maxLogical at hl
  refine .branch (fun h12 => ?_) (fun h12 => .branch (fun h1024 => ?_) (fun h1024 => ?_))
  · have hslot := dataSlot_direct h12
    have h14 : logical < 14 := by omega
    have hroot := tree_root v.disk nd h14
    refine .branch (fun h0 => .ret (none ?_)) (fun h0 => ?_)
    · rw [hslot, hroot, h0]
    · have hlt : nd.block logical < 8192 := hroot ▸ h.lt (.root logical)
      refine .seq (freeBlock_post hv h0 hlt) fun _ v1 hf => ?_
      obtain ⟨hs, ht⟩ := removeRoot_shrink h h14 h0 (by omega) hf
      rw [hslot]
      exact .ret (Cleared.of_update hs ht rfl)
  · have hslot := dataSlot_single h12 h1024
    refine .branch (fun h0 => .ret (none ?_)) (fun h0 => ?_)
    · simp only [hslot, tree, ptr, h0, entryAt_zero]
    · rw [hslot]
      exact freePtrEntry_post hv h (p := .single) (by simp) h0 h1024
  · have hslot := dataSlot_double h12 h1024
    have hout : (logical - 12 - 1024) / 1024 < 1024 := by omega
    refine .branch (fun h0 => .ret (none ?_)) (fun h0 => ?_)
    · have h13 : nd.block 13 = 0 := by omega
      simp only [hslot, tree, ptr, h13, entryAt_zero]
    · have h13 : nd.block 13 ≠ 0 := by omega
      refine .bind_run (query_run (readBlock_of_ready hv (h.ptr_lt .double))) ?_
      have hX : readU32 (v.disk (nd.block 13)) (4 * ((logical - 12 - 1024) / 1024)) =
          ptr v.disk nd (.outer ((logical - 12 - 1024) / 1024)) :=
        (entry_of_ptr (p := .double) h13 hout).symm
      simp only [hX]
      refine .branch (fun hzero => .ret (none ?_)) (fun hne => ?_)
      · simp only [hslot, tree, hzero, entryAt_zero]
      · rw [hslot]
        exact freePtrEntry_post hv h (by simp) hne (Nat.mod_lt _ (by decide))

theorem ptrBlockEmpty_iff (hv : Ready v) {b : Nat} (h0 : b ≠ 0) (hb : b < 8192) :
    ptrBlockEmpty v b = true ↔ ∀ i, i < 1024 → readU32 (v.disk b) (4 * i) = 0 := by
  simp [ptrBlockEmpty, h0, readBlock_of_ready hv hb]

theorem freeEmptyRoot_post (hv : Ready v) (h : Held v ino nd) (hk : k = 12 ∨ k = 13) :
    Post (freeEmptyRoot nd k) v (fun nd' v' => Cleared ino v nd v' nd' fun s => s = .root k ∧
        ∀ i, i < 1024 → readU32 (v.disk (nd.block k)) (4 * i) = 0) (fun _ _ => False) := by
  have h14 : k < 14 := by omega
  have hroot := tree_root v.disk nd h14
  have hlt : nd.block k < 8192 := hroot ▸ h.lt (.root k)
  refine .bind_get (.branch (fun hcond => ?_) (fun hcond => .ret ?_))
  · obtain ⟨h0, hempty⟩ := hcond
    rw [ptrBlockEmpty_iff hv h0 hlt] at hempty
    have hentry : 12 ≤ k → ∀ i, entryAt v.disk (nd.block k) i = 0 := by
      intro _ i
      unfold entryAt
      split_ifs with hi
      · rfl
      · exact hempty i (by omega)
    refine .seq (freeBlock_post hv h0 hlt) fun _ v1 hf => .ret ?_
    obtain ⟨hs, ht⟩ := removeRoot_shrink h h14 h0 hentry hf
    exact (Cleared.of_update hs ht rfl).congr fun s _ => ⟨fun hs => ⟨hs, hempty⟩, And.left⟩
  · refine (Cleared.refl hv h).congr fun s hs => ⟨False.elim, ?_⟩
    rintro ⟨rfl, hempty⟩
    rw [hroot] at hs
    exact hcond ⟨hs, (ptrBlockEmpty_iff hv hs hlt).mpr hempty⟩

def EmptyOuter (v : Vol) (nd : Inode) (o : Nat) : Prop :=
  ptr v.disk nd (.outer o) ≠ 0 ∧
    ∀ i, i < 1024 → readU32 (v.disk (ptr v.disk nd (.outer o))) (4 * i) = 0

/-- The loop has passed `i` entries: the empty pointer blocks among them are released
and cleared in the buffer, which is not yet written. -/
structure OuterInv (v : Vol) (nd : Inode) (i : Nat) (acc : Inode × Buf × Bool) (w : Vol) : Prop where
  freed : Freed v w fun c => ∃ o, o < i ∧ EmptyOuter v nd o ∧ c = ptr v.disk nd (.outer o)
  cleared : ∀ o, o < 1024 → (o < i → EmptyOuter v nd o → readU32 acc.2.1 (4 * o) = 0) ∧
    (¬(o < i ∧ EmptyOuter v nd o) → readU32 acc.2.1 (4 * o) = ptr v.disk nd (.outer o))
  block : acc.1.block = nd.block
  attrs : SameAttrs nd acc.1
  fits : acc.1.Fits

theorem freeEmptyOuter_post (h : Held v ino nd) (hi : i < 1024) (inv : OuterInv v nd i acc w) :
    Post (freeEmptyOuter i acc) w (OuterInv v nd (i + 1)) (fun _ _ => False) := by
  obtain ⟨nd', buf, anyOuter⟩ := acc
  have hX : readU32 buf (4 * i) = ptr v.disk nd (.outer i) :=
    (inv.cleared i hi).2 (by omega)
  have hlt := h.ptr_lt (.outer i)
  -- nothing changes when block `i` is absent or still has entries
  have skip : ¬EmptyOuter v nd i → ∀ b, OuterInv v nd (i + 1) (nd', buf, b) w := by
    intro hne b
    have hiff : ∀ o, (o < i + 1 ∧ EmptyOuter v nd o) ↔ (o < i ∧ EmptyOuter v nd o) := by
      intro o
      constructor
      · rintro ⟨ho, he⟩
        have : o ≠ i := by rintro rfl; exact hne he
        exact ⟨by omega, he⟩
      · rintro ⟨ho, he⟩
        exact ⟨by omega, he⟩
    refine ⟨inv.freed.congr fun c => ?_, fun o ho => ⟨fun h1 h2 => ?_, fun hno => ?_⟩, inv.block,
      inv.attrs, inv.fits⟩
    · simp only [← and_assoc, hiff]
    · obtain ⟨h3, h4⟩ := (hiff o).mp ⟨h1, h2⟩
      exact (inv.cleared o ho).1 h3 h4
    · exact (inv.cleared o ho).2 fun hc => hno ((hiff o).mpr hc)
  refine .bind_get ?_
  simp only [hX]
  refine .branch (fun h0 => .ret (skip (fun he => he.1 h0) _)) (fun h0 => ?_)
  have hdisk := inv.freed.disk _ (le_trans (by decide) (h.ptr_ge h0)) id
  have hiff : ptrBlockEmpty w (ptr v.disk nd (.outer i)) = true ↔ EmptyOuter v nd i := by
    rw [ptrBlockEmpty_iff inv.freed.ready h0 hlt, hdisk]
    exact ⟨fun he => ⟨h0, he⟩, fun he => he.2⟩
  refine .branch (fun hempty => ?_) (fun hempty => .ret (skip (fun he => hempty (hiff.mpr he)) _))
  have he := hiff.mp hempty
  refine .seq (freeBlock_post inv.freed.ready h0 hlt) fun _ w' hf => .ret ?_
  refine ⟨(inv.freed.trans hf).congr fun c => ?_, fun o ho => ⟨fun h1 h2 => ?_, fun hno => ?_⟩,
    inv.block, inv.attrs.trans rfl, inv.fits.refundBlock⟩
  · constructor
    · rintro (⟨o, ho, heo, rfl⟩ | rfl)
      · exact ⟨o, by omega, heo, rfl⟩
      · exact ⟨i, by omega, he, rfl⟩
    · rintro ⟨o, ho, heo, rfl⟩
      by_cases hoi : o = i
      · exact .inr (hoi ▸ rfl)
      · exact .inl ⟨o, by omega, heo, rfl⟩
  · by_cases hoi : o = i
    · rw [hoi]
      exact readU32_writeU32 ..
    · exact (readU32_writeU32_of_disjoint (by omega)).trans ((inv.cleared o ho).1 (by omega) h2)
  · have hoi : o ≠ i := by rintro rfl; exact hno ⟨by omega, he⟩
    exact (readU32_writeU32_of_disjoint (by omega)).trans
      ((inv.cleared o ho).2 fun hc => hno ⟨by omega, hc.2⟩)

theorem OuterInv.cleared_setBlock (h : Held v ino nd)
    (h13 : nd.block 13 ≠ 0) (inv : OuterInv v nd 1024 acc w) :
    Cleared ino v nd (setBlock w (nd.block 13) acc.2.1) acc.1
      (fun s => ∃ o, s = .entry .double o ∧ EmptyOuter v nd o) := by
  obtain ⟨nd', buf, anyOuter⟩ := acc
  have hblock : nd'.block = nd.block := inv.block
  have hD36 : 36 ≤ nd.block 13 := h.ptr_ge (p := .double) h13
  have hdisk : ∀ c, 4 ≤ c → w.disk c = v.disk c := fun c hc => inv.freed.disk c hc id
  have hbits := setBlock_bits (v := w) (show 4 ≤ nd.block 13 by omega) buf
  have hother : ∀ c, 4 ≤ c → c ≠ nd.block 13 → (setBlock w (nd.block 13) buf).disk c = v.disk c :=
    fun c hc hne => (setBlock_of_ne hne).trans (hdisk c hc)
  have hkeep : ∀ p, p ≠ .double → ∀ i,
      entryAt (setBlock w (nd.block 13) buf).disk (ptr v.disk nd p) i =
        entryAt v.disk (ptr v.disk nd p) i := by
    intro p hp i
    refine entryAt_congr fun h0 => hother _ (le_trans (by decide) (h.ptr_ge h0)) fun heq => ?_
    exact hp (h.ptr_inj h0 (q := .double) heq)
  have hread : ∀ o < 1024, entryAt (setBlock w (nd.block 13) buf).disk (nd.block 13) o =
      readU32 buf (4 * o) := fun o ho => by rw [entryAt, if_neg (by omega), setBlock_same]
  have habsent : ∀ o, ¬o < 1024 → ∀ d, entryAt d (nd.block 13) o = 0 :=
    fun o ho d => if_pos (.inr (by omega))
  have hgone : ∀ o, EmptyOuter v nd o →
      entryAt (setBlock w (nd.block 13) buf).disk (nd.block 13) o = 0 := by
    intro o he
    by_cases ho : o < 1024
    · exact (hread o ho).trans ((inv.cleared o ho).1 ho he)
    · exact habsent o ho _
  have hstay : ∀ o, ¬EmptyOuter v nd o →
      entryAt (setBlock w (nd.block 13) buf).disk (nd.block 13) o = ptr v.disk nd (.outer o) := by
    intro o he
    by_cases ho : o < 1024
    · exact (hread o ho).trans ((inv.cleared o ho).2 fun hc => he hc.2)
    · exact (habsent o ho _).trans (habsent o ho v.disk).symm
  have hnil : ∀ o, EmptyOuter v nd o → ∀ i, tree v.disk nd (.entry (.outer o) i) = 0 := by
    intro o he i
    simp only [tree, entryAt]
    split_ifs with hi
    · rfl
    · exact he.2 i (by omega)
  have gone : ∀ s, (∃ o, s = .entry .double o ∧ EmptyOuter v nd o) →
      tree (setBlock w (nd.block 13) buf).disk nd' s = 0 := by
    rintro s ⟨o, rfl, he⟩
    simp only [tree, ptr, hblock]
    exact hgone o he
  have stays : ∀ s, ¬(∃ o, s = .entry .double o ∧ EmptyOuter v nd o) →
      tree (setBlock w (nd.block 13) buf).disk nd' s = tree v.disk nd s := by
    intro s hs
    cases s with
    | root k => simp only [tree, hblock]
    | entry p i =>
      cases p with
      | single =>
        simp only [tree, ptr, hblock]
        exact hkeep .single (by simp) i
      | double =>
        simp only [tree, ptr, hblock]
        exact hstay i fun he => hs ⟨i, rfl, he⟩
      | outer o =>
        by_cases he : EmptyOuter v nd o
        · rw [hnil o he i]
          simp only [tree, ptr, hblock, hgone o he, entryAt_zero]
        · simp only [tree, ptr, hblock, hstay o he]
          exact hkeep (.outer o) (by simp) i
  refine ⟨Shrink.intro h ((inv.freed.writes nd).put (p := .double) (fun _ hc => hc) hD36 buf)
    inv.fits ?_ ?_ ?_, gone, stays, inv.attrs⟩
  · intro s
    by_cases hs : ∃ o, s = .entry .double o ∧ EmptyOuter v nd o
    · exact .inl (gone s hs)
    · exact .inr (stays s hs)
  · intro c hc
    rw [hbits.usedBlock] at hc
    exact ((inv.freed.used c).mp hc).1
  · intro c hc hkept
    rw [hbits.usedBlock]
    refine (inv.freed.used c).mpr ⟨hc, ?_⟩
    rintro ⟨o, _, he, rfl⟩
    exact he.1 ((hkept (.entry .double o) rfl).symm.trans (gone _ ⟨o, rfl, he⟩))

structure Pruned (ino : Nat) (v : Vol) (nd : Inode) (v' : Vol) (nd' : Inode) : Prop
    extends Shrink ino v nd v' nd' where
  same : ∀ m, tree v'.disk nd' (dataSlot m) = tree v.disk nd (dataSlot m)
  attrs : SameAttrs nd nd'

theorem Pruned.trans (h : Pruned ino v nd v1 nd1) (k : Pruned ino v1 nd1 v2 nd2) :
    Pruned ino v nd v2 nd2 :=
  ⟨h.toShrink.trans k.toShrink, fun m => (k.same m).trans (h.same m), h.attrs.trans k.attrs⟩

theorem Cleared.pruned (h : Cleared ino v nd v1 nd1 S)
    (hS : ∀ s, S s → ∃ p : Ptr, s = p.slot) : Pruned ino v nd v1 nd1 := by
  refine ⟨h.toShrink, fun m => h.stays _ fun hs => ?_, h.attrs⟩
  obtain ⟨p, hp⟩ := hS _ hs
  exact dataSlot_ne_slot m p hp

theorem freeEmptyIndirectBlocks_post (hv : Ready v) (h : Held v ino nd) :
    Post (freeEmptyIndirectBlocks nd) v (fun nd' v' => Pruned ino v nd v' nd')
      (fun _ _ => False) := by
  refine .seq (freeEmptyRoot_post hv h (.inl rfl)) fun nd1 v1 h1 => ?_
  have hp1 := h1.pruned fun s hs => ⟨.single, hs.1⟩
  refine .branch (fun _ => .ret hp1) (fun h13 => ?_)
  refine .bind_run (query_run (readBlock_of_ready h1.ready (h1.held.ptr_lt .double))) ?_
  have hstart : OuterInv v1 nd1 0 (nd1, v1.disk (nd1.block 13), false) v1 := by
    refine ⟨(Freed.refl h1.ready).congr fun c => by simp, fun o ho => ⟨fun h0 => by omega, fun _ => ?_⟩,
      rfl, rfl, h1.held.fits⟩
    exact (entry_of_ptr (p := .double) h13 ho).symm
  refine .seq (.loop (OuterInv v1 nd1) 1024
    (fun i acc s hi inv => freeEmptyOuter_post h1.held hi inv) 1024 0 _ v1 rfl hstart) ?_
  rintro ⟨nd2, buf, anyOuter⟩ w inv
  have hcl := inv.cleared_setBlock h1.held h13
  have hp2 := hp1.trans (hcl.pruned fun s ⟨o, hs, _⟩ => ⟨.outer o, hs⟩)
  have hblock : nd2.block 13 = nd1.block 13 := congrFun inv.block 13
  have hlt : nd1.block 13 < 8192 := h1.held.ptr_lt .double
  simp only [hblock]
  refine .bind_run (writeBlock_run inv.freed.ready hlt buf) ?_
  refine .branch (fun _ => .ret hp2) (fun _ => ?_)
  refine (freeEmptyRoot_post hcl.ready hcl.held (.inr rfl)).weaken (fun nd3 v3 h3 => ?_)
  exact hp2.trans (h3.pruned fun s hs => ⟨.double, hs.1⟩)

end

end SmallOS.Ext2
