import SmallOS.Ext2.BlockOwnership

/-! Writes that run out of blocks. A failed write leaves the record on the device as it was before
the failing piece; `Stale` is the one state in which a pointer block that was never filled hangs
below that record. -/

namespace SmallOS.Ext2

open Bytes Prog Ownership Support List Option Inode

variable {e : Fail} {hi len lo : Nat} {path : Path}

section

variable {v v1 v2 : Vol} {ino : Nat} {nd nd1 : Inode}

theorem Fill.consistent (h : Fill ino v nd v1 nd1) (hsub : (books v ino).Sub nd) :
    Consistent v1 := by
  have hbooks : books v1 ino = books v ino := by simp only [books, h.table]
  have hheld := h.held.sub (hsub.trans h.sub) (table_fits v ino).owned
  rw [← hbooks] at hheld
  have := hheld.toHolds
  rwa [Function.update_eq_self] at this

theorem Holds.setBlock_unowned {T : Table} {D : Nat} (h : Holds v T) (hD : 4 ≤ D)
    (hout : ∀ k, owner v.disk T k ≠ D) (buf : Buf) : Holds (setBlock v D buf) T := by
  have howner : owner (setBlock v D buf).disk T = owner v.disk T := by
    funext ⟨j, s⟩
    have htree : tree (setBlock v D buf).disk (T j) = tree v.disk (T j) := by
      refine tree_congr fun p _ => setBlock_of_ne fun heq => hout (j, p.slot) ?_
      rw [← heq]
      exact tree_slot v.disk (T j) p
    exact congrFun htree s
  have hbits := setBlock_bits (v := v) hD buf
  refine ⟨⟨fun k hk => ?_, fun k l => ?_⟩, fun b hb => (hbits.usedBlock b).trans (h.reserved b hb)⟩
  · rw [howner] at hk ⊢
    have hlive := h.owns.live k hk
    exact ⟨hlive.1, hlive.2.1, (hbits.usedBlock _).trans hlive.2.2⟩
  · rw [howner]
    exact h.owns.inj k l

theorem Allocated.consistent {first n : Nat} (ha : Allocated v v1 first n) (hc : Consistent v) :
    Consistent v1 := by
  have hheld : Held v 0 (books v 0) := hc.held_sub (Inode.Sub.refl _) (table_fits v 0).owned
  exact (ha.leak hheld).toFill.consistent (Inode.Sub.refl _)

/-- Nobody owns the double-indirect block of the copy: what hangs below it is out of reach. -/
theorem Stale.consistent {logical : Nat} (hs : Stale v nd logical v1) (hc : Consistent v)
    (hlive : DataLive v (nd.block 13)) (hout : ∀ k, owner v.disk (books v) k ≠ nd.block 13) :
    Consistent v1 := by
  obtain ⟨_, hne, _, w, b, ha, _, hidle⟩ := hs
  have hD4 : 4 ≤ nd.block 13 := le_trans (by decide) hlive.1
  -- the write to the pointer block first, then the allocation: they do not meet
  obtain ⟨buf, hbuf⟩ : ∃ buf, putEntry w (nd.block 13) ((logical - 12 - 1024) / 1024) b =
    setBlock w (nd.block 13) buf := ⟨_, rfl⟩
  rw [hbuf] at hidle
  have hrecords : table (setBlock v (nd.block 13) buf) = table v :=
    table_congr fun c _ hc => setBlock_of_ne (by have := hlive.1; omega)
  have hset : Consistent (setBlock v (nd.block 13) buf) := by
    unfold Consistent books
    rw [hrecords]
    exact Holds.setBlock_unowned hc hD4 hout buf
  have hleak := (ha.withBlock hD4 buf hlive.2.2).consistent hset
  exact hleak.transfer hidle.toEffect hidle.blocks

theorem Held.double_unowned (h : Held v ino nd) (hsub : (books v ino).Sub nd)
    (hne : nd.block 13 ≠ 0) (h13 : (books v ino).block 13 = 0) (k : Nat × Slot) :
    owner v.disk (books v) k ≠ nd.block 13 := by
  obtain ⟨j, s⟩ := k
  intro heq
  have hroot : tree v.disk nd (.root 13) = nd.block 13 := rfl
  have heq : tree v.disk (books v j) s = nd.block 13 := heq
  by_cases hj : j = ino
  · subst hj
    have hs0 : tree v.disk (books v j) s ≠ 0 := by rwa [heq]
    rw [(tree_sub hsub s).resolve_left hs0, ← hroot] at heq
    rw [h.inj (by rw [heq]; exact hne) heq] at hs0
    exact hs0 h13
  · exact h.other_apart hj (by rw [heq]; exact hne) (.root 13) (hroot.trans heq.symm)

theorem Consistent.endDefer (hv : Ready v) (h : Consistent v) : Consistent (endDefer v) := by
  unfold Consistent
  rw [books_congr fun c hc _ => endDefer_disk v hc]
  exact Holds.transfer h (fun c hc => endDefer_disk v (by omega)) (endDefer_bits hv).usedBlock

theorem Frame.room (hf : Frame v (tree v.disk nd) v1 (tree v1.disk nd1))
    (hfin : (Function.support (tree v.disk nd)).Finite) (h1 : Held v1 ino nd1) (S : Finset Slot) :
    (freeBlocks v1).card + (S.filter fun s => ¬tree v1.disk nd1 s = 0).card ≤
      (freeBlocks v).card + weight (tree v.disk nd) := by
  set L := S.filter fun s => ¬tree v1.disk nd1 s = 0
  have hne : ∀ s ∈ L, tree v1.disk nd1 s ≠ 0 := fun s hs => (Finset.mem_filter.mp hs).2
  have hdisj : Disjoint (freeBlocks v1) (L.image (tree v1.disk nd1)) := by
    refine Finset.disjoint_left.mpr fun c hc hmem => ?_
    obtain ⟨s, hs, rfl⟩ := Finset.mem_image.mp hmem
    exact absurd ((h1.live (hne s hs)).2.2.symm.trans (mem_freeBlocks.mp hc).2.2) (by decide)
  have hsource {c : Nat} (hlow : 36 ≤ c) (hhigh : c < 8192)
      (hc : usedBlock v1 c = false ∨ ∃ s, tree v1.disk nd1 s = c) :
      c ∈ freeBlocks v ∪ hfin.toFinset.image (tree v.disk nd) := by
    refine Finset.mem_union.mpr ((hf.free_or_held hlow hhigh hc).imp
      (fun hfree => mem_freeBlocks.mpr ⟨hhigh, hlow, hfree⟩) fun ⟨s, hs⟩ => ?_)
    have h0 : tree v.disk nd s ≠ 0 := by omega
    exact Finset.mem_image.mpr ⟨s, hfin.mem_toFinset.mpr h0, hs⟩
  calc (freeBlocks v1).card + L.card
      = (freeBlocks v1 ∪ L.image (tree v1.disk nd1)).card := by
        rw [Finset.card_union_of_disjoint hdisj, Finset.card_image_of_injOn fun s hs t _ heq =>
          h1.inj (hne s hs) heq]
    _ ≤ (freeBlocks v ∪ hfin.toFinset.image (tree v.disk nd)).card := by
        refine Finset.card_le_card (Finset.union_subset (fun c hc => ?_) fun c hc => ?_)
        · obtain ⟨hhigh, hlow, hfree⟩ := mem_freeBlocks.mp hc
          exact hsource hlow hhigh (.inl hfree)
        · obtain ⟨s, hs, rfl⟩ := Finset.mem_image.mp hc
          obtain ⟨hlow, hhigh, _⟩ := h1.live (hne s hs)
          exact hsource hlow hhigh (.inr ⟨s, rfl⟩)
    _ ≤ (freeBlocks v).card + weight (tree v.disk nd) := by
        refine (Finset.card_union_le _ _).trans (Nat.add_le_add_left ?_ _)
        rw [weight, Set.ncard_eq_toFinset_card _ hfin]
        exact Finset.card_image_le

theorem Stale.lacking_lt {v2 : Vol} {logical : Nat} (hs : Stale v1 nd1 logical v2)
    (hfill : Fill ino v nd v1 nd1) (hwhole : Whole v1.disk nd1 lo logical) :
    (lacking v.disk nd lo (logical - lo)).card < (freeBlocks v).card := by
  obtain ⟨_, _, _, w, b, ha, _⟩ := hs
  have hkept : ∀ s, tree v.disk nd s ≠ 0 → tree v1.disk nd1 s ≠ 0 := fun s hs => by
    rwa [hfill.keep s hs]
  have hfin : (Function.support (tree v.disk nd)).Finite := hfill.held.finite.subset hkept
  have hroom := hfill.toFrame.room hfin hfill.held
    (lacking v.disk nd lo (logical - lo) ∪ hfin.toFinset)
  rw [Finset.filter_true_of_mem fun s hs => ?_, Finset.card_union_of_disjoint
    (Finset.disjoint_left.mpr fun s hs hold => ?_), ← Set.ncard_eq_toFinset_card _ hfin] at hroom
  · have hpos : 0 < (freeBlocks v1).card := Finset.card_pos.mpr ⟨b, mem_freeBlocks.mpr
      ⟨by have := ha.high; omega, ha.low, ha.free b (le_refl b) (by omega)⟩⟩
    unfold weight at hroom
    omega
  · exact (hfin.mem_toFinset.mp hold) (Finset.mem_filter.mp hs).2
  · obtain hs | hs := Finset.mem_union.mp hs
    · obtain ⟨i, hi, hmem⟩ := Finset.mem_biUnion.mp (Finset.mem_filter.mp hs).1
      have hi := Finset.mem_range.mp hi
      exact tree_way_ne hmem (hwhole _ (by omega) (by omega))
    · exact hkept s (hfin.mem_toFinset.mp hs)

/-- No pointer block is missing below the double-indirect block of the record, in the part of the
file between the logical blocks `lo` and `hi`, or the free blocks are used up before it is needed. -/
def PointersReady (v : Vol) (nd : Inode) (lo hi : Nat) : Prop :=
  nd.block 13 = 0 ∨ ∀ m, lo ≤ m → m < hi → 12 + 1024 ≤ m →
    tree v.disk nd (.entry .double ((m - 12 - 1024) / 1024)) = 0 →
    (freeBlocks v).card ≤ (lacking v.disk nd lo (m - lo)).card

theorem RangeFails.consistent (h : RangeFails ino lo hi v nd e v1)
    (hsub : (books v ino).Sub nd) (hready : (books v ino).block 13 = 0 ∨ PointersReady v nd lo hi) :
    Consistent v1 := by
  obtain ⟨_, ⟨nd', hfill⟩ | ⟨w, nd', logical, u, hfill, hlo, hhi, hwhole, hstale, rfl⟩⟩ := h
  · exact hfill.consistent hsub
  · have hbooks : books w ino = books v ino := by
      simp only [books, hfill.table]
      rfl
    refine Consistent.endDefer hstale.ready ?_
    by_cases h13 : (books v ino).block 13 = 0
    · have hsub' : (books w ino).Sub nd' := hbooks ▸ hsub.trans hfill.sub
      have hne := hstale.2.1
      exact hstale.consistent ((Fill.refl hfill.ready hfill.held).consistent hsub')
        (hfill.held.live (s := .root 13) hne)
        (hfill.held.double_unowned hsub' hne (hbooks ▸ h13))
    · -- with the blocks that were missing before it, the new pointer block is one too many
      have hlt := hstale.lacking_lt hfill hwhole
      obtain ⟨hlow, _, hzero, _⟩ := hstale
      refine absurd (((hready.resolve_left h13).resolve_left fun h0 => h13 ?_) logical hlo hhi hlow ?_)
        (Nat.not_le.mpr hlt)
      · exact ((hsub 13).resolve_left h13).trans h0
      · by_contra hentry
        exact hentry ((hfill.keep _ hentry).symm.trans hzero)

theorem EntryFails.consistent (h : EntryFails ino v nd e v1) (hc : Consistent v)
    (hsub : (books v ino).Sub nd) : Consistent v1 := by
  obtain ⟨_, rfl⟩ | ⟨_, hidle, _⟩ | ⟨⟨_, _, nd', hgrow⟩, _⟩ := h
  · exact hc
  · exact hc.transfer hidle.toEffect hidle.blocks
  · exact hgrow.toFill.consistent hsub

theorem CreateFails.consistent {c : CreatePath}
    (h : CreateFails v c e v1) (hc : Consistent v) (hat : CreateAt v path c) : Consistent v1 := by
  obtain ⟨_, rfl⟩ | ⟨_, hidle, _⟩ | ⟨ino, w, u, hborn, _, hfails, hdrop⟩ := h
  · exact hc
  · exact hc.transfer hidle.toEffect hidle.blocks
  · refine hdrop.consistent (hfails.consistent hborn.consistent ?_)
    by_cases hp : c.parentIno = ino
    · have hself : books w c.parentIno = (newInode fileMode 1 v.now).owned := by
        simp only [books, hp, hborn.table_self]
      rw [hself]
      exact fun k => .inl (Inode.Blank.owned (newInode_blank _ _ _) k)
    · have hself : table w c.parentIno = c.parent := by
        rw [hborn.record, Function.update_of_ne hp, hat.parent]
      simp only [books, hself]
      exact owned_sub _

theorem Consistent.of_live (hc : Consistent v) (htable : table v1 = table v)
    (live : ∀ c, DataLive v c → usedBlock v1 c = true ∧ v1.disk c = v.disk c)
    (reserved : ∀ b, b < 36 → usedBlock v1 b = true) : Consistent v1 := by
  unfold Consistent books
  rw [htable]
  exact Holds.of_live hc live reserved

theorem RangeFails.consistent_of_blank (h : RangeFails ino lo hi v nd e v1)
    (hc : Consistent v) (hblank : nd.Blank) : Consistent v1 := by
  have hempty : ∀ c, DataLive v c → ∀ s, tree v.disk nd s ≠ c := by
    intro c hlive s
    have := hlive.1
    rw [hblank.tree]
    omega
  obtain ⟨_, ⟨nd', hfill⟩ | ⟨w, nd', logical, u, hfill, _, _, _, hstale, rfl⟩⟩ := h
  · exact hc.of_live hfill.table (fun c hlive => hfill.others c hlive (hempty c hlive))
      hfill.held.reserved
  · have hlive := fun c hlive => hfill.others c hlive (hempty c hlive)
    have hcons : Consistent w := hc.of_live hfill.table hlive hfill.held.reserved
    have hne := hstale.2.1
    refine Consistent.endDefer hstale.ready (hstale.consistent hcons
      (hfill.held.live (s := .root 13) hne) fun k hk => ?_)
    -- an owned block was in use before the write, the new pointer block was not
    have howner : owner w.disk (books w) k = owner v.disk (books v) k := by
      have hbooks : books w = books v := by
        unfold books
        rw [hfill.table]
        rfl
      rw [hbooks]
      exact congrFun (Holds.owner_of_live hc fun c hc => (hlive c hc).2) k
    rw [howner] at hk
    have hused := hc.owns.live k (by rw [hk]; exact hne)
    rw [hk] at hused
    obtain ⟨t, ht⟩ | hfree := hfill.origin (.root 13) hne
    · exact hempty _ hused t ht
    · exact absurd (hused.2.2.symm.trans hfree) (by decide)

def WritesTo (v : Vol) (path : Path) (nd : Inode) : Prop :=
  (∃ p ino, resolvePath v path = some ⟨p, ino, nd⟩) ∨
    (resolvePath v path = none ∧ ∃ c ino t, CreateAt v path c ∧
      dirFindEntry v c.parent c.leaf = some (ino, t) ∧ nd = table v ino)

theorem WriteAtFails.consistent {offset : Nat} {create : Bool} (hv : Ready v) (hc : Consistent v)
    (h : WriteAtFails v path offset len create e v1) (hready : ∀ nd, WritesTo v path nd →
      PointersReady v nd (offset / 4096) ((offset + len + 4095) / 4096)) : Consistent v1 := by
  obtain (⟨_, rfl⟩ | ⟨_, c, hat, hfails⟩) | ⟨⟨ino, nd⟩, w, hopen, _, hfails⟩ := h
  · exact hc
  · exact hfails.consistent hc hat
  · obtain ⟨rfl, p, hres⟩ | ⟨hnone, _, c, hat, hopened⟩ := hopen
    · obtain ⟨_, hrec, _⟩ := resolvePath_eq_some hv hres
      simp only at hrec
      refine hfails.consistent ?_ (.inr (hready nd (.inl ⟨p, ino, hres⟩)))
      simp only [books, hrec]
      exact owned_sub _
    · obtain ⟨rfl, _, hrec, _, t, hfind⟩ | ⟨_, hnd, parent', hnamed⟩ := hopened
      · simp only at hrec hfind
        refine hfails.consistent ?_ (.inr (hready nd (.inr ⟨hnone, c, ino, t, hat, hfind, hrec⟩)))
        simp only [books, hrec]
        exact owned_sub _
      · simp only at hnd
        rw [hnd] at hfails
        exact hfails.consistent_of_blank hnamed.saved.2.1 (newInode_blank _ _ _)

theorem Saved.free_le_lacking (hs : Saved ino v nd v1 nd1) (h : Held v ino nd) {nd0 : Inode} {n m : Nat}
    (hroom : (freeBlocks v).card + weight (tree v.disk nd) ≤ (lacking v.disk nd0 0 n).card)
    (hn : n ≤ m) : (freeBlocks v1).card ≤ (lacking v1.disk nd1 0 m).card := by
  have hsplit := Finset.card_filter_add_card_filter_not (s := lacking v.disk nd0 0 n)
    fun s => tree v1.disk nd1 s = 0
  have hspent := hs.toFrame.room h.finite hs.held (lacking v.disk nd0 0 n)
  have hsub : (lacking v.disk nd0 0 n).filter (fun s => tree v1.disk nd1 s = 0) ⊆
      lacking v1.disk nd1 0 m := by
    intro s hs
    obtain ⟨hs, h0⟩ := Finset.mem_filter.mp hs
    obtain ⟨i, hi, hway⟩ := Finset.mem_biUnion.mp (Finset.mem_filter.mp hs).1
    have hi := (Finset.mem_range.mp hi).trans_le hn
    exact Finset.mem_filter.mpr ⟨Finset.mem_biUnion.mpr ⟨i, Finset.mem_range.mpr hi, hway⟩, h0⟩
  have hcard := Finset.card_le_card hsub
  omega

/-- The data has at most 2060 blocks, for which one entry of the double-indirect block is enough,
or the free blocks and those of the file are no more than such a file takes. -/
def PathReady (v : Vol) (path : Path) (len : Nat) : Prop :=
  (len + 4095) / 4096 ≤ 2060 ∨ ∀ c ino nd w, resolveCreatePath v path = some c →
    createFileInParent c v = .ok (ino, nd) w → (freeBlocks w).card + weight (tree w.disk nd) ≤
      (lacking w.disk (newInode fileMode 1 0) 0 2060).card

theorem PieceFails.consistent (h : PieceFails ino len v nd e v1) (hheld : Held v ino nd)
    (hroom : (len + 4095) / 4096 ≤ 2060 ∨ (freeBlocks v).card + weight (tree v.disk nd) ≤
      (lacking v.disk (newInode fileMode 1 0) 0 2060).card) : Consistent v1 := by
  obtain ⟨u, nd1, hsaved, hfails, hentry⟩ := h
  refine hfails.consistent ?_ (.inr ?_)
  · simp only [books, hsaved.table_self]
    exact owned_sub _
  by_cases h13 : nd1.block 13 = 0
  · exact .inl h13
  refine .inr fun m _ hhi hlow hzero => ?_
  -- up to block 2060 only the first entry of the double-indirect block is needed
  have hm : 2060 ≤ m := by
    by_contra hlt
    rw [show (m - 12 - 1024) / 1024 = 0 by omega] at hzero
    exact hentry h13 hzero
  exact hsaved.free_le_lacking hheld (hroom.resolve_left (by omega)) hm

theorem WritePathFails.consistent (hc : Consistent v) (h : WritePathFails v path len e v1)
    (hready : PathReady v path len) : Consistent v1 := by
  obtain ⟨_, rfl⟩ | ⟨c, hat, hfails | ⟨⟨ino, nd⟩, w, hfound, hrun, hheld, hfails⟩⟩ := h
  · exact hc
  · exact hfails.consistent hc hat
  · exact hfails.consistent hheld (hready.imp_right fun h => h c ino nd w hfound hrun)

end

end SmallOS.Ext2
