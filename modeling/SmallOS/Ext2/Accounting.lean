import SmallOS.Ext2.Growth
import SmallOS.Lib.Support

/-! Taking single blocks for a tree, and counting them. `Adds` is the guarantee of the allocating
functions when they succeed: every block taken is in the tree afterwards, and the inode is charged
for it. -/

namespace SmallOS.Ext2

open Bytes Prog Ownership Support Function Finset

variable {zero : Bool} {e : Fail} {b c i k logical P : Nat} {p : Ptr} {s : Slot} {v' : Vol}
  {nd' : Inode}

def way (logical : Nat) : Finset Slot :=
  insert (dataSlot logical)
    (if logical < 12 then ∅
    else if logical - 12 < 1024 then {Ptr.single.slot}
    else {Ptr.double.slot, (Ptr.outer ((logical - 12 - 1024) / 1024)).slot})

theorem dataSlot_mem_way (logical : Nat) : dataSlot logical ∈ way logical :=
  mem_insert_self ..

theorem Ptr.Leads.mem_way (h : p.Leads logical) : p.slot ∈ way logical := by
  refine mem_insert_of_mem ?_
  cases p with
  | single =>
    obtain ⟨hlow, hhigh⟩ := h
    rw [if_neg (by omega), if_pos (by omega)]
    exact mem_singleton_self _
  | double =>
    have hlow : 12 + 1024 ≤ logical := h
    rw [if_neg (by omega), if_neg (by omega)]
    exact mem_insert_self ..
  | outer o =>
    obtain ⟨hlow, rfl⟩ := h
    rw [if_neg (by omega), if_neg (by omega)]
    exact mem_insert_of_mem (mem_singleton_self _)

theorem tree_way_ne {d : Nat → Buf} {nd : Inode} (hs : s ∈ way logical)
    (hne : tree d nd (dataSlot logical) ≠ 0) : tree d nd s ≠ 0 := by
  have leads {p : Ptr} (hp : p.Leads logical) : tree d nd p.slot ≠ 0 := by
    rw [tree_slot]
    exact hp.ptr_ne hne
  unfold way at hs
  obtain rfl | hs := mem_insert.mp hs
  · exact hne
  split_ifs at hs with h12 h1036
  · cases hs
  · rw [mem_singleton.mp hs]
    exact leads ⟨by omega, by omega⟩
  · obtain rfl | hs := mem_insert.mp hs
    · exact leads (show 12 + 1024 ≤ logical by omega)
    · rw [mem_singleton.mp hs]
      exact leads ⟨by omega, rfl⟩

def freeBlocks (v : Vol) : Finset Nat :=
  (Finset.range 8192).filter fun c => 36 ≤ c ∧ usedBlock v c = false

theorem mem_freeBlocks {v : Vol} : c ∈ freeBlocks v ↔ c < 8192 ∧ 36 ≤ c ∧ usedBlock v c = false := by
  simp only [freeBlocks, mem_filter, mem_range]

/-- The places on the way to the logical blocks `lo`, ..., `lo + n - 1` that are empty. -/
def lacking (d : Nat → Buf) (nd : Inode) (lo n : Nat) : Finset Slot :=
  ((Finset.range n).biUnion fun i => way (lo + i)).filter fun s => tree d nd s = 0

section

variable {ino : Nat} {v v1 v2 : Vol} {nd nd1 nd2 : Inode} {S T : Slot → Prop}

theorem Held.finite (h : Held v ino nd) : (support (tree v.disk nd)).Finite :=
  finite_support h.lt fun _ _ hs heq => h.inj hs heq

/-- The tree grows in the places `S` only, by the blocks that are taken, and the inode
is charged for them. -/
structure Adds (ino : Nat) (S : Slot → Prop) (v : Vol) (nd : Inode) (v' : Vol) (nd' : Inode) : Prop
    extends Fill ino v nd v' nd' where
  within : ∀ s, s ∈ added (tree v.disk nd) (tree v'.disk nd') → S s
  taken : ∀ c, usedBlock v' c = true →
    usedBlock v c = true ∨ c ∈ tree v'.disk nd' '' added (tree v.disk nd) (tree v'.disk nd')
  charged : nd'.blocks512 =
    (nd.blocks512 + 8 * (added (tree v.disk nd) (tree v'.disk nd')).ncard) % 4294967296
  hint : added (tree v.disk nd) (tree v'.disk nd') = ∅ → v'.nextAllocBlock = v.nextAllocBlock

theorem Fill.adds_of_tree (hf : Fill ino v nd v1 nd1) (hfits : nd.Fits)
    (htree : tree v1.disk nd1 = tree v.disk nd) (hused : ∀ c, usedBlock v1 c = usedBlock v c)
    (hcount : nd1.blocks512 = nd.blocks512) (hhint : v1.nextAllocBlock = v.nextAllocBlock) :
    Adds ino S v nd v1 nd1 := by
  refine ⟨hf, fun s hs => ?_, fun c hc => .inl (hused c ▸ hc), ?_, fun _ => hhint⟩
  · rw [htree, added_self] at hs
    exact hs.elim
  · rw [htree, added_self, Set.ncard_empty, hcount]
    exact (Nat.mod_eq_of_lt hfits.blocks512).symm

theorem Adds.refl (hv : Ready v) (h : Held v ino nd) : Adds ino S v nd v nd :=
  (Fill.refl hv h).adds_of_tree h.fits rfl (fun _ => rfl) rfl rfl

theorem Adds.mono (h : Adds ino S v nd v1 nd1) (hST : ∀ s, S s → T s) : Adds ino T v nd v1 nd1 :=
  { h with within := fun s hs => hST s (h.within s hs) }

theorem Adds.trans (h : Adds ino S v nd v1 nd1) (k : Adds ino S v1 nd1 v2 nd2) :
    Adds ino S v nd v2 nd2 := by
  have hadded := added_trans h.keep k.keep
  refine ⟨h.toFill.trans k.toFill, fun s hs => ?_, fun c hc => ?_, ?_, fun hnone => ?_⟩
  · rw [hadded] at hs
    exact hs.elim (h.within s) (k.within s)
  · rw [hadded]
    obtain hc1 | ⟨s, hs, hsc⟩ := k.taken c hc
    · refine (h.taken c hc1).imp_right ?_
      rintro ⟨s, hs, hsc⟩
      exact ⟨s, .inl hs, (k.keep s hs.2).trans hsc⟩
    · exact .inr ⟨s, .inr hs, hsc⟩
  · rw [k.charged, h.charged, ncard_added_trans h.keep k.keep k.held.finite]
    omega
  · rw [hadded, Set.union_empty_iff] at hnone
    exact (k.hint hnone.2).trans (h.hint hnone.1)

theorem Allocated.used_or (ha : Allocated v v1 b 1) (hc : usedBlock v1 c = true) :
    usedBlock v c = true ∨ c = b := by
  rw [ha.used, Bool.or_eq_true, decide_eq_true_eq] at hc
  exact hc.symm.imp_right fun h => by omega

/-- The tree can be filled up to a point where a block is needed and none is free. -/
def Starved (ino : Nat) (S : Slot → Prop) (v : Vol) (nd : Inode) : Prop :=
  ∃ v₁ nd₁, Adds ino S v nd v₁ nd₁ ∧ Full v₁ ∧ ∃ s, S s ∧ tree v₁.disk nd₁ s = 0

def NoRoom (ino : Nat) (v : Vol) (nd : Inode) (e : Fail) (v' : Vol) : Prop :=
  e = .noBlock ∧ Full v' ∧ ∃ nd', Grow ino v nd v' nd'

def Unplaced (ino : Nat) (v : Vol) (nd : Inode) (v' : Vol) : Prop :=
  ∃ nd', Grow ino v nd v' nd' ∧ ∀ m, tree v'.disk nd' (dataSlot m) = tree v.disk nd (dataSlot m)

theorem Unplaced.of_idle (h : Held v ino nd) (hidle : Idle v v') : Unplaced ino v nd v' := by
  refine ⟨nd, hidle.grow h, fun m => ?_⟩
  rw [tree_congr fun p hp => hidle.disk _ (by have := h.ptr_ge hp; omega) id]

theorem Unplaced.after (hp : Placed ino v nd v1 nd1 p.slot b zero) (h : Unplaced ino v1 nd1 v') :
    Unplaced ino v nd v' := by
  obtain ⟨nd', hg, hdata⟩ := h
  exact ⟨nd', hp.toGrow.trans hg, fun m =>
    (hdata m).trans (hp.elsewhere _ (dataSlot_ne_slot m p))⟩

def Lacks (ino : Nat) (S : Slot → Prop) (v : Vol) (nd : Inode) (e : Fail) (v' : Vol) : Prop :=
  e = .noBlock ∧ Full v' ∧ Unplaced ino v nd v' ∧ Starved ino S v nd

theorem Lacks.noRoom (h : Lacks ino S v nd e v') : NoRoom ino v nd e v' :=
  ⟨h.1, h.2.1, h.2.2.1.imp fun _ => And.left⟩

def Short (v : Vol) (nd : Inode) (s : Slot) (e : Fail) (v' : Vol) : Prop :=
  e = .noBlock ∧ Idle v v' ∧ Full v ∧ tree v.disk nd s = 0

theorem Short.lacks (h : Short v nd s e v') (hv : Ready v) (hheld : Held v ino nd) (hs : S s) :
    Lacks ino S v nd e v' := by
  obtain ⟨he, hidle, hfull, h0⟩ := h
  exact ⟨he, fun c h1 h2 => (hidle.usedBlock c).trans (hfull c h1 h2), .of_idle hheld hidle, v, nd,
    .refl hv hheld, hfull, s, hs, h0⟩

structure Puts (ino : Nat) (v : Vol) (nd : Inode) (v' : Vol) (nd' : Inode) (s : Slot) (b : Nat)
    (zero : Bool) : Prop extends Placed ino v nd v' nd' s b zero where
  adds : Adds ino (· = s) v nd v' nd'

theorem Placed.puts (h : Placed ino v nd v1 nd1 s b zero) (h0 : tree v.disk nd s = 0)
    (hused : ∀ c, usedBlock v1 c = true → usedBlock v c = true ∨ c = b)
    (hcount : nd1.blocks512 = (nd.blocks512 + 8) % 4294967296) : Puts ino v nd v1 nd1 s b zero := by
  have htree : tree v1.disk nd1 = update (tree v.disk nd) s b := by
    funext t
    by_cases ht : t = s
    · rw [ht, h.here, update_self]
    · rw [h.elsewhere t ht, update_of_ne ht]
  have hadded : added (tree v.disk nd) (tree v1.disk nd1) = {s} := by
    rw [htree, added_update h0 h.nonzero]
  refine ⟨h, h.toFill, fun t ht => by rwa [hadded] at ht, fun c hc => ?_, ?_,
    fun hnone => absurd (hadded.symm.trans hnone) (Set.singleton_ne_empty s)⟩
  · refine (hused c hc).imp_right fun hcb => ?_
    rw [hadded, Set.image_singleton, h.here]
    exact hcb
  · rw [hadded, Set.ncard_singleton, hcount]

theorem ensureRootBlock_eq (nd : Inode) (k : Nat) :
    ensureRootBlock nd k = (if nd.block k = 0 then do
        let b ← allocBlockWithZero true
        pure ((nd.setBlock k b).chargeBlocks 1, b)
      else pure (nd, nd.block k)) >>= fun r => pure r.1 := by
  unfold ensureRootBlock allocBlock
  split_ifs <;> simp

section

variable (hv : Ready v) (h : Held v ino nd)
include hv h

theorem ensureRoot_post (hk : k < 14) (zero : Bool) (hz : 12 ≤ k → zero = true) :
    Post (if nd.block k = 0 then do
        let b ← allocBlockWithZero zero
        pure ((nd.setBlock k b).chargeBlocks 1, b)
      else pure (nd, nd.block k)) v
      (fun r v' => Puts ino v nd v' r.1 (.root k) r.2 zero) (Short v nd (.root k)) := by
  have hroot := tree_root v.disk nd hk
  refine .branch (fun h0 => ?_) (fun h0 => ?_)
  · refine .bind (allocBlockWithZero_post hv zero) ?_ ?_
    · rintro e v' ⟨he, hi, hfull⟩
      exact ⟨he, hi, hfull, hroot.trans h0⟩
    · rintro b v' ⟨ha, hb⟩
      have hclean : zero = true → v'.disk b = zeros := fun hzero => by rw [hb, hzero, if_pos rfl]
      obtain ⟨hg, ht⟩ := insertRoot_grow h hk h0 ha fun h12 => hclean (hz h12)
      have hplaced := Placed.of_update hg ht (by have := ha.low; omega) hclean
      exact .ret (hplaced.puts (hroot.trans h0) (fun c hc => ha.used_or hc) rfl)
  · have hp := Placed.of_present (s := .root k) hv h zero (by rwa [hroot])
    rw [hroot] at hp
    exact .ret ⟨hp, .refl hv h⟩

theorem ensureRootBlock_post (hk : k < 14) : Post (ensureRootBlock nd k) v
      (fun nd' v' => Puts ino v nd v' nd' (.root k) (nd'.block k) true) (Short v nd (.root k)) := by
  rw [ensureRootBlock_eq]
  refine .seq (ensureRoot_post hv h hk true fun _ => rfl) ?_
  rintro ⟨nd', b⟩ v' hp
  have hb : nd'.block k = b := by
    have := hp.here
    simpa only [tree, hk, if_true] using this
  rw [← hb] at hp
  exact .ret hp

theorem ensurePtrEntry_post (hP : ptr v.disk nd p ≠ 0) (hi : i < 1024) (zero : Bool)
    (hz : p = .double → zero = true) : Post (ensurePtrEntry nd (ptr v.disk nd p) i zero) v
      (fun r v' => Puts ino v nd v' r.1 (.entry p i) r.2 zero) (Short v nd (.entry p i)) := by
  have hlt := h.ptr_lt p
  refine .bind_get ?_
  rw [ptrBlockEntry_eq hv hlt]
  refine .branch (fun h0 => ?_) (fun h0 => .ret ⟨.of_present hv h zero h0, .refl hv h⟩)
  refine .bind (allocBlockWithZero_post hv zero) ?_ ?_
  · rintro e v' ⟨he, hidle, hfull⟩
    exact ⟨he, hidle, hfull, h0⟩
  · rintro b v' ⟨ha, hb⟩
    have hclean : zero = true → v'.disk b = zeros := fun hzero => by rw [hb, hzero, if_pos rfl]
    obtain ⟨hg, ht⟩ := insertEntry_grow h hP hi h0 ha fun hp => hclean (hz hp)
    refine .bind_run (setPtrBlockEntry_run ha.ready hP hlt hi b) (.ret ?_)
    have hP36 := h.ptr_ge hP
    have hapart := ha.apart (h.ptr_live hP).2.2
    have hbits := setBlock_bits (v := v') (show 4 ≤ ptr v.disk nd p by omega)
      (writeU32 (v'.disk (ptr v.disk nd p)) (4 * i) b)
    have hplaced := Placed.of_update hg ht (by have := ha.low; omega) fun hzero =>
      (setBlock_of_ne (show b ≠ ptr v.disk nd p by omega)).trans (hclean hzero)
    exact hplaced.puts h0 (fun c hc => ha.used_or ((hbits.usedBlock c).symm.trans hc)) rfl

end

structure Maps (ino : Nat) (v : Vol) (nd : Inode) (v' : Vol) (nd' : Inode) (logical b : Nat)
    (zero : Bool) : Prop extends Mapped ino v nd v' nd' logical b zero where
  adds : Adds ino (· ∈ way logical) v nd v' nd'

theorem Puts.maps (h : Puts ino v nd v' nd' (dataSlot logical) b zero) :
    Maps ino v nd v' nd' logical b zero :=
  ⟨h.toPlaced.mapped, h.adds.mono fun _ hs => hs ▸ dataSlot_mem_way logical⟩

section

variable (h : Puts ino v nd v1 nd1 p.slot P true) (hp : p.Leads logical)
include h hp

theorem Puts.onWay : Adds ino (· ∈ way logical) v nd v1 nd1 := h.adds.mono fun _ hs => hs ▸ hp.mem_way

theorem Puts.then_maps (k : Maps ino v1 nd1 v' nd' logical b zero) :
    Maps ino v nd v' nd' logical b zero :=
  ⟨h.toPlaced.then_mapped hp k.toMapped, (h.onWay hp).trans k.adds⟩

theorem Puts.then_lacks (k : Lacks ino (· ∈ way logical) v1 nd1 e v') :
    Lacks ino (· ∈ way logical) v nd e v' := by
  obtain ⟨he, hfull, hun, v2, nd2, hadds, hend⟩ := k
  exact ⟨he, hfull, .after h.toPlaced hun, v2, nd2, (h.onWay hp).trans hadds, hend⟩

end

theorem inodeGetDataBlockEx_post (hv : Ready v) (h : Held v ino nd)
    (hl : logical < maxLogical) (zero : Bool) : Post (inodeGetDataBlockEx nd logical zero) v
      (fun r v' => Maps ino v nd v' r.1 logical r.2 zero) (Lacks ino (· ∈ way logical) v nd) := by
  unfold maxLogical at hl
  have hdata := dataSlot_mem_way logical
  refine .branch (fun h12 => ?_) fun h12 => .branch (fun h1036 => ?_) fun h1036 =>
    .branch (fun hbig => by omega) fun hbig => ?_
  · have hslot := dataSlot_direct h12
    have hroot := ensureRoot_post hv h (k := logical) (by omega) zero (by omega)
    rw [← hslot] at hroot
    exact hroot.mono (fun _ _ hp => hp.maps) fun _ _ he => he.lacks hv h hdata
  · have hslot := dataSlot_single h12 h1036
    have hlead : Ptr.single.Leads logical := ⟨by omega, by omega⟩
    refine .bind (ensureRootBlock_post hv h (by decide))
      (fun _ _ he => he.lacks hv h hlead.mem_way) fun nd1 v1 hp => ?_
    have hroot : nd1.block 12 = ptr v1.disk nd1 .single := rfl
    have hentry := ensurePtrEntry_post hp.ready hp.held (p := .single) (hroot ▸ hp.nonzero)
      (i := logical - 12) (by omega) zero (by simp)
    rw [← hslot] at hentry
    exact hentry.mono (fun _ _ hq => hp.then_maps hlead hq.maps)
      fun _ _ he => hp.then_lacks hlead (he.lacks hp.ready hp.held hdata)
  · have hslot := dataSlot_double h12 h1036
    have hlead : Ptr.double.Leads logical := show 12 + 1024 ≤ logical by omega
    have hlead' : (Ptr.outer ((logical - 12 - 1024) / 1024)).Leads logical := ⟨by omega, rfl⟩
    refine .bind (ensureRootBlock_post hv h (by decide))
      (fun _ _ he => he.lacks hv h hlead.mem_way) fun nd1 v1 hp => ?_
    have hroot : nd1.block 13 = ptr v1.disk nd1 .double := rfl
    refine .bind (ensurePtrEntry_post hp.ready hp.held (p := .double) (hroot ▸ hp.nonzero)
      (by omega) true fun _ => rfl)
      (fun _ _ he => hp.then_lacks hlead (he.lacks hp.ready hp.held hlead'.mem_way)) ?_
    rintro ⟨nd2, indirect⟩ v2 (hq : Puts ino v1 nd1 v2 nd2 (Ptr.outer _).slot indirect true)
    have hind : indirect = ptr v2.disk nd2 (.outer ((logical - 12 - 1024) / 1024)) := by
      rw [← tree_slot]
      exact hq.here.symm
    have hne : ptr v2.disk nd2 (.outer ((logical - 12 - 1024) / 1024)) ≠ 0 := by
      rw [← hind]
      exact hq.nonzero
    have hentry := ensurePtrEntry_post hq.ready hq.held hne
      (i := (logical - 12 - 1024) % 1024) (Nat.mod_lt _ (by decide)) zero (by simp)
    rw [← hslot, ← hind] at hentry
    exact hentry.mono (fun _ _ hr => hp.then_maps hlead (hq.then_maps hlead' hr.maps))
      fun _ _ he => hp.then_lacks hlead (hq.then_lacks hlead' (he.lacks hq.ready hq.held hdata))

end

end SmallOS.Ext2
