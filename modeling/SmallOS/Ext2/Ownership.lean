import SmallOS.Ext2.Allocation
import SmallOS.Ext2.BlockTree
import SmallOS.Lib.Ownership

/-! Who owns which block. A place is a root pointer of an inode or an entry of one of its pointer
blocks; `tree` gives the block number stored there, zero when there is none.

An operation works on a copy of one inode. `Held v ino nd` is consistency with the record of `ino`
replaced by the copy, and `TreeStep` is what every operation on that copy guarantees to everybody
else. -/

namespace SmallOS.Ext2
open Bytes Prog Ownership Function Inode

variable {nd' : Inode} {j : Nat} {d d' : Nat → Buf} {T : Table} {v' v1 v2 : Vol}

inductive Ptr
  | single
  | double
  | outer (o : Nat)
  deriving DecidableEq, Repr

inductive Slot
  | root (k : Nat)
  | entry (p : Ptr) (i : Nat)
  deriving DecidableEq, Repr

def entryAt (d : Nat → Buf) (b i : Nat) : Nat :=
  if b = 0 ∨ 1024 ≤ i then 0 else readU32 (d b) (4 * i)

def ptr (d : Nat → Buf) (nd : Inode) : Ptr → Nat
  | .single => nd.block 12
  | .double => nd.block 13
  | .outer o => entryAt d (nd.block 13) o

def tree (d : Nat → Buf) (nd : Inode) : Slot → Nat
  | .root k => if k < 14 then nd.block k else 0
  | .entry p i => entryAt d (ptr d nd p) i

def Ptr.slot : Ptr → Slot
  | .single => .root 12
  | .double => .root 13
  | .outer o => .entry .double o

theorem tree_root (d : Nat → Buf) (nd : Inode) {k : Nat} (h : k < 14) :
    tree d nd (.root k) = nd.block k :=
  if_pos h

theorem tree_slot (d : Nat → Buf) (nd : Inode) (p : Ptr) : tree d nd p.slot = ptr d nd p := by
  cases p <;> rfl

variable {p q : Ptr}

theorem Ptr.slot_inj (h : p.slot = q.slot) : p = q := by
  cases p <;> cases q <;> simp_all [Ptr.slot]

def dataSlot (logical : Nat) : Slot :=
  if logical < 12 then .root logical
  else if logical - 12 < 1024 then .entry .single (logical - 12)
  else .entry (.outer ((logical - 12 - 1024) / 1024)) ((logical - 12 - 1024) % 1024)

section

variable {l : Nat}

theorem dataSlot_direct (h : l < 12) : dataSlot l = .root l := if_pos h

variable (h12 : ¬l < 12)
include h12

theorem dataSlot_single (h : l - 12 < 1024) : dataSlot l = .entry .single (l - 12) := by
  simp only [dataSlot, h12, h, if_true, if_false]

theorem dataSlot_double (h : ¬l - 12 < 1024) :
    dataSlot l = .entry (.outer ((l - 12 - 1024) / 1024)) ((l - 12 - 1024) % 1024) := by
  simp only [dataSlot, h12, h, if_false]

end

def Ptr.Leads (logical : Nat) : Ptr → Prop
  | .single => 12 ≤ logical ∧ logical < 12 + 1024
  | .double => 12 + 1024 ≤ logical
  | .outer o => 12 + 1024 ≤ logical ∧ (logical - 12 - 1024) / 1024 = o

theorem dataSlot_ne_slot (logical : Nat) (p : Ptr) : dataSlot logical ≠ p.slot := by
  unfold dataSlot
  split_ifs <;> cases p <;> simp [Ptr.slot] <;> omega

theorem entryAt_zero (d : Nat → Buf) (i : Nat) : entryAt d 0 i = 0 := by
  simp only [entryAt, true_or, if_true]

variable {nd : Inode} {v : Vol} {ino : Nat}

theorem Ptr.Leads.ptr_ne {logical : Nat}
    (h : p.Leads logical) (hne : tree d nd (dataSlot logical) ≠ 0) : ptr d nd p ≠ 0 := by
  intro h0
  refine hne ?_
  cases p with
  | single =>
    obtain ⟨hlow, hhigh⟩ := h
    simp only [dataSlot_single (show ¬logical < 12 by omega) (by omega), tree, h0, entryAt_zero]
  | double =>
    have hlow : 12 + 1024 ≤ logical := h
    have h0 : nd.block 13 = 0 := h0
    simp only [dataSlot_double (show ¬logical < 12 by omega) (by omega), tree, ptr, h0, entryAt_zero]
  | outer o =>
    obtain ⟨hlow, rfl⟩ := h
    simp only [dataSlot_double (show ¬logical < 12 by omega) (by omega), tree, h0, entryAt_zero]

theorem dataSlot_inj {l m : Nat} (h : dataSlot l = dataSlot m) : l = m := by
  unfold dataSlot at h
  split_ifs at h <;> simp at h <;> omega

theorem entryAt_congr {b i : Nat} (h : b ≠ 0 → d' b = d b) : entryAt d' b i = entryAt d b i := by
  unfold entryAt
  split_ifs with hb
  · rfl
  · rw [h (by tauto)]

theorem tree_congr
    (h : ∀ p, ptr d nd p ≠ 0 → d' (ptr d nd p) = d (ptr d nd p)) : tree d' nd = tree d nd := by
  have hptr : ∀ p, ptr d' nd p = ptr d nd p := by
    intro p
    cases p with
    | single => rfl
    | double => rfl
    | outer o => exact entryAt_congr (h .double)
  funext s
  cases s with
  | root k => rfl
  | entry p i =>
    simp only [tree, hptr p]
    exact entryAt_congr (h p)

def Inode.Sub (nd nd' : Inode) : Prop := ∀ k, nd.block k = 0 ∨ nd.block k = nd'.block k

def Ptr.root : Ptr → Nat
  | .single => 12
  | _ => 13

theorem Ptr.root_lt (p : Ptr) : p.root < 14 := by
  cases p <;> simp [Ptr.root]

theorem tree_entry_zero (h : nd.block p.root = 0) (i : Nat) : tree d nd (.entry p i) = 0 := by
  cases p <;> simp only [Ptr.root] at h <;> simp only [tree, ptr, h, entryAt_zero]

theorem tree_entry_congr (h : nd.block p.root = nd'.block p.root) (i : Nat) :
    tree d nd (.entry p i) = tree d nd' (.entry p i) := by
  cases p <;> simp only [Ptr.root] at h <;> simp only [tree, ptr, h]

theorem tree_sub (h : nd.Sub nd') (s : Slot) : tree d nd s = 0 ∨ tree d nd s = tree d nd' s := by
  cases s with
  | root k =>
    simp only [tree]
    split_ifs
    · exact h k
    · exact .inl rfl
  | entry p i => exact (h p.root).imp (tree_entry_zero · i) (tree_entry_congr · i)

theorem tree_zero_roots (h : ∀ k, k < 14 → nd.block k = 0) (s : Slot) : tree d nd s = 0 := by
  cases s with
  | root k =>
    simp only [tree]
    split_ifs with hk
    · exact h k hk
    · rfl
  | entry p i => exact tree_entry_zero (h p.root p.root_lt) i

def DataLive (v : Vol) (b : Nat) : Prop := 36 ≤ b ∧ b < 8192 ∧ usedBlock v b = true

def owner (d : Nat → Buf) (T : Table) : Nat × Slot → Nat := fun k => tree d (T k.1) k.2

structure Holds (v : Vol) (T : Table) : Prop where
  owns : Owns (DataLive v) (owner v.disk T)
  reserved : ∀ b, b < 36 → usedBlock v b = true

/-- What a record holds blocks with: the first pointer of a device, pipe or socket is
its device number. -/
def Inode.owned (nd : Inode) : Inode :=
  if inodeIsSpecial nd then { nd with block := fun _ => 0 } else nd

def books (v : Vol) : Table := fun ino => (table v ino).owned

/-- Every block number in the tree of an inode record is a data block in use and
occurs once over all records, and no metadata block is free. -/
def Consistent (v : Vol) : Prop := Holds v (books v)

structure Held (v : Vol) (ino : Nat) (nd : Inode) : Prop
    extends Holds v (update (books v) ino nd) where
  fits : nd.Fits

theorem Inode.owned_of_not_special (h : inodeIsSpecial nd = false) : nd.owned = nd := by
  simp only [owned, h, Bool.false_eq_true, if_false]

theorem Inode.owned_sub (nd : Inode) : nd.owned.Sub nd := by
  unfold owned
  split_ifs
  · exact fun _ => .inl rfl
  · exact fun _ => .inr rfl

theorem Inode.Fits.owned (h : nd.Fits) : nd.owned.Fits := by
  unfold Inode.owned
  split_ifs
  · exact { h with block := fun _ => (by decide : 0 < 4294967296), blockEnd := fun _ _ => rfl }
  · exact h

theorem inodeIsSpecial_of_isFile (h : inodeIsFile nd = true) : inodeIsSpecial nd = false := by
  simp only [inodeIsFile, beq_iff_eq] at h
  simp only [inodeIsSpecial, h]
  rfl

theorem inodeIsSpecial_of_isDir (h : inodeIsDir nd = true) : inodeIsSpecial nd = false := by
  simp only [inodeIsDir, beq_iff_eq] at h
  simp only [inodeIsSpecial, h]
  rfl

theorem inodeIsSpecial_of_isSymlink (h : inodeIsSymlink nd = true) : inodeIsSpecial nd = false := by
  simp only [inodeIsSymlink, beq_iff_eq] at h
  simp only [inodeIsSpecial, h]
  rfl

theorem books_congr (h : ∀ c, 4 ≤ c → c < 36 → v'.disk c = v.disk c) : books v' = books v := by
  unfold books
  rw [table_congr h]

theorem Consistent.held (h : Consistent v)
    (hs : inodeIsSpecial (table v ino) = false) : Held v ino (table v ino) := by
  refine ⟨?_, table_fits v ino⟩
  have hself : books v ino = table v ino := owned_of_not_special hs
  rw [← hself, update_eq_self]
  exact h

section Held

theorem owner_update_self (d : Nat → Buf) (T : Table) (s : Slot) :
    owner d (update T ino nd) (ino, s) = tree d nd s := by
  simp only [owner, update_self]

theorem owner_update_of_ne (d : Nat → Buf) (T : Table) (s : Slot) (hj : j ≠ ino) :
    owner d (update T ino nd) (j, s) = tree d (T j) s := by
  simp only [owner, update_of_ne hj]

variable {s : Slot}

section

variable (h : Held v ino nd)
include h

theorem Held.live (hs : tree v.disk nd s ≠ 0) : DataLive v (tree v.disk nd s) := by
  have := h.owns.live (ino, s)
  rw [owner_update_self] at this
  exact this hs

theorem Held.inj {t : Slot} (hs : tree v.disk nd s ≠ 0)
    (heq : tree v.disk nd s = tree v.disk nd t) : s = t := by
  have := h.owns.inj (ino, s) (ino, t)
  rw [owner_update_self, owner_update_self] at this
  exact congrArg Prod.snd (this hs heq)

theorem Held.other_live (hj : j ≠ ino)
    (hs : tree v.disk (books v j) s ≠ 0) : DataLive v (tree v.disk (books v j) s) := by
  have := h.owns.live (j, s)
  rw [owner_update_of_ne _ _ _ hj] at this
  exact this hs

theorem Held.other_apart (hj : j ≠ ino) (hs : tree v.disk (books v j) s ≠ 0) (t : Slot) :
    tree v.disk nd t ≠ tree v.disk (books v j) s := by
  intro heq
  have := h.owns.inj (j, s) (ino, t)
  rw [owner_update_of_ne _ _ _ hj, owner_update_self] at this
  exact hj (congrArg Prod.fst (this hs heq.symm))

theorem Held.lt (s : Slot) : tree v.disk nd s < 8192 := by
  by_cases hs : tree v.disk nd s = 0
  · omega
  · exact (h.live hs).2.1

theorem Held.ptr_lt (p : Ptr) : ptr v.disk nd p < 8192 := by
  rw [← tree_slot]
  exact h.lt p.slot

theorem Held.ptr_live (hp : ptr v.disk nd p ≠ 0) : DataLive v (ptr v.disk nd p) := by
  rw [← tree_slot] at hp ⊢
  exact h.live hp

theorem Held.ptr_ge (hp : ptr v.disk nd p ≠ 0) : 36 ≤ ptr v.disk nd p :=
  (h.ptr_live hp).1

theorem Held.ptr_inj (hp : ptr v.disk nd p ≠ 0)
    (heq : ptr v.disk nd p = ptr v.disk nd q) : p = q := by
  rw [← tree_slot] at hp heq
  rw [← tree_slot v.disk nd q] at heq
  exact Ptr.slot_inj (h.inj hp heq)

end

end Held

theorem tree_other (h : Held v ino nd) (hj : j ≠ ino)
    (others : ∀ c, DataLive v c → (∀ s, tree v.disk nd s ≠ c) → v'.disk c = v.disk c) :
    tree v'.disk (books v j) = tree v.disk (books v j) := by
  refine tree_congr fun p hp => ?_
  rw [← tree_slot] at hp ⊢
  exact others _ (h.other_live hj hp) fun s => h.other_apart hj hp s

/-- What the rest of the volume is promised while a tree changes from `t` to `t'`: the
other blocks in use stay in use with their contents, and the new tree has blocks of
the old tree and blocks that were free. -/
structure Frame (v : Vol) (t : Slot → Nat) (v' : Vol) (t' : Slot → Nat) : Prop where
  others : ∀ c, DataLive v c → (∀ s, t s ≠ c) → usedBlock v' c = true ∧ v'.disk c = v.disk c
  origin : ∀ s, t' s ≠ 0 → (∃ r, t r = t' s) ∨ usedBlock v (t' s) = false

theorem Frame.refl (v : Vol) (t : Slot → Nat) : Frame v t v t :=
  ⟨fun _ hc _ => ⟨hc.2.2, rfl⟩, fun s _ => .inl ⟨s, rfl⟩⟩

variable {t : Slot → Nat}

theorem Frame.pass {t' : Slot → Nat} (h : Frame v t v' t') {c : Nat}
    (hc : DataLive v c) (hno : ∀ s, t s ≠ c) : DataLive v' c ∧ ∀ s, t' s ≠ c := by
  refine ⟨⟨hc.1, hc.2.1, (h.others c hc hno).1⟩, fun s hs => ?_⟩
  have h0 : t' s ≠ 0 := by have := hc.1; omega
  obtain ⟨r, hr⟩ | hfree := h.origin s h0
  · exact hno r (hr.trans hs)
  · rw [hs, hc.2.2] at hfree
    cases hfree

theorem Frame.free_or_held {t' : Slot → Nat} (h : Frame v t v' t') {c : Nat} (hlow : 36 ≤ c)
    (hhigh : c < 8192) (hc : usedBlock v' c = false ∨ ∃ s, t' s = c) :
    usedBlock v c = false ∨ ∃ s, t s = c := by
  by_contra hout
  obtain ⟨hused, hno⟩ := not_or.mp hout
  obtain ⟨hlive, hno'⟩ := h.pass ⟨hlow, hhigh, by simpa using hused⟩ (not_exists.mp hno)
  obtain hfree | ⟨s, hs⟩ := hc
  · exact absurd (hlive.2.2.symm.trans hfree) (by decide)
  · exact hno' s hs

theorem Frame.trans {t1 t2 : Slot → Nat} (h : Frame v t v1 t1)
    (k : Frame v1 t1 v2 t2) (live : ∀ s, t2 s ≠ 0 → DataLive v2 (t2 s)) : Frame v t v2 t2 := by
  constructor
  · intro c hc hno
    obtain ⟨hc1, hno1⟩ := h.pass hc hno
    exact ⟨(k.others c hc1 hno1).1, (k.others c hc1 hno1).2.trans (h.others c hc hno).2⟩
  · intro s hs
    by_cases hused : usedBlock v (t2 s) = true
    · by_contra hcon
      rw [not_or, not_exists] at hcon
      obtain ⟨hc1, hno1⟩ := h.pass ⟨(live s hs).1, (live s hs).2.1, hused⟩ hcon.1
      obtain ⟨r, hr⟩ | hfree := k.origin s hs
      · exact hno1 r hr
      · rw [hc1.2.2] at hfree
        cases hfree
    · exact .inr (by simpa using hused)

/-- What an operation on the copy `nd` of inode `ino` guarantees before it is written back. -/
structure TreeStep (ino : Nat) (v : Vol) (nd : Inode) (v' : Vol) (nd' : Inode) : Prop
    extends Frame v (tree v.disk nd) v' (tree v'.disk nd') where
  ready : Ready v'
  env : SameEnv v v'
  inodes : inodeBits v' = inodeBits v
  records : ∀ c, 4 ≤ c → c < 36 → v'.disk c = v.disk c
  held : Held v' ino nd'

theorem TreeStep.table (h : TreeStep ino v nd v' nd') : table v' = table v :=
  table_congr h.records

theorem TreeStep.refl (hv : Ready v) (h : Held v ino nd) : TreeStep ino v nd v nd :=
  ⟨Frame.refl v _, hv, SameEnv.refl v, rfl, fun _ _ _ => rfl, h⟩

theorem TreeStep.trans {nd1 nd2 : Inode}
    (h : TreeStep ino v nd v1 nd1) (k : TreeStep ino v1 nd1 v2 nd2) : TreeStep ino v nd v2 nd2 :=
  ⟨h.toFrame.trans k.toFrame fun _ hs => k.held.live hs, k.ready, h.env.trans k.env,
    k.inodes.trans h.inodes, fun c h1 h2 => (k.records c h1 h2).trans (h.records c h1 h2), k.held⟩

theorem TreeStep.intro (h : Held v ino nd)
    (ready : Ready v') (env : SameEnv v v') (inodes : inodeBits v' = inodeBits v)
    (records : ∀ c, 4 ≤ c → c < 36 → v'.disk c = v.disk c) (fits : nd'.Fits)
    (reserved : ∀ b, b < 36 → usedBlock v' b = true)
    (others : ∀ c, DataLive v c → (∀ s, tree v.disk nd s ≠ c) →
      usedBlock v' c = true ∧ v'.disk c = v.disk c)
    (live : ∀ s, tree v'.disk nd' s ≠ 0 → DataLive v' (tree v'.disk nd' s))
    (origin : ∀ s, tree v'.disk nd' s ≠ 0 →
      (∃ t, tree v.disk nd t = tree v'.disk nd' s) ∨ usedBlock v (tree v'.disk nd' s) = false)
    (inj : ∀ s t, tree v'.disk nd' s ≠ 0 → tree v'.disk nd' s = tree v'.disk nd' t → s = t) :
    TreeStep ino v nd v' nd' := by
  refine ⟨⟨others, origin⟩, ready, env, inodes, records, ⟨⟨?_, reserved⟩, fits⟩⟩
  rw [books_congr records]
  refine h.owns.replace ino ?_ ?_ ?_ ?_ ?_
  · intro j s hj
    rw [owner_update_of_ne _ _ _ hj, owner_update_of_ne _ _ _ hj,
      tree_other h hj fun c hc hno => (others c hc hno).2]
  · intro j s hj hs
    rw [owner_update_of_ne _ _ _ hj] at hs ⊢
    have hlive := h.other_live hj hs
    exact ⟨hlive.1, hlive.2.1, (others _ hlive fun t => h.other_apart hj hs t).1⟩
  · intro s hs
    rw [owner_update_self] at hs ⊢
    exact live s hs
  · intro s hs
    rw [owner_update_self] at hs
    simp only [owner_update_self]
    refine (origin s hs).imp id fun hfree hlive => ?_
    rw [hlive.2.2] at hfree
    cases hfree
  · intro s t hs heq
    rw [owner_update_self] at hs heq
    rw [owner_update_self] at heq
    exact inj s t hs heq

theorem Held.sub (h : Held v ino nd') (hsub : nd.Sub nd') (fits : nd.Fits) : Held v ino nd := by
  refine ⟨⟨h.owns.restrict ?_ ?_, h.reserved⟩, fits⟩
  · rintro ⟨j, s⟩
    by_cases hj : j = ino
    · subst hj
      simp only [owner_update_self]
      exact tree_sub hsub s
    · simp only [owner_update_of_ne _ _ _ hj, or_true]
  · rintro ⟨j, s⟩ hs
    by_cases hj : j = ino
    · subst hj
      rw [owner_update_self] at hs ⊢
      have heq := (tree_sub hsub s).resolve_left hs
      rw [heq] at hs ⊢
      exact h.live hs
    · rw [owner_update_of_ne _ _ _ hj] at hs ⊢
      exact h.other_live hj hs

theorem Holds.transfer (h : Holds v T)
    (disk : ∀ c, 36 ≤ c → v'.disk c = v.disk c) (used : ∀ c, usedBlock v' c = usedBlock v c) :
    Holds v' T := by
  have htree : owner v'.disk T = owner v.disk T := by
    funext ⟨j, s⟩
    refine congrFun (tree_congr fun p hp => disk _ ?_) s
    rw [← tree_slot] at hp ⊢
    exact (h.owns.live (j, p.slot) hp).1
  refine ⟨?_, fun b hb => (used b).trans (h.reserved b hb)⟩
  rw [htree]
  exact h.owns.mono fun b hb => ⟨hb.1, hb.2.1, (used b).trans hb.2.2⟩

theorem Consistent.transfer (h : Consistent v) (heff : Effect v v' (fun _ => False))
    (hbits : blockBits v' = blockBits v) : Consistent v' := by
  unfold Consistent
  rw [books_congr fun c hc _ => heff.disk c hc id]
  exact Holds.transfer h (fun c hc => heff.disk c (by omega) id) fun c => by
    simp only [usedBlock, hbits]

theorem Held.consistent (h : Held v ino (table v ino)) : Consistent v := by
  have hsub : (books v ino).Sub (table v ino) := owned_sub _
  have := (h.sub hsub (h.fits.owned)).toHolds
  rwa [update_eq_self] at this

theorem books_putInode (v : Vol) (hi : ValidIno ino) (hf : nd.Fits) :
    books (putInode v ino nd) = update (books v) ino nd.owned := by
  funext j
  unfold books
  rw [table_putInode_of_fits v hi hf]
  by_cases hj : j = ino
  · subst hj
    simp only [update_self]
  · simp only [update_of_ne hj]

theorem Held.putInode (h : Held v ino nd) (hv : Ready v)
    (hi : ValidIno ino) (hf : nd'.Fits) : Held (putInode v ino nd') ino nd := by
  refine ⟨?_, h.fits⟩
  rw [books_putInode v hi hf, update_idem]
  exact h.toHolds.transfer (fun c hc => (putInode_effect hv hi nd').disk c (by omega) (by omega))
    (putInode_bits hi nd').usedBlock

theorem Held.transfer (h : Held v ino nd)
    (heff : Effect v v' (fun _ => False)) (hbits : blockBits v' = blockBits v) : Held v' ino nd := by
  refine ⟨?_, h.fits⟩
  rw [books_congr fun c hc _ => heff.disk c hc id]
  exact h.toHolds.transfer (fun c hc => heff.disk c (by omega) id) fun c => by
    simp only [usedBlock, hbits]

theorem Holds.owner_of_live (h : Holds v T)
    (live : ∀ c, DataLive v c → v'.disk c = v.disk c) : owner v'.disk T = owner v.disk T := by
  funext ⟨j, s⟩
  refine congrFun (tree_congr fun p hp => ?_) s
  rw [← tree_slot] at hp ⊢
  exact live _ (h.owns.live (j, p.slot) hp)

theorem Holds.of_live (h : Holds v T)
    (live : ∀ c, DataLive v c → usedBlock v' c = true ∧ v'.disk c = v.disk c)
    (reserved : ∀ b, b < 36 → usedBlock v' b = true) : Holds v' T := by
  refine ⟨?_, reserved⟩
  rw [h.owner_of_live fun c hc => (live c hc).2]
  exact h.owns.mono fun b hb => ⟨hb.1, hb.2.1, (live b hb).1⟩

theorem Holds.restrict {T' : Table} (h : Holds v T)
    (sub : ∀ j s, tree v'.disk (T' j) s = 0 ∨ tree v'.disk (T' j) s = tree v.disk (T j) s)
    (used : ∀ j s, tree v'.disk (T' j) s ≠ 0 → usedBlock v' (tree v'.disk (T' j) s) = true)
    (reserved : ∀ b, b < 36 → usedBlock v' b = true) : Holds v' T' := by
  refine ⟨h.owns.restrict (fun k => sub k.1 k.2) fun k hk => ?_, reserved⟩
  have heq : owner v'.disk T' k = owner v.disk T k := (sub k.1 k.2).resolve_left hk
  have hlive := h.owns.live k (heq ▸ hk)
  rw [heq]
  refine ⟨hlive.1, hlive.2.1, ?_⟩
  rw [← heq]
  exact used k.1 k.2 hk

def Inode.Blank (nd : Inode) : Prop := ∀ k, nd.block k = 0

theorem Inode.Blank.tree (h : nd.Blank) (d : Nat → Buf) (s : Slot) : tree d nd s = 0 :=
  tree_zero_roots (fun k _ => h k) s

theorem Inode.Blank.owned (h : nd.Blank) : nd.owned.Blank := by
  unfold Inode.owned
  split_ifs
  · exact fun _ => rfl
  · exact h

theorem Consistent.held_sub (h : Consistent v)
    (hsub : nd.Sub (books v ino)) (fits : nd.Fits) : Held v ino nd := by
  have hbook : Held v ino (books v ino) := by
    refine ⟨?_, (table_fits v ino).owned⟩
    rw [update_eq_self]
    exact h
  exact hbook.sub hsub fits

theorem Consistent.held_blank (h : Consistent v) (hb : nd.Blank) (fits : nd.Fits) : Held v ino nd :=
  h.held_sub (fun k => .inl (hb k)) fits

theorem Consistent.putInode (h : Consistent v) (hv : Ready v)
    (hi : ValidIno ino) (fits : nd.Fits) (hsub : nd.owned.Sub (books v ino)) :
    Consistent (putInode v ino nd) := by
  unfold Consistent
  rw [books_putInode v hi fits]
  exact (h.held_sub hsub fits.owned).toHolds.transfer
    (fun c hc => (putInode_effect hv hi nd).disk c (by omega) (by omega))
    (putInode_bits hi nd).usedBlock

end SmallOS.Ext2
