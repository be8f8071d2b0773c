import SmallOS.Ext2.Creation

/-! The calls that take a name away: `rm`, `rmdir` and `move`. -/

namespace SmallOS.Ext2

open Bytes Prog Ownership Function List Option Inode

variable {name : Name}

section

variable {v v1 v2 : Vol} {ino : Nat} {nd : Inode}

theorem EntryRemoved.saved (h : EntryRemoved ino v nd v1 name) : Saved ino v nd v1 nd := by
  obtain ⟨_, _, _, _, _, _, ha⟩ := h
  exact ha.toSaved

/-! `rm`. -/

def Unlinked (v : Vol) (ino : Nat) (nd : Inode) (v' : Vol) : Prop :=
  (1 < nd.linksCount ∧ Rewritten ino v { nd.unlink with ctime := v.now } v') ∨
    (nd.linksCount ≤ 1 ∧ ∃ v₁, Saved ino v nd v₁ Inode.zero ∧ Dropped v₁ ino v')

def RmDone (v : Vol) (path : Path) (v' : Vol) : Prop :=
  ∃ c ino type v₁, CreateAt v path c ∧ dirFindEntry v c.parent c.leaf = some (ino, type) ∧
    ValidIno ino ∧ inodeIsDir (table v ino) = false ∧ EntryRemoved c.parentIno v c.parent v₁ c.leaf ∧
    Unlinked v₁ ino (table v ino) v'

/-- The last name of a device, pipe or socket is only removed when its record has no
device number: `free_inode_blocks` takes that number for a block. -/
def RmSafe (v : Vol) (path : Path) : Prop :=
  ∀ c ino type, resolveCreatePath v path = some c →
    dirFindEntry v c.parent c.leaf = some (ino, type) → inodeIsSpecial (table v ino) = true →
    (table v ino).linksCount ≤ 1 → (table v ino).Blank

theorem freeInode_record (hv : Ready v) (h : Held v ino nd) (hi : ValidIno ino) :
    Post (do let _ ← freeInodeBlocks nd; writeInode ino Inode.zero; freeInode ino) v
      (fun _ v' => ∃ v1, Saved ino v nd v1 Inode.zero ∧ Dropped v1 ino v') (fun _ _ => False) := by
  refine .seq (freeInodeBlocks_post hv h) ?_
  rintro nd1 v1 ⟨hs, _, _, _, hnd⟩
  refine .bind_run (writeInode_run hs.ready hi _) ?_
  have hsaved : Saved ino v nd (putInode v1 ino Inode.zero) Inode.zero :=
    hs.toTreeStep.saved hi (by rw [hnd]; rfl) zero_fits
  exact (freeInode_dropped hsaved.ready hi).weaken (fun _ v' hd => ⟨_, hsaved, hd⟩)

theorem ext2Rm_steps (hv : Ready v) (hc : Consistent v) (path : Path) (hsafe : RmSafe v path) :
    Post (ext2Rm path) v (fun _ v' => ∃ c ino type v1, CreateAt v path c ∧
        dirFindEntry v c.parent c.leaf = some (ino, type) ∧ ValidIno ino ∧
        inodeIsDir (table v ino) = false ∧ EntryRemoved c.parentIno v c.parent v1 c.leaf ∧
        Unlinked v1 ino (table v ino) v' ∧
        ((table v ino).linksCount ≤ 1 → Held v1 ino (table v ino))) (Refused v) := by
  refine Post.writable ⟨.inl rfl, rfl⟩ ?_
  refine Post.bind_ask (fun _ => ⟨.inl rfl, rfl⟩) fun c hres => ?_
  have hat := resolveCreatePath_eq_some hv hres
  refine .bind_ask (fun _ => ⟨.inl rfl, rfl⟩) ?_
  rintro ⟨ino, type⟩ hfind
  refine .bind_ask (fun _ => ⟨.inr rfl, rfl⟩) fun nd hread => ?_
  obtain ⟨hi, rfl⟩ := readInode_eq_some hv hread
  refine .guard ⟨.inl rfl, rfl⟩ fun hdir => ?_
  have hdir : inodeIsDir (table v ino) = false := by simpa using hdir
  refine .bind (dirRemoveEntry_post hv (hat.held hc) hat.valid)
    (fun e w he => ⟨.inl he.1, he.2.1⟩) ?_
  rintro _ v1 ⟨_, hremoved⟩
  have hsaved := hremoved.saved
  have htable : table v1 = table v := by
    rw [hsaved.record, hat.parent, update_eq_self]
  refine .bind_get (.branch (fun hlinks => ?_) fun hlinks => ?_)
  · refine .of_run (writeInode_run hsaved.ready hi _) ⟨c, ino, type, v1, hat, hfind, hi, hdir,
      hremoved, .inl ⟨hlinks, .attributes hsaved.ready hsaved.consistent hi ?_ ?_ ?_⟩,
      fun hle => absurd hlinks (by omega)⟩
    · exact { (table_fits v ino).unlink with ctime := hsaved.ready.clock }
    · rw [htable]
      rfl
    · rw [htable]
      rfl
  · have hheld : Held v1 ino (table v ino) := by
      by_cases hs : inodeIsSpecial (table v ino) = true
      · exact hsaved.consistent.held_blank (hsafe c ino type hres hfind hs (by omega))
          (table_fits v ino)
      · have hs1 : inodeIsSpecial (table v1 ino) = false := by
          rw [htable]
          simpa using hs
        have := hsaved.consistent.held hs1
        rwa [htable] at this
    refine (freeInode_record hsaved.ready hheld hi).mono (fun _ v' h => ?_) fun _ _ he => he.elim
    exact ⟨c, ino, type, v1, hat, hfind, hi, hdir, hremoved, .inr ⟨by omega, h⟩, fun _ => hheld⟩

theorem ext2Rm_post (hv : Ready v) (hc : Consistent v) (path : Path) (hsafe : RmSafe v path) :
    Post (ext2Rm path) v (fun _ => RmDone v path) (Refused v) := by
  refine (ext2Rm_steps hv hc path hsafe).weaken ?_
  rintro _ v' ⟨c, ino, type, v1, hat, hfind, hi, hdir, hremoved, hunlinked, -⟩
  exact ⟨c, ino, type, v1, hat, hfind, hi, hdir, hremoved, hunlinked⟩

/-! `rmdir`. -/

theorem scanDirents_ne_none {β γ : Type} {buf : Buf} {bad : Nat → β} {bad' : Nat → γ}
    {visit : Nat → Dirent → Option β} {visit' : Nat → Dirent → Option γ}
    (h : ∀ o de, visit o de ≠ none → visit' o de ≠ none) {fuel off : Nat}
    (hstop : scanDirents buf bad visit fuel off ≠ none) :
    scanDirents buf bad' visit' fuel off ≠ none := by
  induction fuel generalizing off with
  | zero => exact absurd rfl hstop
  | succ fuel ih =>
    unfold scanDirents at hstop ⊢
    by_cases hoff : off < 4096
    · rw [if_pos hoff] at hstop ⊢
      cases hp : parseDirent buf off with
      | none => exact some_ne_none _
      | some de =>
        simp only [hp] at hstop ⊢
        cases hv' : visit' off de with
        | some r => exact some_ne_none _
        | none =>
          have hv : visit off de = none := by
            by_contra hne
            exact h off de hne hv'
          simp only [hv] at hstop
          exact ih hstop
    · rw [if_neg hoff] at hstop
      exact absurd rfl hstop

theorem isDots_of_nameEquals {de : Dirent} (hshort : name.length ≤ 255)
    (hdot : name ≠ dotName) (hdotdot : name ≠ dotDotName) (h : nameEquals de name = true) :
    isDots de = false := by
  simp only [nameEquals, Bool.and_eq_true, beq_iff_eq, List.all_eq_true, mem_range] at h
  obtain ⟨hlen, hbytes⟩ := h
  rw [Nat.mod_eq_of_lt (by omega)] at hlen
  by_contra hd
  simp only [isDots, Bool.not_eq_false, Bool.or_eq_true, Bool.and_eq_true, beq_iff_eq] at hd
  obtain ⟨h1, hraw⟩ | ⟨⟨h2, hraw⟩, hraw'⟩ := hd
  · obtain ⟨a, rfl⟩ := length_eq_one_iff.mp (hlen.symm.trans h1)
    have := hbytes 0 (by simp)
    simp only [getD_cons_zero, hraw] at this
    exact hdot (by rw [← this, dotName])
  · obtain ⟨a, b, rfl⟩ := length_eq_two.mp (hlen.symm.trans h2)
    have ha := hbytes 0 (by simp)
    have hb := hbytes 1 (by simp)
    simp only [getD_cons_zero, getD_cons_succ, hraw, hraw'] at ha hb
    exact hdotdot (by rw [← ha, ← hb, dotDotName])

theorem dirIsEmpty_eq_false (hv : Ready v) (h : Held v ino nd) {r : Nat × Nat}
    (hshort : name.length ≤ 255) (hdot : name ≠ dotName) (hdotdot : name ≠ dotDotName)
    (hfind : dirFindEntry v nd name = some r) : dirIsEmpty v nd = false := by
  have hcount := inodeBlockCount_lt nd
  rw [dirFindEntry_eq hv h.lt] at hfind
  split_ifs at hfind
  obtain ⟨⟨m, off, de⟩, hmatch, _⟩ := map_eq_some_iff.mp hfind
  obtain ⟨hm, buf, hblk, hblock, _⟩ := dirMatch_eq_some hmatch
  unfold dirIsEmpty
  rw [overBlocks_eq hv h.lt (by omega)]
  have hstop : scanDirents buf (fun _ => false)
      (fun _ de => if de.inode ≠ 0 ∧ !isDots de then some false else none) 512 0 ≠ none := by
    refine scanDirents_ne_none (fun o de hne => ?_) (hblock ▸ some_ne_none _)
    simp only [ne_eq, ite_eq_right_iff, reduceCtorEq, imp_false, not_not] at hne
    have hdots := isDots_of_nameEquals hshort hdot hdotdot hne.2
    rw [if_pos ⟨hne.1, by rw [hdots]; rfl⟩]
    exact some_ne_none _
  obtain ⟨_, hall⟩ | ⟨m', buf', _, _, _, hvisit', _⟩ := overContents_cases (blockAt v.disk nd)
    true (fun _ buf => scanDirents buf (fun _ => false)
      (fun _ de => if de.inode ≠ 0 ∧ !isDots de then some false else none) 512 0)
    (inodeBlockCount nd) 0
  · exact absurd (hall m buf (Nat.zero_le m) (by omega) hblk) hstop
  · obtain ⟨_, _, _, hr⟩ | ⟨_, _, _, _, hr⟩ := scanDirents_eq_some hvisit'
    · exact hr
    · split_ifs at hr
      exact (Option.some.inj hr).symm

/-- What a successful `ext2_rmdir` did; `w` is the volume after the entry alone was
removed. -/
def RmdirDone (v : Vol) (path : Path) (v' : Vol) : Prop :=
  ∃ c ino type w, CreateAt v path c ∧ dirFindEntry v c.parent c.leaf = some (ino, type) ∧
    ino ≠ 2 ∧ ValidIno ino ∧ inodeIsDir (table v ino) = true ∧
    dirIsEmpty v (table v ino) = true ∧ ino ≠ c.parentIno ∧
    EntryRemoved c.parentIno v c.parent w c.leaf ∧ Ready v' ∧ SameEnv v v' ∧ Consistent v' ∧
    inodeBits v' = bitClear (inodeBits v) (ino - 1) ∧
    table v' = update (update (table v) c.parentIno c.parent.unlink) ino
      Inode.zero ∧
    ∀ b, 36 ≤ b → v'.disk b = w.disk b

theorem consistent_of_freed {w v' : Vol} (hw : Consistent w) (hi : inodeIsDir (table w ino) = true)
    (htable : ∀ j, j ≠ ino → (table v' j).mode = (table w j).mode ∧
      (table v' j).block = (table w j).block)
    (hzero : table v' ino = Inode.zero) (hdisk : ∀ b, 36 ≤ b → v'.disk b = w.disk b)
    (hused : ∀ c, usedBlock v' c = true ↔
      usedBlock w c = true ∧ ¬(c ≠ 0 ∧ ∃ s, tree w.disk (table w ino) s = c)) : Consistent v' := by
  have hheld := hw.held (inodeIsSpecial_of_isDir hi)
  have hbook : ∀ j, j ≠ ino → ∀ s, tree v'.disk (books v' j) s = 0 ∨
      tree v'.disk (books v' j) s = tree w.disk (books w j) s := by
    intro j hj s
    obtain ⟨hmode, hblock⟩ := htable j hj
    have hspecial : inodeIsSpecial (table v' j) = inodeIsSpecial (table w j) := by
      simp only [inodeIsSpecial, hmode]
    have hblock' : (books v' j).block = (books w j).block := by
      simp only [books, owned, hspecial]
      split_ifs
      · rfl
      · exact hblock
    rw [tree_of_block_eq hblock']
    have htree : tree v'.disk (books w j) = tree w.disk (books w j) := by
      refine tree_congr fun p hp => hdisk _ ?_
      rw [← tree_slot] at hp ⊢
      exact (hheld.other_live hj hp).1
    exact .inr (by rw [htree])
  have hblank : (books v' ino).Blank := by
    simp only [books, hzero]
    exact Inode.Blank.owned fun _ => rfl
  refine Holds.restrict hw (fun j s => ?_) (fun j s hs => ?_) fun b hb => ?_
  · by_cases hj : j = ino
    · subst hj
      exact .inl (hblank.tree _ s)
    · exact hbook j hj s
  · by_cases hj : j = ino
    · subst hj
      exact absurd (hblank.tree _ s) hs
    · have heq := (hbook j hj s).resolve_left hs
      rw [heq] at hs ⊢
      exact (hused _).mpr ⟨(hheld.other_live hj hs).2.2,
        fun freed => freed.2.elim fun t ht => hheld.other_apart hj hs t ht⟩
  · refine (hused b).mpr ⟨hw.reserved b hb, ?_⟩
    rintro ⟨h0, s, hs⟩
    have := (hheld.live (s := s) (by rw [hs]; exact h0)).1
    omega

theorem ext2Rmdir_post (hv : Ready v) (hc : Consistent v) (path : Path) :
    Post (ext2Rmdir path) v (fun _ => RmdirDone v path) (Refused v) := by
  refine Post.writable ⟨.inl rfl, rfl⟩ ?_
  refine Post.bind_ask (fun _ => ⟨.inl rfl, rfl⟩) fun c hfound => ?_
  have hat := resolveCreatePath_eq_some hv hfound
  refine .bind_ask (fun _ => ⟨.inl rfl, rfl⟩) ?_
  rintro ⟨ino, type⟩ hfind
  refine .guard ⟨.inl rfl, rfl⟩ fun hroot => ?_
  refine .bind_ask (fun _ => ⟨.inr rfl, rfl⟩) fun nd hread => ?_
  obtain ⟨hi, rfl⟩ := readInode_eq_some hv hread
  refine .bind_get (.guard ⟨.inl rfl, rfl⟩ fun hok => ?_)
  simp only [not_or, Bool.not_eq_true', Bool.not_eq_false] at hok
  obtain ⟨hdir, hempty⟩ := hok
  have hparent := hat.held hc
  -- the parent has the name in it, so it is not the empty directory
  have hne : ino ≠ c.parentIno := by
    rintro rfl
    rw [← hat.parent, dirIsEmpty_eq_false hv hparent hat.short hat.notDot hat.notDotDot hfind]
      at hempty
    cases hempty
  have hmatch := hfind
  rw [dirFindEntry_eq hv hparent.lt, if_pos hat.dir] at hmatch
  obtain ⟨⟨m, off, de⟩, hmatch, _⟩ := map_eq_some_iff.mp hmatch
  obtain ⟨hremoved, hb0⟩ := EntryRemoved.of_match hv hparent hat.valid hmatch
  have hheld := hc.held (inodeIsSpecial_of_isDir hdir)
  refine .bind (freeInodeBlocks_post hv hheld) (fun _ _ he => he.elim) ?_
  rintro nd1 v1 ⟨hs, _, hdisk, hused, _⟩
  have hblow := (hparent.live hb0).1
  have hdisk1 : ∀ b, 36 ≤ b → v1.disk b = v.disk b := fun b hb => hdisk b (by omega)
  have htree1 : tree v1.disk c.parent = tree v.disk c.parent :=
    tree_congr fun p hp => hdisk1 _ (hparent.ptr_ge hp)
  have hloc : dirLocate v1 c.parent c.leaf = some (tree v.disk c.parent (dataSlot m), off) := by
    rw [dirLocate_eq hs.ready (by rw [htree1]; exact hparent.lt), if_pos hat.dir, htree1,
      funext (blockAt_of_disk hparent hdisk1), hmatch]
    rfl
  refine .bind_run (dirRemoveEntry_run hs.ready hloc (by omega) (hparent.lt _) hat.valid) ?_
  obtain ⟨b, hb⟩ : ∃ b, b = tree v.disk c.parent (dataSlot m) := ⟨_, rfl⟩
  rw [← hb] at hremoved hblow ⊢
  have hclear := clearEntry_effect hs.ready hat.valid c.parent hblow off
  have hput := putInode_effect hclear.ready hat.valid c.parent.unlink
  have hput' := putInode_effect hput.ready hi Inode.zero
  have hbits := ((clearEntry_bits v1 hat.valid c.parent hblow off).trans
    (putInode_bits hat.valid c.parent.unlink)).trans (putInode_bits hi Inode.zero)
  refine .bind_run (writeInode_run hclear.ready hat.valid _)
    (.bind_run (writeInode_run hput.ready hi _) ?_)
  refine (freeInode_dropped hput'.ready hi).mono (fun _ v' hd => ?_) fun _ _ he => he.elim
  have htable : table v' = update (update (table v) c.parentIno c.parent.unlink)
      ino Inode.zero := by
    rw [hd.table, table_putInode_of_fits _ hi zero_fits,
      table_putInode_of_fits _ hat.valid hparent.fits.unlink,
      table_clearEntry v1 hat.valid hparent.fits hblow, hs.table, update_idem]
  have hdisk' : ∀ d, 36 ≤ d → v'.disk d = (clearEntry v c.parentIno c.parent b off).disk d := by
    intro d hd36
    rw [hd.disk d (by omega) id, putInode_disk hput.ready hi hd36,
      putInode_disk hclear.ready hat.valid hd36, clearEntry_disk hs.ready hat.valid hblow hd36,
      clearEntry_disk hv hat.valid hblow hd36, hdisk1 b hblow, hdisk1 d hd36]
  have hw := hremoved.saved
  have hwtable : table (clearEntry v c.parentIno c.parent b off) = table v := by
    rw [hw.record, hat.parent, update_eq_self]
  have hwtree : tree (clearEntry v c.parentIno c.parent b off).disk (table v ino) =
      tree v.disk (table v ino) := by
    have := tree_other hparent hne fun d hd hno => (hw.others d hd hno).2
    rwa [show books v ino = table v ino from
      owned_of_not_special (inodeIsSpecial_of_isDir hdir)] at this
  refine ⟨c, ino, type, _, hat, hfind, hroot, hi, hdir, hempty, hne, hremoved, hd.ready,
    (((hs.env.trans hclear.env).trans hput.env).trans hput'.env).trans hd.env, ?_, ?_, htable, hdisk'⟩
  · refine consistent_of_freed hw.consistent (by rw [hwtable]; exact hdir) (fun j hj => ?_) ?_ hdisk'
      fun d => ?_
    · rw [htable, update_of_ne hj, hwtable]
      by_cases hp : j = c.parentIno
      · subst hp
        rw [update_self, hat.parent]
        exact ⟨rfl, rfl⟩
      · rw [update_of_ne hp]
        exact ⟨rfl, rfl⟩
    · rw [htable, update_self]
    · rw [hwtable, hwtree, (clearEntry_bits v hat.valid c.parent hblow off).usedBlock,
        ← hused d, ← hbits.usedBlock]
      simp only [usedBlock, hd.blocks]
  · rw [hd.inodes, hbits.inodes, hs.inodes]

/-! `move`. -/

/-- What a successful `ext2_move` did: `from'` keeps the directory it was loaded with. -/
def MoveDone (v : Vol) (src dst : Path) (v' : Vol) : Prop :=
  ∃ cs ct ino type v₁ parent', CreateAt v src cs ∧
    dirFindEntry v cs.parent cs.leaf = some (ino, type) ∧
    CreateAt v (moveTarget v dst cs.leaf) ct ∧ dirFindEntry v ct.parent ct.leaf = none ∧
    EntryAdded ct.parentIno v ct.parent v₁ parent' ct.leaf ino type ∧
    EntryRemoved cs.parentIno v₁ cs.parent v' cs.leaf

/-- The copy of the source directory is still held after the new entry went in, also
when that entry went into the same directory. -/
theorem EntryAdded.source_held {child type : Nat} {src dst : Path}
    {cs ct : CreatePath} {parent' : Inode} (hs : CreateAt v src cs) (ht : CreateAt v dst ct)
    (h : EntryAdded ct.parentIno v ct.parent v1 parent' name child type) :
    Held v1 cs.parentIno cs.parent := by
  obtain ⟨hsaved, _, hsub⟩ := h.saved
  by_cases heq : cs.parentIno = ct.parentIno
  · have hparent : cs.parent = ct.parent := by rw [hs.parent, ht.parent, heq]
    rw [heq, hparent]
    exact hsaved.held.sub hsub (by rw [ht.parent]; exact table_fits v _)
  · have hself : table v1 cs.parentIno = cs.parent := by
      rw [hsaved.record, update_of_ne heq, hs.parent]
    have hdir : inodeIsSpecial (table v1 cs.parentIno) = false := by
      rw [hself]
      exact inodeIsSpecial_of_isDir hs.dir
    have := hsaved.consistent.held hdir
    rwa [hself] at this

theorem ext2Move_post (hv : Ready v) (hc : Consistent v) (src dst : Path) :
    Post (ext2Move src dst) v (fun _ => MoveDone v src dst) (fun _ _ => True) := by
  refine Post.writable trivial ?_
  refine Post.bind_ask (fun _ => trivial) fun cs hfound => ?_
  have hs := resolveCreatePath_eq_some hv hfound
  refine .bind_ask (fun _ => trivial) ?_
  rintro ⟨ino, type⟩ hfind
  refine .bind_get (.bind (resolveNewName_post hv _) (fun _ _ _ => trivial) ?_)
  rintro ct w ⟨rfl, ht, hnone⟩
  refine .bind (dirAddEntry_post ht.short hv (ht.held hc) ht.valid) (fun _ _ _ => trivial) ?_
  rintro parent' v1 ⟨_, _, _, hadd⟩
  refine (dirRemoveEntry_post hadd.saved.1.ready (hadd.source_held hs ht) hs.valid).mono
    (fun _ v' h => ?_) fun _ _ _ => trivial
  exact ⟨cs, ct, ino, type, v1, parent', hs, hfind, ht, hnone, hadd, h.2⟩

end

end SmallOS.Ext2
