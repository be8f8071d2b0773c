import SmallOS.Ext2.OutOfSpace
import SmallOS.Ext2.FileRefinement

/-! The time stamps of files. A write that changes the contents of a file gives the file the
time of the call, and a call that is refused touches no file that has a byte in it. -/

namespace SmallOS.Ext2
open Bytes Prog

section

variable {v w : Vol} {ino : Nat} {nd : Inode}

def Stamped (nd : Inode) (v : Vol) : Prop := nd.mtime = v.now ∧ nd.ctime = v.now

theorem writeInode_now (ino : Nat) (nd : Inode) (v : Vol) :
    Post (writeInode ino nd) v (fun _ w => w.now = v.now) (fun _ _ => True) := by
  refine .guard trivial fun _ => ?_
  refine .bind (R := fun _ w => w = v) (.ask (fun _ _ => rfl) fun _ => trivial)
    (fun _ _ he => he) ?_
  rintro buf _ rfl
  exact .bind_get (.guard trivial fun _ => .assign rfl)

theorem writeInode_stamps (ino : Nat) (nd : Inode) (v : Vol) :
    Post (do writeInode ino (nd.touch v.now); pure (nd.touch v.now)) v Stamped (fun _ _ => True) :=
  .seq (writeInode_now ino _ v) fun _ _ hnow =>
    .ret ⟨hnow.symm, hnow.symm⟩

theorem writeFileRange_stamps (ino : Nat) (nd : Inode) (offset : Nat) (data : List UInt8)
    (v : Vol) : Post (writeFileRange ino nd offset data) v Stamped (fun _ _ => True) :=
  .seq (.any _ v) fun _ v1 _ =>
    .bind_get (writeInode_stamps ino _ v1)

theorem truncateFile_stamps (ino : Nat) (nd : Inode) (v : Vol) :
    Post (truncateFile ino nd) v Stamped (fun _ _ => True) :=
  .seq (.any _ v) fun _ v1 _ =>
    .bind_get (writeInode_stamps ino _ v1)

theorem resizeFile_stamps (ino : Nat) (nd : Inode) (size : Nat) (v : Vol) :
    Post (resizeFile ino nd size) v (fun nd' w => Stamped nd' w ∨ (nd' = nd ∧ w = v))
      (fun _ _ => True) := by
  refine .guard trivial fun _ => .branch (fun _ => ?_) fun _ =>
    .branch (fun _ => ?_) fun _ => .branch (fun _ => ?_) fun _ => ?_
  · exact .ret (.inr ⟨rfl, rfl⟩)
  · exact (truncateFile_stamps ino nd v).weaken (fun _ _ h => .inl h)
  · refine .seq (.any _ v) fun nd1 v1 _ => .bind_get ?_
    exact (writeInode_stamps ino { nd1 with size := size } v1).weaken (fun _ _ h => .inl h)
  · refine .seq (.any _ v) fun nd1 v1 _ => ?_
    refine .seq (.any _ v1) fun _ v2 _ => .bind_get ?_
    exact (writeInode_stamps ino { nd1 with size := size } v2).weaken (fun _ _ h => .inl h)

theorem writeSourceLoop_stamps (ino : Nat) (data : List UInt8) : ∀ fuel offset nd v, Stamped nd v →
      Post (writeSourceLoop ino data fuel offset nd) v Stamped (fun _ _ => True) := by
  intro fuel
  induction fuel with
  | zero => exact fun _ _ _ h => .ret h
  | succ fuel ih =>
    intro offset nd v h
    refine .branch (fun _ => ?_) fun _ => .ret h
    refine .seq (writeFileRange_stamps ino nd offset _ v) ?_
    exact fun nd1 v1 h1 => ih _ nd1 v1 h1

theorem writeFileFromSource_stamps (ino : Nat) (nd : Inode) (data : List UInt8) (v : Vol) :
    Post (writeFileFromSource ino nd data) v Stamped (fun _ _ => True) := by
  refine .guard trivial fun _ => ?_
  refine .seq (truncateFile_stamps ino nd v) fun nd1 v1 h1 => ?_
  refine .branch (fun _ => .ret h1) fun _ => ?_
  refine .seq (writeSourceLoop_stamps ino data _ 0 nd1 v1 h1) ?_
  intro nd2 v2 h2
  exact .seq (writeInode_now ino _ v2) fun _ _ hnow =>
    .ret ⟨h2.1.trans hnow.symm, h2.2.trans hnow.symm⟩

end

/-- The file a write to `path` may reach: the one the path leads to, the one it names, or
one that has no inode of its own. -/
def Targets (v : Vol) (path : Path) (j : Nat) : Prop :=
  regularFile v path = some j ∨ namedFile v path = some j ∨ usedInode v j = false

/-- The last component of the path is a name that does not exist yet. -/
def Creates (v : Vol) (path : Path) : Prop :=
  ∃ c, resolveCreatePath v path = some c ∧ dirFindEntry v c.parent c.leaf = none

/-- What a write to `path` that returns has done: the files it has not reached are as they
were, and those it has reached have the time of the call. -/
structure Wrote (v : Vol) (path : Path) (w : Vol) : Prop where
  ready : Ready w
  consistent : Consistent w
  env : SameEnv v w
  files : ∀ j, inodeIsFile (table v j) = true → SameFile v w j ∨
    (inodeIsFile (table w j) = true ∧ Stamped (table w j) w ∧ Targets v path j)
  names : Creates v path ∨ (names w = names v ∧ inodeBits w = inodeBits v)

/-- What a write that is refused has done; a record that was in use without being marked so
may have been emptied. -/
structure Declined (v w : Vol) : Prop where
  ready : Ready w
  consistent : Consistent w
  env : SameEnv v w
  files : ∀ j, inodeIsFile (table v j) = true → SameFile v w j ∨
    (inodeIsFile (table w j) = true ∧ (table w j).size = 0)

structure Opens (v : Vol) (path : Path) (r : Nat × Inode) (v₁ : Vol) : Prop where
  env : SameEnv v v₁
  others : ∀ j, j ≠ r.1 → inodeIsFile (table v j) = true → SameFile v v₁ j
  self : inodeIsFile (table v r.1) = true → SameFile v v₁ r.1 ∨
    (inodeIsFile (table v₁ r.1) = true ∧ Stamped (table v₁ r.1) v₁)
  target : inodeIsFile r.2 = true → Targets v path r.1
  names : Creates v path ∨ (v₁ = v ∧ r.2 = table v r.1)

section

variable {v v1 w : Vol} {ino : Nat} {nd nd' : Inode} {path : Path} {c : CreatePath}
  {r : Nat × Inode}

theorem Declined.refl (hv : Ready v) (hc : Consistent v) : Declined v v :=
  ⟨hv, hc, SameEnv.refl v, fun j _ => .inl (SameFile.refl v j)⟩

theorem newInode_isFile (links now : Nat) : inodeIsFile (newInode fileMode links now) = true := by
  show (fileType fileMode == 0x8000) = true
  decide

theorem SameKind.isFile (h : SameKind nd nd') (hfile : inodeIsFile nd = true) :
    inodeIsFile nd' = true := by
  rw [inodeIsFile, h.mode]
  exact hfile

theorem Opens.existing (target : Targets v path r.1) (record : r.2 = table v r.1) :
    Opens v path r v :=
  ⟨SameEnv.refl v, fun j _ _ => SameFile.refl v j, fun _ => .inl (SameFile.refl v r.1),
    fun _ => target, .inr ⟨rfl, record⟩⟩

theorem Opens.made (hc : Consistent v) (hat : CreateAt v path c) (hnew : Creates v path)
    {parent' : Inode} (hnamed : Named v c ino (newInode fileMode 1 v.now) 1 v1 parent') :
    Opens v path (ino, newInode fileMode 1 v.now) v1 := by
  obtain ⟨v0, hborn, hadd⟩ := hnamed
  have hparent : ∀ j, inodeIsFile (table v j) = true → j ≠ c.parentIno := by
    rintro j hfile rfl
    have hdir := hat.dir
    rw [hat.parent] at hdir
    rw [inodeIsDir, beq_iff_eq] at hdir
    simp [inodeIsFile, hdir] at hfile
  have henv : SameEnv v v1 := hborn.env.trans hadd.saved.1.env
  refine ⟨henv, fun j hj hfile => ?_, fun hfile => .inr ?_, fun _ => .inr (.inr hborn.fresh),
    .inl hnew⟩
  · exact (hborn.sameFile hc hj).trans
      (hadd.saved.1.sameFile (hborn.parent_held hc hat) (hparent j hfile))
  · rw [hadd.saved.1.record, Function.update_of_ne (hparent ino hfile), hborn.record,
      Function.update_self, Stamped, henv.now]
    exact ⟨newInode_isFile _ _, rfl, rfl⟩

theorem Opened.opens (hv : Ready v) (hc : Consistent v) (hres : resolveCreatePath v path = some c)
    (h : Opened v c r v1) : Opens v path r v1 := by
  have hat := resolveCreatePath_eq_some hv hres
  obtain ⟨ino, nd⟩ := r
  simp only [Opened] at h
  obtain ⟨rfl, hi, rfl, hfile, t, hfind⟩ | ⟨hnone, rfl, parent', hnamed⟩ := h
  · refine .existing (.inr (.inl ?_)) rfl
    simp only [namedFile, hres, hfind, readInode_of_ready hv hi, hfile, if_true]
  · exact .made hc hat ⟨c, hres, hnone⟩ hnamed

theorem Wrote.of_opens (hv : Ready v) (hc : Consistent v) (h : Opens v path r v1)
    (hheld : Held v1 r.1 r.2) (hfile : inodeIsFile r.2 = true) (hs : Saved r.1 v1 r.2 w nd')
    (hkind : SameKind r.2 nd') (hstamp : Stamped nd' w) : Wrote v path w := by
  refine ⟨hs.ready, hs.consistent, h.env.trans hs.env, fun j hj => ?_, ?_⟩
  · by_cases hself : j = r.1
    · subst hself
      rw [hs.table_self]
      exact .inr ⟨hkind.isFile hfile, hstamp, h.target hfile⟩
    · exact .inl ((h.others j hself hj).trans (hs.sameFile hheld hself))
  · obtain hnew | ⟨rfl, hrec⟩ := h.names
    · exact .inl hnew
    · rw [hrec] at hs hkind hfile
      exact .inr ⟨hs.names hv hc hfile hkind, hs.inodes⟩

theorem CreateFails.declined (hv : Ready v) (hc : Consistent v) (hat : CreateAt v path c)
    (h : CreateFails v c .refused w) : Declined v w := by
  have hcons := h.consistent hc hat
  obtain ⟨_, rfl⟩ | ⟨he, _⟩ | ⟨ino, v0, u, hborn, _, hfails, hdrop⟩ := h
  · exact .refl hv hc
  · cases he
  obtain ⟨_, rfl⟩ | ⟨he, _⟩ | ⟨⟨he, _⟩, _⟩ := hfails
  · refine ⟨hdrop.ready, hcons, hborn.env.trans hdrop.env, fun j hfile => ?_⟩
    have hlast : SameFile u w j := .of_disk hborn.consistent (by rw [hdrop.table])
      fun b hb => hdrop.disk b (by omega) id
    by_cases hj : j = ino
    · refine .inr ?_
      rw [hlast.record, hj, hborn.record, Function.update_self]
      exact ⟨newInode_isFile _ _, rfl⟩
    · exact .inl ((hborn.sameFile hc hj).trans hlast)
  · cases he
  · cases he

structure OpenTo (v : Vol) (path : Path) (r : Nat × Inode) (v₁ : Vol) : Prop
    extends Opens v path r v₁ where
  ready : Ready v₁
  consistent : Consistent v₁
  valid : ValidIno r.1
  held : inodeIsFile r.2 = true → Held v₁ r.1 r.2

theorem createFileInParent_opens (hv : Ready v) (hc : Consistent v)
    (hres : resolveCreatePath v path = some c) : Post (createFileInParent c) v
      (fun r v1 => OpenTo v path r v1 ∧ inodeIsFile r.2 = true)
      (fun e w => e = .refused → Declined v w) := by
  have hat := resolveCreatePath_eq_some hv hres
  refine (createFileInParent_post hv hc hat).mono (fun r v1 h => ?_) fun e w h hno => ?_
  · obtain ⟨hready, hcons, hi, hfile, hheld⟩ := h.held hv hc
    exact ⟨⟨h.opens hv hc hres, hready, hcons, hi, fun _ => hheld⟩, hfile⟩
  · subst hno
    exact h.declined hv hc hat

theorem openForWrite_opens (hv : Ready v) (hc : Consistent v) (path : Path) (create : Bool) :
    Post (openForWrite path create) v
      (fun r v1 => OpenTo v path r v1 ∧ (v1 = v ∨ inodeIsFile r.2 = true))
      (fun e w => e = .refused → Declined v w) := by
  refine .bind_get ?_
  cases hres : resolvePath v path with
  | some r =>
    obtain ⟨hi, hrec, _⟩ := resolvePath_eq_some hv hres
    refine .ret ⟨⟨⟨SameEnv.refl v, fun j _ _ => SameFile.refl v j,
      fun _ => .inl (SameFile.refl v _), fun hfile => .inl ?_, .inr ⟨rfl, hrec⟩⟩, hv, hc, hi,
      fun hfile => ?_⟩, .inl rfl⟩
    · simp only [regularFile, hres, if_pos hfile]
    · have hs := inodeIsSpecial_of_isFile hfile
      simp only [hrec] at hs ⊢
      exact hc.held hs
  | none =>
    refine .branch (fun hcreate => ?_) fun _ => .raise fun _ => .refl hv hc
    refine .bind_ask (fun _ _ => .refl hv hc) fun c hat => ?_
    exact (createFileInParent_opens hv hc hat).weaken (fun _ _ h => ⟨h.1, .inr h.2⟩)

theorem ext2WritePath_stamps (hv : Ready v) (hc : Consistent v) (path : Path) (data : List UInt8) :
    Post (ext2WritePath path data) v (fun _ w => Wrote v path w)
      (fun e w => e = .refused → Declined v w) := by
  refine Post.writable (fun _ => .refl hv hc) (Post.branch
    (fun _ => .raise fun _ => .refl hv hc) fun hlen => ?_)
  refine Post.bind_ask (fun _ _ => .refl hv hc) fun c hres => ?_
  refine .seq (createFileInParent_opens hv hc hres) ?_
  rintro ⟨ino, nd⟩ v1 ⟨hopen, hfile⟩
  have hheld := hopen.held hfile
  refine .bind ((writeFileFromSource_post hopen.ready hheld hopen.valid (by omega)).and
    (writeFileFromSource_stamps ino nd data v1)) (fun e w he hno => ?_) ?_
  · obtain ⟨⟨_, _, _, ⟨hblock, _⟩, _⟩, _⟩ := he
    cases hblock.symm.trans hno
  · rintro nd' w ⟨⟨hs, hkind, _⟩, hstamp⟩
    exact .ret (.of_opens hv hc hopen.toOpens hheld hfile hs hkind hstamp)

theorem ext2WriteAtPath_stamps (hv : Ready v) (hc : Consistent v) (path : Path) (offset : Nat)
    (data : List UInt8) (inoutSize : Nat) (create : Bool) :
    Post (ext2WriteAtPath path offset data inoutSize create) v (fun _ w => Wrote v path w)
      (fun e w => e = .refused → Declined v w) := by
  refine Post.writable (fun _ => .refl hv hc) (Post.branch
    (fun _ => .raise fun _ => .refl hv hc) fun hend => .branch
    (fun _ => .raise fun _ => .refl hv hc) fun hmax => ?_)
  refine Post.seq (openForWrite_opens hv hc path create) ?_
  rintro ⟨ino, nd⟩ v1 ⟨hopen, hsame⟩
  refine .branch (fun hno => .raise fun _ => ?_) fun hfile => ?_
  · obtain rfl := hsame.resolve_right fun hfile => by simp [hfile] at hno
    exact .refl hv hc
  have hfile : inodeIsFile nd = true := by simpa using hfile
  have hheld := hopen.held hfile
  refine .branch (fun _ => .ret ?_) fun _ => ?_
  · -- nothing is written, but the file may have been made just now
    refine ⟨hopen.ready, hopen.consistent, hopen.env, fun j hfj => ?_, ?_⟩
    · by_cases hj : j = ino
      · subst hj
        exact (hopen.self hfj).imp_right fun h => ⟨h.1, h.2, hopen.target hfile⟩
      · exact .inl (hopen.others j hj hfj)
    · exact hopen.names.imp_right fun h => by rw [h.1]; exact ⟨rfl, rfl⟩
  refine .bind ((writeFileRange_post hopen.ready hheld hopen.valid (by omega)).and
    (writeFileRange_stamps ino nd offset data v1)) (fun e w he hno => ?_) ?_
  · cases he.1.1.symm.trans hno
  · rintro nd' w ⟨⟨hs, hkind, _⟩, hstamp⟩
    exact .ret (.of_opens hv hc hopen.toOpens hheld hfile hs hkind hstamp)

theorem ext2ResizePath_stamps (hv : Ready v) (hc : Consistent v) (path : Path) (size : Nat) :
    Post (ext2ResizePath path size) v (fun _ w => Wrote v path w)
      (fun e w => e = .refused → Declined v w) := by
  refine ext2ResizePath_walk hv (fun _ => .refl hv hc) fun p ino hres hi hfile hs => ?_
  have hheld := hc.held (inodeIsSpecial_of_isFile hfile)
  have hopen : Opens v path (ino, table v ino) v :=
    .existing (.inl (by simp only [regularFile, hres, if_pos hfile])) rfl
  refine ((resizeFile_post hv hheld hi hfile hs).and
    (resizeFile_stamps ino (table v ino) size v)).mono ?_ fun e w he hno => ?_
  · rintro nd' w ⟨⟨hsaved, hkind, _⟩, hstamp | ⟨_, rfl⟩⟩
    · exact .of_opens hv hc hopen hheld hfile hsaved hkind hstamp
    · exact ⟨hv, hc, SameEnv.refl _, fun j _ => .inl (SameFile.refl _ j), .inr ⟨rfl, rfl⟩⟩
  · cases he.1.1.symm.trans hno

end

end SmallOS.Ext2
