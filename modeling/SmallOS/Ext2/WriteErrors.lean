import SmallOS.Ext2.ReadErrors
import SmallOS.Lib.Follow

/-! Writing on a device with blocks that cannot be read. The allocating walk fails when it fills in
an entry of such a block; so a write that succeeds does what it does without errors, as long as
every name it did not find is absent. -/

namespace SmallOS.Ext2

open Bytes Prog Ownership Splice Function Option

variable {create ff : Bool} {data : List UInt8} {name : Name} {j levels offset size : Nat}
  {r : Nat × Nat} {α : Type} {w w' : Vol} {ino : Nat} {path : Path} {c : CreatePath}

section

variable {v : Vol}

theorem readBlock_follows (b : Nat) (e : Fail) : Follows errorFree (query (readBlock · b) e) :=
  fun _ => .ask fun _ h => by rw [readBlock_errorFree, (readBlock_eq_some h).2]

theorem writeBlock_follows (b : Nat) (data : Buf) : Follows errorFree (writeBlock b data) :=
  fun _ => .bind_get (.branch (fun _ => .raise _ _)
    fun _ => .put rfl)

theorem writeBlocks_follows (first count : Nat) (data : Buf) :
    Follows errorFree (writeBlocks first count data) :=
  fun _ => .bind_get (.branch (fun _ => .ret _)
    fun _ => .branch (fun _ => .raise _ _)
      fun _ => .branch (fun _ => .raise _ _) fun _ => .put rfl)

theorem readBitmaps_follows : Follows errorFree readBitmaps := by
  intro v
  refine .bind_get (.branch (fun _ => .ret _) fun _ => ?_)
  exact (readBlock_follows 2 _ v).bind fun _ w _ =>
    (readBlock_follows 3 _ w).bind fun _ _ _ => .put rfl

theorem writeBlockBitmap_follows : Follows errorFree writeBlockBitmap := by
  intro v
  refine .bind_get (.branch (fun _ => .put rfl) fun _ => ?_)
  exact (writeBlock_follows 2 _ v).bind fun _ _ _ => .assign rfl

theorem writeInodeBitmap_follows : Follows errorFree writeInodeBitmap := by
  intro v
  refine .bind_get (.branch (fun _ => .put rfl) fun _ => ?_)
  exact (writeBlock_follows 3 _ v).bind fun _ _ _ => .assign rfl

theorem writeInode_follows (ino : Nat) (nd : Inode) : Follows errorFree (writeInode ino nd) :=
  .branch (.raise _) ((readBlock_follows _ _).bind fun _ => writeBlock_follows _ _)

theorem resetHint_errorFree (v : Vol) : resetHint (errorFree v) = errorFree (resetHint v) := by
  unfold resetHint
  split_ifs with h1 h2 h2
  · rfl
  · exact absurd h1 h2
  · exact absurd h2 h1
  · rfl

theorem advanceHint_follows (next : Nat) :
    Follows errorFree (modify (advanceHint next) : M Unit) := fun _ => .assign rfl

theorem allocBlockWithZero_follows (zero : Bool) : Follows errorFree (allocBlockWithZero zero) := by
  intro v
  refine (readBitmaps_follows v).bind fun _ v1 _ => ?_
  refine (FollowsAt.assign (resetHint_errorFree v1)).bind fun _ w _ => FollowsAt.bind_get ?_
  dsimp only [errorFree]
  cases findFreeBlock w.blockBitmap w.nextAllocBlock with
  | none => exact .raise _ _
  | some block =>
    have hlast : Follows errorFree (do modify (advanceHint (block + 1)); pure block : M Nat) :=
      (advanceHint_follows (block + 1)).bind fun _ => .ret _
    refine (FollowsAt.put rfl).bind fun _ w1 _ => writeBlockBitmap_follows.bind (fun _ => ?_) w1
    cases zero with
    | true => exact (writeBlock_follows block zeros).bind fun _ => hlast
    | false => exact hlast

theorem allocInode_follows : Follows errorFree allocInode := by
  intro v
  refine (readBitmaps_follows v).bind fun _ w _ => .bind_get ?_
  dsimp only [errorFree]
  cases firstClear w.inodeBitmap 1014 10 with
  | none => exact .raise _ _
  | some i =>
    exact (FollowsAt.put rfl).bind fun _ w1 _ => writeInodeBitmap_follows.bind (fun _ => .ret _) w1

theorem allocBlockRun_follows (count : Nat) : Follows errorFree (allocBlockRun count) := by
  refine fun v => .branch (fun _ => .raise _ _) fun _ => ?_
  refine (readBitmaps_follows v).bind fun _ v1 _ => ?_
  refine (FollowsAt.assign (resetHint_errorFree v1)).bind fun _ w _ => FollowsAt.bind_get ?_
  dsimp only [errorFree]
  cases findFreeRun w.blockBitmap count w.nextAllocBlock with
  | none => exact .raise _ _
  | some first =>
    exact (FollowsAt.put rfl).bind fun _ w1 _ => writeBlockBitmap_follows.bind
      (fun _ => (advanceHint_follows _).bind fun _ => .ret _) w1

theorem ensureRootBlock_follows (nd : Inode) (k : Nat) : Follows errorFree (ensureRootBlock nd k) :=
  .branch ((allocBlockWithZero_follows true).bind fun _ => .ret _) (.ret _)

theorem setPtrBlockEntry_follows (block index value : Nat) :
    Follows errorFree (setPtrBlockEntry block index value) :=
  .branch (.raise _) ((readBlock_follows _ _).bind fun _ => writeBlock_follows _ _)

theorem setPtrBlockEntry_of_fails {block : Nat} (h : v.readFails block = true)
    (index value : Nat) : ∀ a w, setPtrBlockEntry block index value v ≠ .ok a w := by
  intro a w hrun
  unfold setPtrBlockEntry at hrun
  split_ifs at hrun with hb
  · cases hrun
  · simp only [run_bind, query, readBlock, h, if_true] at hrun
    cases hrun

def SameDevice {α : Type} (x : M α) : Prop :=
  ∀ v, Post x v (fun _ w => w.readFails = v.readFails) (fun _ _ => True)

theorem SameDevice.bind {β : Type} {x : M α} {k : α → M β} (hx : SameDevice x)
    (hk : ∀ a, SameDevice (k a)) : SameDevice (x >>= k) :=
  fun v => .seq (hx v) fun a w hw => (hk a w).weaken fun _ _ h => h.trans hw

theorem writeBlock_sameDevice (b : Nat) (data : Buf) : SameDevice (writeBlock b data) :=
  fun _ => .bind_get (.guard trivial fun _ => rfl)

theorem readBitmaps_sameDevice : SameDevice readBitmaps := by
  refine fun v => .bind_get (.branch (fun _ => .ret rfl) fun _ => ?_)
  exact .seq (.any _ _) fun _ _ _ => .seq (.any _ _) fun _ _ _ => rfl

theorem writeBlockBitmap_sameDevice : SameDevice writeBlockBitmap := by
  refine fun v => .bind_get (.branch (fun _ => rfl) fun _ => ?_)
  exact .seq (writeBlock_sameDevice 2 v.blockBitmap v) fun _ _ hw => hw

theorem allocBlockWithZero_sameDevice (zero : Bool) : SameDevice (allocBlockWithZero zero) := by
  refine readBitmaps_sameDevice.bind fun _ v => ?_
  refine .bind_assign (.bind_get ?_)
  cases findFreeBlock (resetHint v).blockBitmap (resetHint v).nextAllocBlock with
  | none => exact .raise trivial
  | some block =>
    have hhint : (resetHint v).readFails = v.readFails := by
      unfold resetHint
      split_ifs <;> rfl
    refine .bind_set ?_
    have hrest : SameDevice (do
        writeBlockBitmap
        if zero then writeBlock block zeros
        modify (advanceHint (block + 1))
        pure block) := by
      refine writeBlockBitmap_sameDevice.bind fun _ => ?_
      cases zero with
      | true => exact (writeBlock_sameDevice block zeros).bind fun _ _ => rfl
      | false => exact fun _ => rfl
    exact (hrest _).weaken fun _ _ h => h.trans hhint

theorem ensurePtrEntry_follows (nd : Inode) (parent index : Nat) (zero : Bool) :
    Follows errorFree (ensurePtrEntry nd parent index zero) := by
  intro v
  refine .bind_get ?_
  cases hf : v.readFails parent with
  | true =>
    rw [ptrBlockEntry_of_fails hf, if_pos rfl]
    have hnever : Post (do
        let b ← allocBlockWithZero zero
        setPtrBlockEntry parent index b
        pure (nd.chargeBlocks 1, b) : M (Inode × Nat)) v (fun _ _ => False) (fun _ _ => True) := by
      refine .seq (allocBlockWithZero_sameDevice zero v) fun b w hw => ?_
      refine .seq (R := fun _ _ => False) ?_ fun _ _ h => h.elim
      refine Post.of_result.mono (fun a w' hrun => ?_) fun _ _ _ => trivial
      exact setPtrBlockEntry_of_fails (by rw [hw, hf]) index b a w' hrun
    exact fun a w hrun => (hnever.of_ok hrun).elim
  | false =>
    rw [← ptrBlockEntry_of_reads hf]
    exact Follows.branch ((allocBlockWithZero_follows zero).bind fun b =>
      (setPtrBlockEntry_follows parent index b).bind fun _ => .ret _) (.ret _) v

theorem inodeGetDataBlockEx_follows (nd : Inode) (logical : Nat) (zero : Bool) :
    Follows errorFree (inodeGetDataBlockEx nd logical zero) := by
  refine .branch (.branch ?_ (.ret _)) (.branch ?_ (.branch (.raise _) ?_))
  · exact (allocBlockWithZero_follows zero).bind fun _ => .ret _
  · exact (ensureRootBlock_follows nd 12).bind fun nd => ensurePtrEntry_follows nd _ _ zero
  · refine (ensureRootBlock_follows nd 13).bind fun nd => ?_
    exact (ensurePtrEntry_follows nd _ _ true).bind fun r => ensurePtrEntry_follows r.1 r.2 _ zero

theorem loadRootBlock_follows (nd : Inode) (k : Nat) : Follows errorFree (loadRootBlock nd k) :=
  .branch ((allocBlockWithZero_follows false).bind fun _ => .ret _)
    ((readBlock_follows _ _).bind fun _ => .ret _)

theorem fillEntries_follows (nd : Inode) (parent : Nat) (buf : Buf) (index blocks : Nat) :
    Follows errorFree (fillEntries nd parent buf index blocks) :=
  .branch (.ret _) ((allocBlockRun_follows blocks).bind fun _ =>
    (writeBlock_follows _ _).bind fun _ => .ret _)

theorem inodePrepareFreshBlocks_follows (nd : Inode) (logical maxBlocks : Nat) :
    Follows errorFree (inodePrepareFreshBlocks nd logical maxBlocks) := by
  refine .branch (.raise _) (.branch (.branch (.ret _) ?_) (.branch ?_ (.branch (.raise _) ?_)))
  · exact (allocBlockRun_follows _).bind fun _ => .ret _
  · exact (loadRootBlock_follows nd 12).bind fun r => fillEntries_follows r.1 _ r.2 _ _
  · refine (loadRootBlock_follows nd 13).bind fun r => .branch ?_ ?_
    · refine (allocBlockWithZero_follows false).bind fun indirect => ?_
      exact (writeBlock_follows _ _).bind fun _ => fillEntries_follows _ _ _ _ _
    · exact (readBlock_follows _ _).bind fun buf => fillEntries_follows _ _ _ _ _

theorem extendRun_follows (logical block maxBlocks fuel blocks : Nat) (nd : Inode) :
    Follows errorFree (extendRun logical block maxBlocks fuel blocks nd) := by
  induction fuel generalizing blocks nd with
  | zero => exact .ret _
  | succ fuel ih =>
    refine .branch ?_ (.ret _)
    refine (inodeGetDataBlockEx_follows nd _ false).bind fun r => ?_
    exact .branch (.raise _) (.branch (.ret _) (ih (blocks + 1) r.1))

theorem writeWholeBlocks_follows (nd : Inode) (logical maxBlocks : Nat) (data : Buf) :
    Follows errorFree (writeWholeBlocks nd logical maxBlocks data) := by
  refine (inodePrepareFreshBlocks_follows nd logical maxBlocks).bind fun r => ?_
  obtain ⟨nd, _ | ⟨block, blocks⟩⟩ := r
  · refine (inodeGetDataBlockEx_follows nd logical false).bind fun r => .branch (.raise _) ?_
    refine (extendRun_follows logical r.2 maxBlocks maxBlocks 1 r.1).bind fun q => ?_
    exact (writeBlocks_follows _ _ _).bind fun _ => .ret _
  · exact (writeBlocks_follows _ _ _).bind fun _ => .ret _

theorem writePartBlock_follows (nd : Inode) (logical blockOff chunk : Nat) (data : Buf) :
    Follows errorFree (writePartBlock nd logical blockOff chunk data) := by
  refine (inodeGetDataBlockEx_follows nd logical true).bind fun r => ?_
  have hrest : ∀ buf, Follows errorFree (do
      writeBlock r.2 (copy buf blockOff chunk data)
      pure (r.1, chunk) : M (Inode × Nat)) := fun buf =>
    (writeBlock_follows _ _).bind fun _ => .ret _
  exact .branch (hrest zeros) ((readBlock_follows _ _).bind hrest)

theorem writeLoop_follows (offset len : Nat) (data : Buf) (fuel done : Nat) (nd : Inode) :
    Follows errorFree (writeLoop offset len data fuel done nd) := by
  induction fuel generalizing done nd with
  | zero => exact .ret _
  | succ fuel ih =>
    refine .branch (.bind ?_ fun r => ih _ r.1) (.ret _)
    exact .branch (writeWholeBlocks_follows _ _ _ _) (writePartBlock_follows _ _ _ _ _)

theorem bitmapWriteDeferEnd_follows : Follows errorFree bitmapWriteDeferEnd := by
  refine fun v => .bind_get (.branch (fun _ => .ret _) fun _ => ?_)
  refine (FollowsAt.put rfl).bind fun _ w _ => FollowsAt.branch (fun _ => FollowsAt.ret _) fun _ => ?_
  have hinodes : Follows errorFree (do
      if v.inodeBitmapDirty then writeBlock 3 v.inodeBitmap
      modify fun v => { v with inodeBitmapDirty := false } : M Unit) := by
    exact .branch ((writeBlock_follows _ _).bind fun _ _ => .assign rfl) fun _ => .assign rfl
  have hboth : Follows errorFree (do
      modify fun v => { v with blockBitmapDirty := false }
      if v.inodeBitmapDirty then writeBlock 3 v.inodeBitmap
      modify fun v => { v with inodeBitmapDirty := false } : M Unit) := by
    refine fun w => .bind (.assign ?_) fun _ w' _ => hinodes w'
    rfl
  exact .branch (fun _ => (writeBlock_follows _ _ w).bind fun _ w' _ => hboth w')
    fun _ => hboth w

theorem deferred_follows {body : M α} (h : Follows errorFree body) :
    Follows errorFree (deferred body) := by
  refine fun v => .bind (x := bitmapWriteDeferBegin) (.assign ?_) fun _ w _ => ?_
  · rfl
  refine (h w).cleanup.bind fun a w' _ => ?_
  exact (bitmapWriteDeferEnd_follows w').bind fun _ _ _ => .ret a

theorem writeFileRange_follows (ino : Nat) (nd : Inode) (offset : Nat) (data : List UInt8) :
    Follows errorFree (writeFileRange ino nd offset data) := by
  refine fun v => (deferred_follows (writeLoop_follows _ _ _ _ 0 nd) v).bind fun nd w _ => ?_
  exact .bind_get ((writeInode_follows ino _ w).bind fun _ _ _ => .ret _)

theorem dirAddInBlocks_follows (dirIno : Nat) (name : Name) (child type n logical : Nat)
    (dir : Inode) : Follows errorFree (dirAddInBlocks dirIno name child type n logical dir) := by
  induction n generalizing logical dir with
  | zero => exact .ret _
  | succ n ih =>
    refine (inodeGetDataBlockEx_follows dir logical true).bind fun r => ?_
    refine (readBlock_follows _ _).bind fun buf => ?_
    cases dirSlotInBlock (dirRecLen name.length) buf with
    | none => exact ih (logical + 1) r.1
    | some slot =>
      refine .bind (fun _ => .ask fun _ h => h) fun placed => ?_
      exact (writeBlock_follows _ _).bind fun _ => (writeInode_follows _ _).bind fun _ => .ret _

theorem dirAddEntry_follows {dirIno : Nat} {dir : Inode} {child type : Nat}
    (h : dirFindEntry (errorFree v) dir name = none) :
    FollowsAt errorFree v (dirAddEntry dirIno dir name child type)
      (dirAddEntry dirIno dir name child type) := by
  refine .bind_get (.branch (fun _ => .raise _ _) fun _ => ?_)
  rw [h, if_neg (show ¬(none : Option (Nat × Nat)).isSome = true from Bool.false_ne_true)]
  by_cases hfound : (dirFindEntry v dir name).isSome = true
  · rw [if_pos hfound]
    exact .raise _ _
  · rw [if_neg hfound]
    refine (?_ : Follows errorFree _) v
    refine (dirAddInBlocks_follows dirIno name child type _ 0 dir).bind fun r => ?_
    refine .branch (.ret _) (.branch (.raise _) ?_)
    refine (inodeGetDataBlockEx_follows r.1 _ true).bind fun q => ?_
    refine .bind (fun _ => .ask fun _ h => h) fun placed => ?_
    exact (writeBlock_follows _ _).bind fun _ => (writeInode_follows _ _).bind fun _ => .ret _

theorem Born.dirFindEntry {nd : Inode} {v1 : Vol} (h : Born v ino nd v1) (hv : Ready v)
    (hc : Consistent v) (hat : CreateAt v path c) (name : Name) :
    Ext2.dirFindEntry v1 c.parent name = Ext2.dirFindEntry v c.parent name := by
  rw [dirFindEntry_eq h.ready (h.parent_held hc hat).lt, dirFindEntry_eq hv (hat.held hc).lt,
    funext (h.parent_blockAt hc hat)]

structure NamesSeen (v : Vol) (path : Path) : Prop where
  whole : resolvePath v path = none → resolvePath (errorFree v) path = none
  leaf : ∀ c, resolveCreatePath v path = some c → dirFindEntry v c.parent c.leaf = none →
    dirFindEntry (errorFree v) c.parent c.leaf = none

section

variable (hv : Ready (errorFree v)) (hc : Consistent v) (hs : SoundDirs v)
include hv hc hs

theorem createFileInParent_follows (hat : CreateAt (errorFree v) path c)
    (hseen : dirFindEntry v c.parent c.leaf = none →
      dirFindEntry (errorFree v) c.parent c.leaf = none) :
    FollowsAt errorFree v (createFileInParent c) (createFileInParent c) := by
  refine .bind_get ?_
  cases hfind : dirFindEntry v c.parent c.leaf with
  | some e =>
    have hparent : c.parent = table v c.parentIno := hat.parent
    rw [hparent] at hfind
    have hfree := dirFindEntry_errors hv hc hs hat.short hfind
    rw [← hparent] at hfree
    simp only [hfree]
    have hread : FollowsAt errorFree v (query (readInode · e.1) Fail.device)
        (query (readInode · e.1) Fail.device) := .ask fun nd h => (readInode_errors h).2
    refine hread.bind fun nd w _ => ?_
    exact .branch (fun _ => .ret _) fun _ => .raise _ _
  | none =>
    simp only [hseen hfind]
    refine (allocInode_follows v).bind fun ino v1 halloc => ?_
    have ht : Taken (errorFree v) ino (errorFree v1) :=
      (allocInode_taken hv).of_ok (allocInode_follows v ino v1 halloc)
    refine (writeInode_follows ino _ v1).bind fun _ v2 hwrite => ?_
    have hput : errorFree v2 = putInode (errorFree v1) ino (newInode fileMode 1 v.now) := by
      have := (writeInode_follows ino _ v1 _ v2 hwrite).symm.trans (writeInode_run ht.ready ht.valid _)
      injection this
    have hfits := newInode_fits (show fileMode < 65536 by decide) (show 1 < 65536 by decide) hv.clock
    have hborn := Born.of_put hc.errorFree ht hfits (Inode.Blank.owned (newInode_blank _ _ _))
    have hnone : dirFindEntry (errorFree v2) c.parent c.leaf = none := by
      rw [hput]
      exact (hborn.dirFindEntry hv hc.errorFree hat c.leaf).trans (hseen hfind)
    refine .bind (.cleanup ?_) fun _ _ _ => .ret _
    exact (dirAddEntry_follows hnone).bind fun _ _ _ => .ret _

theorem openForWrite_follows (hseen : create = true → NamesSeen v path) :
    FollowsAt errorFree v (openForWrite path create) (openForWrite path create) := by
  refine .bind_get ?_
  cases hres : resolvePath v path with
  | some r =>
    simp only [resolvePath_errors hv hc hs hres]
    exact .ret _
  | none =>
    cases create with
    | false => exact .raise _ _
    | true =>
      have hseen := hseen rfl
      simp only [hseen.whole hres]
      have hparent : FollowsAt errorFree v (query (resolveCreatePath · path) Fail.refused)
          (query (resolveCreatePath · path) Fail.refused) :=
        .ask fun c h => resolveCreatePath_errors hv hc hs h
      refine hparent.bind fun c w hask => ?_
      obtain ⟨hcreate, rfl⟩ := query_eq_ok hask
      exact createFileInParent_follows hv hc hs
        (resolveCreatePath_eq_some hv (resolveCreatePath_errors hv hc hs hcreate))
        (hseen.leaf c hcreate)

theorem ext2WriteAtPath_follows {inoutSize : Nat} (hseen : create = true → NamesSeen v path) :
    FollowsAt errorFree v (ext2WriteAtPath path offset data inoutSize create)
      (ext2WriteAtPath path offset data inoutSize create) := by
  have hstart : Follows errorFree requireWritable := fun w =>
    .bind_get (.branch (fun _ => .raise _ _) fun _ => .ret _)
  refine (hstart v).bind fun _ w hrun => ?_
  obtain rfl : w = v := (.bind_get (.branch (fun _ => .raise trivial)
    fun _ => .ret rfl) : Post requireWritable v (fun _ w => w = v) (fun _ _ => True)).of_ok hrun
  refine .branch (fun _ => .raise _ _) fun _ =>
    .branch (fun _ => .raise _ _) fun _ => ?_
  refine (openForWrite_follows hv hc hs hseen).bind fun r w1 _ => ?_
  refine .branch (fun _ => .raise _ _) fun _ =>
    .branch (fun _ => .ret _) fun _ => ?_
  exact (writeFileRange_follows r.1 r.2 offset data w1).bind fun _ _ _ => .ret _

end

/-- Among the inodes in `used`, the names of `N'` are those of `N` and perhaps more. -/
structure Names.Below (N N' : Names) (used : Nat → Prop) : Prop where
  mode : ∀ i, used i → N'.mode i = N.mode i
  find : ∀ i, used i → ∀ name e, name.length ≤ 255 → N.find i name = some e →
    N'.find i name = some e ∧ used e.1
  target : ∀ i, used i → N.isSymlink i = true → N'.target i = N.target i

variable {N N' : Names} {used : Nat → Prop}

theorem Names.Below.visit (h : N.Below N' used) {redirect redirect' : Path → Option (Nat × Nat)}
    (hred : ∀ text r, redirect text = some r → redirect' text = some r ∧ used r.2)
    {cs : List Component} {dirPath : Path} {cur : Nat} (hcur : used cur)
    (hvisit : N.visit ff redirect cs dirPath cur = some r) :
    N'.visit ff redirect' cs dirPath cur = some r ∧ used r.2 := by
  induction cs generalizing dirPath cur with
  | nil =>
    obtain rfl := Option.some.inj hvisit
    exact ⟨rfl, hcur⟩
  | cons c cs ih =>
    unfold Names.visit at hvisit ⊢
    obtain ⟨hlong, hvisit⟩ := some_of_guard hvisit
    rw [if_neg hlong]
    by_cases hdot : c.name = dotName
    · rw [if_pos hdot] at hvisit ⊢
      exact ih hcur hvisit
    rw [if_neg hdot] at hvisit ⊢
    split at hvisit
    · cases hvisit
    rename_i next type hfind
    obtain ⟨hfind', hnext⟩ := h.find cur hcur c.name _ (by omega) hfind
    have hmode := h.mode next hnext
    have hsym : N'.isSymlink next = N.isSymlink next := by rw [isSymlink, isSymlink, hmode]
    have hdir : N'.isDir next = N.isDir next := by rw [isDir, isDir, hmode]
    simp only [hfind', hsym, hdir]
    split_ifs at hvisit ⊢ with hvalid hlink hlast hnodir hup
    · rw [h.target next hnext hlink.1]
      split at hvisit
      · cases hvisit
      split at hvisit
      · cases hvisit
      · exact hred _ _ hvisit
    · obtain rfl := Option.some.inj hvisit
      exact ⟨rfl, hnext⟩
    · exact ih hnext hvisit
    · split at hvisit
      · cases hvisit
      · exact ih hnext hvisit

theorem Names.Below.resolve (h : N.Below N' used) (hroot : used 2)
    (hres : N.resolve ff levels path = some r) : N'.resolve ff levels path = some r ∧ used r.2 := by
  induction levels generalizing path r with
  | zero => cases hres
  | succ levels ih =>
    rw [Names.resolve_succ] at hres ⊢
    exact h.visit (fun text r hr => ih hr) hroot hres

structure SoundVolume (v : Vol) : Prop where
  ready : Ready v
  consistent : Consistent v
  clean : CleanFiles v
  dirs : ∀ ino, inodeIsDir (table v ino) = true → DirSound v ino
  root : usedInode v 2 = true
  entries : ∀ dir, usedInode v dir = true → ∀ name e, name.length ≤ 255 →
    dirFindEntry v (table v dir) name = some e → usedInode v e.1 = true

theorem SoundVolume.in_use (h : SoundVolume v)
    (hres : (names v).resolve ff levels path = some r) : usedInode v r.2 = true :=
  have hbelow : (names v).Below (names v) fun i => usedInode v i = true :=
    ⟨fun _ _ => rfl, fun i hi name e hn hfind => ⟨hfind, h.entries i hi name e hn hfind⟩,
      fun _ _ _ => rfl⟩
  (hbelow.resolve h.root hres).2

theorem DirSound.sameFile {v' : Vol} (h : DirSound v ino) (hsame : SameFile v v' ino)
    (hready : Ready v') (hcons : Consistent v') : DirSound v' ino := by
  have hspecial := inodeIsSpecial_of_isDir h.dir
  refine ⟨hready, hcons, h.valid, by rw [hsame.record]; exact h.dir, ?_, ?_⟩
  · rw [hsame.record, hsame.contents hspecial]
    exact h.sized
  · rw [hsame.dirEntries h.dir]
    exact h.tiled

section

variable {v1 : Vol} {type : Nat} {nd parent' : Inode}

theorem Named.find_parent (hs : SoundVolume v) (hat : CreateAt v path c)
    (hn : Named v c ino nd type v1 parent') (hparent : c.parentIno ≠ ino) (htype : type < 256)
    (hnone : dirFindEntry v c.parent c.leaf = none) (hname : name.length ≤ 255) :
    dirFindEntry v1 (table v1 c.parentIno) name =
      if c.leaf = name then some (ino, type) else dirFindEntry v (table v c.parentIno) name := by
  obtain ⟨u, hborn, hadd⟩ := hn
  have hsame := hborn.sameFile hs.consistent hparent
  have hdir : inodeIsDir (table v c.parentIno) = true := hat.parent ▸ hat.dir
  have hsound := (hs.dirs _ hdir).sameFile hsame hborn.ready hborn.consistent
  have hrec : c.parent = table u c.parentIno := hat.parent.trans hsame.record.symm
  have hadd' := hadd
  rw [hrec] at hadd'
  have hlow := hborn.low
  have hhigh := hborn.high
  obtain ⟨_, front, back, hes, _, hes'⟩ := hsound.entry_added hadd' (by omega) (by omega) htype
  obtain ⟨hsaved, hkind, _⟩ := hadd.saved
  have hself := hsaved.table_self
  have hdir' : inodeIsDir parent' = true := by
    have := hat.dir
    rw [inodeIsDir] at this ⊢
    rwa [hkind.mode]
  have hheld' : Held v1 c.parentIno parent' := by
    have hspecial : inodeIsSpecial (table v1 c.parentIno) = false :=
      inodeIsSpecial_of_isDir (by rw [hself]; exact hdir')
    have := hsaved.consistent.held hspecial
    rwa [hself] at this
  have hbefore : ∀ name : Name, name.length ≤ 255 →
      dirFindEntry v (table v c.parentIno) name = findIn (front ++ back) name := by
    intro name hname
    rw [← hsame.dirFindEntry hs.ready hborn.ready hs.consistent hborn.consistent,
      dirFindEntry_listed hborn.ready hsound.held hsound.dir hname hes]
  rw [hself, dirFindEntry_listed hsaved.ready hheld' hdir' hname hes', findIn_insert,
    hbefore name hname]
  · rfl
  · rw [← hbefore _ hat.short, ← hat.parent]
    exact hnone

theorem Named.sameFile (hn : Named v c ino nd type v1 parent') (hc : Consistent v)
    (hat : CreateAt v path c) (hj : j ≠ ino) (hparent : j ≠ c.parentIno) : SameFile v v1 j := by
  obtain ⟨u, hborn, hadd⟩ := hn
  exact (hborn.sameFile hc hj).trans (hadd.saved.1.sameFile (hborn.parent_held hc hat) hparent)

theorem Named.parent_mode (hn : Named v c ino nd type v1 parent') (hat : CreateAt v path c) :
    (table v1 c.parentIno).mode = (table v c.parentIno).mode := by
  obtain ⟨u, hborn, hadd⟩ := hn
  rw [hadd.saved.1.table_self, hadd.saved.2.1.mode, hat.parent]

theorem Named.fresh (hn : Named v c ino nd type v1 parent') (hj : usedInode v j = true) :
    j ≠ ino := by
  obtain ⟨u, hborn, _⟩ := hn
  rintro rfl
  exact Bool.false_ne_true (hborn.fresh.symm.trans hj)

theorem Named.below (hs : SoundVolume v) (hat : CreateAt v path c)
    (hn : Named v c ino nd type v1 parent') (hparent : c.parentIno ≠ ino) (htype : type < 256)
    (hnone : dirFindEntry v c.parent c.leaf = none) :
    (names v).Below (names v1) fun i => usedInode v i = true := by
  have hready := hn.saved.1
  have hcons := hn.saved.2.1
  refine ⟨fun i hi => ?_, fun i hi name e hname hfind => ⟨?_, hs.entries i hi name e hname hfind⟩,
    fun i hi hlink => ?_⟩
  · by_cases hp : i = c.parentIno
    · subst hp
      exact hn.parent_mode hat
    · exact congrArg Inode.mode (hn.sameFile hs.consistent hat (hn.fresh hi) hp).record
  · show dirFindEntry v1 (table v1 i) name = some e
    by_cases hp : i = c.parentIno
    · subst hp
      rw [hn.find_parent hs hat hparent htype hnone hname, if_neg, ← hfind]
      · rfl
      · rintro rfl
        have hfind : dirFindEntry v (table v c.parentIno) c.leaf = some e := hfind
        rw [← hat.parent, hnone] at hfind
        cases hfind
    · rw [(hn.sameFile hs.consistent hat (hn.fresh hi) hp).dirFindEntry hs.ready hready
        hs.consistent hcons]
      exact hfind
  · have hp : i ≠ c.parentIno := by
      rintro rfl
      have hdir : inodeIsDir (table v c.parentIno) = true := hat.parent ▸ hat.dir
      rw [show (names v).isSymlink c.parentIno = inodeIsSymlink (table v c.parentIno) from rfl,
        not_isSymlink_of_isDir hdir] at hlink
      cases hlink
    show (readSymlinkInode v1 (table v1 i) 256).map cString = _
    rw [(hn.sameFile hs.consistent hat (hn.fresh hi) hp).readSymlinkInode hs.ready hready
      hs.consistent hcons]
    rfl

theorem Named.refines (hs : SoundVolume v) (hinit : v.initialised = true) (hwr : v.readOnly = false)
    (hat : CreateAt v path c) (hn : Named v c ino (newInode fileMode 1 v.now) type v1 parent')
    (hparent : c.parentIno ≠ ino) :
    Refines v1 (update (contents v) ino []) v1 ∧ inodeIsFile (table v1 ino) = true ∧
      table v1 ino = newInode fileMode 1 v.now := by
  have hcons := hn.saved.2.1
  have hself : table v1 ino = newInode fileMode 1 v.now := by
    obtain ⟨u, hborn, hadd⟩ := hn
    rw [hadd.saved.1.record, update_of_ne hparent.symm, hborn.table_self]
  have hfile : inodeIsFile (table v1 ino) = true := by
    rw [hself]
    exact show (fileType fileMode == 0x8000) = true by decide
  have hother : ∀ j, j ≠ ino → inodeIsFile (table v1 j) = true → SameFile v v1 j := by
    intro j hj hjfile
    refine hn.sameFile hs.consistent hat hj ?_
    rintro rfl
    have hdir := hat.dir
    rw [hat.parent, inodeIsDir, beq_iff_eq, ← hn.parent_mode hat] at hdir
    rw [inodeIsFile, beq_iff_eq, hdir] at hjfile
    exact absurd hjfile (by decide)
  have henv : SameEnv v v1 := by
    obtain ⟨u, hborn, hadd⟩ := hn
    exact hborn.env.trans hadd.saved.1.env
  refine ⟨⟨hn.saved.1, hcons, henv.initialised.trans hinit, henv.readOnly.trans hwr, rfl,
    fun j hj => ?_, fun j hj => ?_⟩, hfile, hself⟩
  · by_cases hi : j = ino
    · subst hi
      rw [hself]
      refine ⟨fun q _ => fileByte_of_hole ((newInode_blank _ _ _).tree _ _), Nat.zero_le _⟩
    · exact (hother j hi hj).cleanFile hs.clean hj
  · by_cases hi : j = ino
    · subst hi
      rw [update_self, contents, hself]
      rfl
    · have hsame := hother j hi hj
      rw [hsame.record] at hj
      rw [update_of_ne hi, hsame.contents_eq hj]

end

def writeTarget (v : Vol) (path : Path) : Option Nat := (regularFile v path).or (namedFile v path)

def replaced (old : List UInt8) (offset : Nat) (data : List UInt8) : List UInt8 :=
  if data = [] then old else overwrite 0 old offset data

/-- Every path that led to a file leads there still, and a read of any file shows its old contents,
with the range replaced in the file that was written. -/
def Written (v : Vol) (path : Path) (offset : Nat) (data : List UInt8) (v' : Vol) : Prop :=
  (∀ p j, regularFile v p = some j → regularFile v' p = some j) ∧
  ∃ ino, (writeTarget v path = some ino ∨
      writeTarget v path = none ∧ namedFile v' path = some ino) ∧
    ∀ p j, regularFile v' p = some j → ∀ start len, ext2ReadAtPath v' p start len =
      some (((if j = ino then replaced ((writeTarget v path).elim [] (contents v)) offset data
        else contents v j).drop start).take len)

theorem Refines.written {u : Vol} {files : Files} (h : Refines u files w)
    (hfile : inodeIsFile (table w ino) = true) (hmax : offset + data.length ≤ maxWriteFileBytes)
    (hdone : (data = [] ∧ w' = w ∧ size = (table w ino).size) ∨
      (data ≠ [] ∧ ∃ nd', Saved ino w (table w ino) w' nd' ∧ SameKind (table w ino) nd' ∧
        size = nd'.size ∧ nd'.size = max (table w ino).size (offset + data.length) ∧
        ∀ q, fileByte w'.disk nd' q =
          if offset ≤ q ∧ q < offset + data.length then data.getD (q - offset) 0
          else fileByte w.disk (table w ino) q)) :
    Refines u (update files ino (replaced (files ino) offset data)) w' := by
  obtain ⟨hnil, rfl, _⟩ | ⟨hne, nd', hs, hkind, _, hsize, hbytes⟩ := hdone
  · rwa [replaced, if_pos hnil, update_eq_self]
  · rw [replaced, if_neg hne]
    exact (h.overwritten hfile hs hkind hsize (hmax.trans maxWriteFileBytes_le) hbytes).2

theorem Refines.start (hs : SoundVolume w) (hinit : w.initialised = true)
    (hwr : w.readOnly = false) : Refines w (contents w) w :=
  ⟨hs.ready, hs.consistent, hinit, hwr, rfl, hs.clean, fun _ _ => rfl⟩

theorem written_in_place (hw : Ready w) (htarget : writeTarget w path = some ino)
    (h : Refines w (update (contents w) ino (replaced (contents w ino) offset data)) w') :
    Written w path offset data w' := by
  have hfile : ∀ p, regularFile w' p = regularFile w p := fun p => by
    rw [regularFile_eq hw, regularFile_eq h.ready, h.names]
  refine ⟨fun p j hj => (hfile p).trans hj, ino, .inl htarget, fun p j hj start len => ?_⟩
  rw [h.read hw, readFiles, ← hfile, hj, map_some, htarget]
  simp only [elim_some, update_apply]

theorem namedFile_of_named {type : Nat}
    (hw' : Ready w') (hat : CreateAt w path c) (hshort : (createParent path).length < 256)
    (hres : ∃ p, (names w').resolve true 9 (createParent path) = some (p, c.parentIno))
    (hdir : (names w').isDir c.parentIno = true)
    (hfind : (names w').find c.parentIno c.leaf = some (ino, type)) (hi : ValidIno ino)
    (hfile : (names w').isFile ino = true) : namedFile w' path = some ino := by
  obtain ⟨p, hres⟩ := hres
  have hleaf : ¬(createLeaf path = [] ∨ 256 ≤ (createLeaf path).length ∨
      createLeaf path = dotName ∨ createLeaf path = dotDotName) := by
    rw [← hat.leaf]
    have := hat.short
    exact fun h => h.elim hat.nonempty fun h => h.elim (by omega) fun h =>
      h.elim hat.notDot hat.notDotDot
  rw [namedFile_eq hw', if_neg hleaf, if_neg (by omega), hres]
  simp only [hdir, if_true, ← hat.leaf, hfind]
  rw [if_neg hi.not_refused, if_pos hfile]

theorem namedFile_of_none (hw : Ready w)
    (hat : CreateAt w path c) (hnone : dirFindEntry w c.parent c.leaf = none) :
    namedFile w path = none := by
  obtain ⟨p, hres⟩ := hat.resolves
  have hfind : (names w).find c.parentIno c.leaf = none := by
    rw [← hnone, hat.parent]
    rfl
  rw [namedFile_eq hw, hres]
  simp only [← hat.leaf, hfind, ite_self]

theorem written_new {w1 : Vol} {parent' : Inode}
    (hs : SoundVolume w) (hat : CreateAt w path c) (hshort : (createParent path).length < 256)
    (hres : regularFile w path = none) (hnone : dirFindEntry w c.parent c.leaf = none)
    (hparent : c.parentIno ≠ ino) (hn : Named w c ino (newInode fileMode 1 w.now) 1 w1 parent')
    (hfile : inodeIsFile (table w1 ino) = true)
    (h : Refines w1 (update (contents w) ino (replaced [] offset data)) w') :
    Written w path offset data w' := by
  have hready := hn.saved.1
  have hbelow := hn.below hs hat hparent (show 1 < 256 by decide) hnone
  have hsame : ∀ p, regularFile w' p = regularFile w1 p := fun p => by
    rw [regularFile_eq hready, regularFile_eq h.ready, h.names]
  have htarget : writeTarget w path = none := by
    rw [writeTarget, hres, namedFile_of_none hs.ready hat hnone]
    rfl
  refine ⟨fun p j hj => ?_, ino, .inr ⟨htarget, ?_⟩, fun p j hj start len => ?_⟩
  · rw [hsame]
    rw [regularFile_eq hs.ready] at hj
    rw [regularFile_eq hready]
    cases hr : (names w).resolve true 9 p with
    | none =>
      rw [hr] at hj
      cases hj
    | some r =>
      obtain ⟨hr', hused⟩ := hbelow.resolve hs.root hr
      have hmode : (names w1).isFile r.2 = (names w).isFile r.2 := by
        rw [Names.isFile, Names.isFile, hbelow.mode _ hused]
      rw [hr']
      simp only [hr, hmode] at hj ⊢
      exact hj
  · obtain ⟨p, hresolve⟩ := hat.resolves
    obtain ⟨hresolve', hused⟩ := hbelow.resolve hs.root hresolve
    have hfind : (names w').find c.parentIno c.leaf = some (ino, 1) := by
      rw [h.names]
      exact (hn.find_parent hs hat hparent (by decide) hnone hat.short).trans (if_pos rfl)
    refine namedFile_of_named h.ready hat hshort ⟨p, ?_⟩ ?_ hfind hn.saved.2.2 ?_
    · rwa [h.names]
    · rw [h.names, Names.isDir, hbelow.mode _ hused]
      exact show inodeIsDir (table w c.parentIno) = true from hat.parent ▸ hat.dir
    · rw [h.names]
      exact hfile
  · rw [h.read hready, readFiles, ← hsame, hj, map_some, htarget]
    simp only [elim_none, update_apply]

theorem written_of_done
    (hs : SoundVolume w) (hinit : w.initialised = true) (hwr : w.readOnly = false)
    (hshort : resolvePath w path = none → (createParent path).length < 256)
    (hdone : WriteAtDone w path offset data create size w') : Written w path offset data w' := by
  obtain ⟨hmax, ⟨ino, nd⟩, w1, hopen, hfile, hend⟩ := hdone
  obtain ⟨rfl, p, hres⟩ | ⟨hres, _, c, hat, hopened⟩ := hopen
  · obtain ⟨_, hrec, _⟩ := resolvePath_eq_some hs.ready hres
    simp only at hrec hfile hend
    subst hrec
    have htarget : regularFile w1 path = some ino := by
      unfold regularFile
      simp only [hres, hfile, if_true]
    refine written_in_place hs.ready (by rw [writeTarget, htarget]; rfl) ?_
    exact (Refines.start hs hinit hwr).written hfile hmax hend
  · have hnofile : regularFile w path = none := by
      unfold regularFile
      simp only [hres]
    obtain ⟨rfl, hi, hrec, _, type, hfind⟩ | ⟨hnone, hnd, parent', hn⟩ := hopened
    · simp only at hi hrec hfile hend hfind
      subst hrec
      have htarget : namedFile w1 path = some ino :=
        namedFile_of_named hs.ready hat (hshort hres) hat.resolves
          (show inodeIsDir (table w1 c.parentIno) = true from hat.parent ▸ hat.dir)
          (show dirFindEntry w1 (table w1 c.parentIno) c.leaf = _ from hat.parent ▸ hfind) hi hfile
      refine written_in_place hs.ready (by rw [writeTarget, hnofile, htarget]; rfl) ?_
      exact (Refines.start hs hinit hwr).written hfile hmax hend
    · simp only at hnd hfile hend hn
      subst hnd
      have hparent : c.parentIno ≠ ino := by
        obtain ⟨p, hresolve⟩ := hat.resolves
        have hused := hs.in_use hresolve
        exact hn.fresh hused
      obtain ⟨hrefines, hfile1, hself⟩ := hn.refines hs hinit hwr hat hparent
      rw [← hself] at hend
      have hnew := hrefines.written hfile1 hmax hend
      rw [update_self, update_idem] at hnew
      exact written_new hs hat (hshort hres) hnofile hnone hparent hn hfile1 hnew

theorem ext2WriteAtPath_parent (w : Vol) (path : Path) (offset : Nat) (data : List UInt8)
    (inoutSize : Nat) (create : Bool) : Post (ext2WriteAtPath path offset data inoutSize create) w
      (fun _ _ => w.initialised = true ∧ w.readOnly = false ∧
        (resolvePath w path = none → (createParent path).length < 256)) (fun _ _ => True) := by
  refine .seq (R := fun _ w' => w = w' ∧ w.initialised = true ∧ w.readOnly = false)
    (.bind_get (.guard trivial fun h => .ret ⟨rfl, ?_⟩)) ?_
  · simpa using h
  rintro _ _ ⟨rfl, hinit, hwr⟩
  refine .guard trivial fun _ => .branch (fun _ => .raise trivial) fun _ => ?_
  refine .seq (R := fun _ _ => resolvePath w path = none → (createParent path).length < 256)
    (.bind_get ?_) fun r w1 hparent => (Post.any _ w1).weaken fun _ _ _ => ⟨hinit, hwr, hparent⟩
  cases hres : resolvePath w path with
  | some r => exact .ret fun h => nomatch h
  | none =>
    refine .branch (fun _ => ?_) fun _ => .raise trivial
    refine .seq (R := fun _ _ => (createParent path).length < 256)
      (.ask (fun c h => ?_) fun _ => trivial) fun c w1 hshort =>
        (Post.any _ w1).weaken fun _ _ _ _ => hshort
    unfold resolveCreatePath at h
    simp only at h
    split_ifs at h with h1 h2
    omega

theorem SoundVolume.saved {nd' : Inode} (h : SoundVolume w)
    (hfile : inodeIsFile (table w ino) = true) (hs : Saved ino w (table w ino) w' nd')
    (hkind : SameKind (table w ino) nd') (hclean : CleanFiles w') : SoundVolume w' := by
  have hheld := h.consistent.held (inodeIsSpecial_of_isFile hfile)
  have hused : usedInode w' = usedInode w := by
    funext i
    simp only [usedInode, hs.inodes]
  have hnames := hs.names h.ready h.consistent hfile hkind
  refine ⟨hs.ready, hs.consistent, hclean, fun j hj => ?_, by rw [hused]; exact h.root, ?_⟩
  · by_cases hi : j = ino
    · subst hi
      rw [hs.table_self, inodeIsDir, hkind.mode, beq_iff_eq] at hj
      rw [inodeIsFile, hj] at hfile
      exact absurd hfile (by decide)
    · have hsame := hs.sameFile hheld hi
      rw [hsame.record] at hj
      exact (h.dirs j hj).sameFile hsame hs.ready hs.consistent
  · intro dir hdir name e hname hfind
    rw [hused] at hdir ⊢
    refine h.entries dir hdir name e hname ?_
    rw [← hfind]
    exact congrFun (congrFun (congrArg Names.find hnames.symm) dir) name

end

def WritesTrue (v : Vol) (path : Path) (offset : Nat) (data : List UInt8) (inoutSize : Nat)
    (create : Bool) : Prop :=
  ∀ size v', ext2WriteAtPath path offset data inoutSize create v = .ok size v' →
    Written (errorFree v) path offset data (errorFree v')

/-- A read delivers what the file holds exactly when no data of its range is behind a
pointer block that cannot be read; and a write that succeeds is right when every name it
did not find is absent. -/
theorem read_errors_hide_data {v : Vol} (hs : SoundVolume (errorFree v)) (path : Path)
    (offset len : Nat) (data : List UInt8) (inoutSize : Nat) (create : Bool) :
    (ReadsTrue v path offset len ↔ ¬HiddenData v path offset len) ∧
      ((create = true → NamesSeen v path) → WritesTrue v path offset data inoutSize create) := by
  have hc : Consistent v :=
    show Holds v (books v) from Holds.transfer hs.consistent (fun _ _ => rfl) fun _ => rfl
  have hdirs : SoundDirs v := fun ino hdir => (hs.dirs ino hdir).tiled
  refine ⟨readsTrue_iff hs.ready hc hdirs path offset len, fun hseen size v' hrun => ?_⟩
  have hfree := ext2WriteAtPath_follows hs.ready hc hdirs hseen size v' hrun
  obtain ⟨hinit, hwr, hshort⟩ := (ext2WriteAtPath_parent _ _ _ _ _ _).of_ok hfree
  exact written_of_done hs hinit hwr hshort
    ((ext2WriteAtPath_post hs.ready hs.consistent _ _ _ _ _).of_ok hfree)

theorem oneFile_soundVolume : SoundVolume oneFile.volume := by
  have hdir : ∀ ino, inodeIsDir (table oneFile.volume ino) = true → ino = 2 := by
    intro ino h
    rw [oneFile_sound.table] at h
    by_contra hne
    by_cases h11 : ino = 11
    · subst h11
      exact absurd h (by decide)
    · have hlook : oneFile.records.lookup ino = none := by
        simp only [oneFile, List.lookup_cons, beq_eq_false_iff_ne.mpr hne,
          beq_eq_false_iff_ne.mpr h11, List.lookup_nil]
      rw [hlook] at h
      exact absurd h (by decide)
  refine ⟨oneFile_sound.ready, oneFile_sound.consistent, oneFile_clean, fun ino h => ?_, by decide,
    fun dir _ name e hname hfind => ?_⟩
  · rw [hdir ino h]
    exact oneFile_root_sound
  · have hisDir : inodeIsDir (table oneFile.volume dir) = true := by
      unfold dirFindEntry at hfind
      split_ifs at hfind with h
      exact h
    obtain rfl := hdir dir hisDir
    have hes : dirEntries oneFile.volume (table oneFile.volume 2) =
        some [⟨dotName, 2, 2⟩, ⟨dotDotName, 2, 2⟩, ⟨[102], 11, 1⟩] := by
      rw [oneFile_sound.table]
      decide
    rw [dirFindEntry_listed oneFile_sound.ready oneFile_root_sound.held hisDir hname hes] at hfind
    obtain ⟨k, hk, -, rfl⟩ := mem_of_findIn hfind
    have hall : ∀ k ∈ [(⟨dotName, 2, 2⟩ : Entry), ⟨dotDotName, 2, 2⟩, ⟨[102], 11, 1⟩],
        usedInode oneFile.volume k.found.1 = true := by decide
    exact hall k hk

def badAt (v : Vol) (b : Nat) : Vol := { v with readFails := (· == b) }

theorem errorFree_badAt {v : Vol} (h : v.readFails = fun _ => false) (b : Nat) :
    errorFree (badAt v b) = v := by
  show ({ v with readFails := fun _ => false } : Vol) = v
  rw [← h]

theorem table_badAt (v : Vol) (b : Nat) : table (badAt v b) = table v := rfl

theorem farByte_sound
    (hrun : ext2WriteAtPath [47, 102] 49152 [7] 0 false oneFile.volume = .ok size w) :
    SoundVolume w ∧ w.readFails = (fun _ => false) ∧
      fileByte w.disk (table w 11) 49152 = 7 ∧ 49152 < (table w 11).size ∧
      regularFile w [47, 102] = some 11 := by
  have hdone := (ext2WriteAtPath_post oneFile_sound.ready oneFile_sound.consistent _ _ _ _ _).of_ok hrun
  have htarget : regularFile oneFile.volume [47, 102] = some 11 := by decide
  obtain ⟨⟨p, hres⟩, _, hfile⟩ := regularFile_eq_some oneFile_sound.ready htarget
  obtain ⟨hmax, ⟨ino, nd⟩, w1, ⟨rfl, q, hopen⟩ | ⟨hnone, _⟩, _, hend⟩ := hdone
  · obtain ⟨rfl, rfl⟩ : 11 = ino ∧ table oneFile.volume 11 = nd := by
      have heq := Option.some.inj (hres.symm.trans hopen)
      injection heq with _ h1 h2
      exact ⟨h1, h2⟩
    have hrefines := (Refines.start oneFile_soundVolume (by decide) (by decide)).written hfile hmax hend
    obtain ⟨hnil, _⟩ | ⟨_, nd', hs, hkind, _, hsize, hbytes⟩ := hend
    · cases hnil
    · refine ⟨oneFile_soundVolume.saved hfile hs hkind hrefines.clean, hs.env.readFails, ?_, ?_, ?_⟩
      · rw [hs.table_self, hbytes]
        decide
      · rw [hs.table_self, hsize]
        exact Nat.lt_of_lt_of_le (by decide) (Nat.le_max_right _ _)
      · rw [regularFile_eq hrefines.ready, hrefines.names, ← regularFile_eq oneFile_sound.ready]
        exact htarget
  · cases hnone.symm.trans hres

/-- A byte that was written reads as zero when its pointer block cannot be read. -/
theorem read_errors_hide_byte : ¬∀ v : Vol, SoundVolume (errorFree v) →
    ∀ path offset len data inoutSize create, ReadsTrue v path offset len ∧
      WritesTrue v path offset data inoutSize create := by
  intro hall
  have hok : (success (ext2WriteAtPath [47, 102] 49152 [7] 0 false oneFile.volume)).any (fun r =>
      ext2ReadAtPath (badAt r.2 37) [47, 102] 49152 1 == some [0]) = true := by
    decide +kernel
  obtain ⟨⟨size, w⟩, hrun, hread⟩ := (any_eq_true _ _).mp hok
  obtain ⟨hsound, hdevice, hbyte, hsize, hregular⟩ := farByte_sound (eq_ok_of_success hrun)
  have hfree := errorFree_badAt hdevice 37
  obtain ⟨ino, hino, hbytes⟩ :=
    (hall (badAt w 37) (by rw [hfree]; exact hsound) [47, 102] 49152 1
      [] 0 false).1 [0] (beq_iff_eq.mp hread)
  rw [hfree, hregular] at hino
  obtain rfl := Option.some.inj hino
  have hone : min 1 ((table w 11).size - 49152) = 1 := by omega
  rw [rangeOf_eq, table_badAt, hone] at hbytes
  have hzero : (0 : UInt8) = fileByte w.disk (table w 11) 49152 := (List.cons.inj hbytes).1
  rw [hbyte] at hzero
  exact absurd hzero (by decide)

theorem read_errors_hide_data_one_file : SoundVolume (errorFree (badAt oneFile.volume 100)) ∧
      ReadsTrue (badAt oneFile.volume 100) [47, 102] 0 10 ∧
      WritesTrue (badAt oneFile.volume 100) [47, 102] 3 [7, 8] 0 false := by
  have hfree : errorFree (badAt oneFile.volume 100) = oneFile.volume := errorFree_badAt rfl 100
  have hsound : SoundVolume (errorFree (badAt oneFile.volume 100)) := by
    rw [hfree]
    exact oneFile_soundVolume
  refine ⟨hsound, (read_errors_hide_data hsound [47, 102] 0 10 [] 0 false).1.mpr ?_, ?_⟩
  · rintro ⟨_, r, hres, hfile, _, q, _, _, hq, _⟩
    have hc : Consistent (badAt oneFile.volume 100) :=
      Holds.transfer oneFile_sound.consistent (fun _ _ => rfl) fun _ => rfl
    obtain ⟨hrec, hregular⟩ := regularFile_errors hsound.ready hc
      (fun ino hdir => (hsound.dirs ino hdir).tiled) hres hfile
    have htarget : regularFile oneFile.volume [47, 102] = some 11 := by decide
    rw [hfree, htarget] at hregular
    rw [hrec, table_badAt, ← Option.some.inj hregular, oneFile_sound.table] at hq
    exact Nat.not_lt_zero q hq
  · exact (read_errors_hide_data hsound [47, 102] 3 0 [7, 8] 0 false).2 fun h => nomatch h

end SmallOS.Ext2
