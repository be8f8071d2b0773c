import SmallOS.Kernel.Access
import SmallOS.Ext2.DirMap

/-! The system call `unlink`. It asks whether the path is a directory with a lookup
that follows a last link, while `ext2_rm` removes the entry without following it. -/

namespace SmallOS.Ext2

open Bytes Prog Ownership Function List Option Bool

variable {path : Path}

/-- The entry `leaf` of `dir` is gone and everything else is as it was; the inode `ino`
has one name less. -/
structure NameRemoved (v v' : Vol) (dir : Nat) (leaf : Name) (ino : Nat) : Prop where
  entry : ∃ front e back, dirEntries v (table v dir) = some (front ++ e :: back) ∧ e.name = leaf ∧
    dirEntries v' (table v' dir) = some (front ++ back)
  directory : table v' dir = table v dir
  others : ∀ j, j ≠ dir → j ≠ ino → SameFile v v' j

section

variable {v v1 : Vol} {ino : Nat} {nd : Inode}

theorem freeDirect_any (hv : Ready v) (nd : Inode) :
    Post (freeDirect nd) v (fun _ v' => Effect v v' fun _ => False) (fun _ _ => False) := by
  refine .loop (fun _ _ v' => Effect v v' fun _ => False) 12 ?_ 12 0 () v rfl (Effect.refl hv _)
  intro i _ w hi hw
  refine .branch (fun _ => .ret hw) fun h0 => ?_
  by_cases hb : nd.block i < 8192
  · refine (freeBlock_post hw.ready h0 hb).weaken (fun _ w' hw' => ?_)
    exact hw.trans hw'.toEffect
  · have hrun : freeBlock (nd.block i) w = .ok () w := by
      unfold freeBlock
      rw [if_pos (.inr (by omega))]
      rfl
    exact .of_run hrun hw

theorem freeSpecial_post (hv : Ready v) (hi : ValidIno ino) (h12 : nd.block 12 = 0)
    (h13 : nd.block 13 = 0) :
    Post (do let _ ← freeInodeBlocks nd; writeInode ino Inode.zero; freeInode ino) v
      (fun _ v' => table v' = update (table v) ino Inode.zero ∧
        ∀ c, 36 ≤ c → v'.disk c = v.disk c) (fun _ _ => False) := by
  have hfree : Post (freeInodeBlocks nd) v (fun _ v' => Effect v v' fun _ => False)
      (fun _ _ => False) := by
    refine .seq (freeDirect_any hv nd) fun _ w hw => ?_
    have hrun1 : freeIndirect nd w = .ok () w := by
      rw [freeIndirect, if_pos h12]
      rfl
    have hrun2 : freeDoubleIndirect nd w = .ok () w := by
      rw [freeDoubleIndirect, if_pos h13]
      rfl
    exact .bind_run hrun1 (.bind_run hrun2 (.ret hw))
  refine .seq hfree fun _ w hw => ?_
  refine .bind_run (writeInode_run hw.ready hi _) ?_
  have hput := putInode_effect hw.ready hi Inode.zero
  refine (freeInode_dropped hput.ready hi).weaken (fun _ v' hd => ⟨?_, fun c hc => ?_⟩)
  · rw [hd.table, table_putInode_of_fits _ hi Inode.zero_fits]
    congr 1
    exact table_congr fun c hc _ => hw.disk c hc id
  · rw [hd.disk c (by omega) id, hput.disk c (by omega) (by omega), hw.disk c (by omega) id]

theorem ext2Rm_removes {c : CreatePath} {type : Nat} (hinit : v.initialised = true)
    (hro : v.readOnly = false) (hres : resolveCreatePath v path = some c)
    (hs : DirSound v c.parentIno) (hfind : dirFindEntry v c.parent c.leaf = some (ino, type))
    (hi : ValidIno ino) (hdir : inodeIsDir (table v ino) = false)
    (hspecial : inodeIsSpecial (table v ino) = true →
      (table v ino).block 12 = 0 ∧ (table v ino).block 13 = 0) :
    Post (ext2Rm path) v (fun _ v' => NameRemoved v v' c.parentIno c.leaf ino)
      (fun _ _ => False) := by
  have hat := resolveCreatePath_eq_some hs.ready hres
  have hheld := hs.held
  have hne : c.parentIno ≠ ino := by
    intro heq
    rw [← heq, hs.dir] at hdir
    cases hdir
  refine .bind_run (requireWritable_run hinit hro) ?_
  refine .bind_run (query_run hres) (.bind_run (query_run hfind) ?_)
  refine .bind_run (query_run (readInode_of_ready hs.ready hi)) ?_
  refine .branch (fun hyes => nomatch hdir.symm.trans hyes) fun _ => ?_
  rw [hat.parent] at hfind ⊢
  -- the entry goes first
  have hremove : Post (dirRemoveEntry c.parentIno (table v c.parentIno) c.leaf) v
      (fun _ v1 => EntryRemoved c.parentIno v (table v c.parentIno) v1 c.leaf)
      (fun _ _ => False) := by
    refine ((dirRemoveEntry_post hs.ready hheld hs.valid).and (hs.remove_step hat.short)).mono
      (fun _ _ h => h.1.2) fun _ _ he => ?_
    have hcause : inodeOf v c.parentIno c.leaf = none := he.2.2.2
    rw [inodeOf, hfind] at hcause
    cases hcause
  refine .seq hremove fun _ v1 hremoved => ?_
  have hsaved := hremoved.saved
  have htable : table v1 = table v := by rw [hsaved.record, update_eq_self]
  obtain ⟨es, hes, -⟩ := hs.tiled
  obtain ⟨front, e, back, rfl, hname, -, hes'⟩ := hremoved.listed hat.short hes
  -- what follows leaves every other inode as it is
  have hdone : ∀ v', (∀ j, j ≠ ino → SameFile v1 v' j) →
      NameRemoved v v' c.parentIno c.leaf ino := by
    intro v' hsame
    have hparent := hsame c.parentIno hne
    refine ⟨⟨front, e, back, hes, hname, ?_⟩, ?_, fun j hj hji => ?_⟩
    · rw [hparent.dirEntries (by rw [htable, hs.dir]), htable, hes']
    · rw [hparent.record, htable]
    · exact (hsaved.sameFile hheld hj).trans (hsame j hji)
  refine .bind_get (.branch (fun hlinks => ?_) fun hlinks => ?_)
  · refine .of_run (writeInode_run hsaved.ready hi _) (hdone _ fun j hj => ?_)
    have hput := putInode_effect hsaved.ready hi { (table v ino).unlink with ctime := v1.now }
    refine .of_disk hsaved.consistent ?_ fun k hk => hput.disk k (by omega) (by omega)
    rw [table_putInode _ hi, update_of_ne hj]
  · by_cases hs' : inodeIsSpecial (table v ino) = true
    · obtain ⟨h12, h13⟩ := hspecial hs'
      refine (freeSpecial_post hsaved.ready hi h12 h13).weaken (fun _ v' h => ?_)
      refine hdone v' fun j hj => .of_disk hsaved.consistent ?_ h.2
      rw [h.1, update_of_ne hj]
    · have hheld1 : Held v1 ino (table v ino) := by
        have := hsaved.consistent.held (show inodeIsSpecial (table v1 ino) = false by
          rw [htable]; simpa using hs')
        rwa [htable] at this
      refine (freeInode_record hsaved.ready hheld1 hi).weaken (fun _ v' h => ?_)
      obtain ⟨v2, hzero, hdropped⟩ := h
      refine hdone v' fun j hj => (hzero.sameFile hheld1 hj).trans ?_
      exact .of_disk hzero.consistent (by rw [hdropped.table])
        fun k hk => hdropped.disk k (by omega) id

end

end SmallOS.Ext2

namespace SmallOS.Kernel
open Ext2 Prog List

def vfsUnlink (path : Path) (v : Vol) : Bool × Vol :=
  match ext2Rm path v with
  | .ok _ v' => (true, v')
  | .error _ v' => (false, v')

def codeOf : Option Errno → Except Errno Unit
  | none => .ok ()
  | some e => .error e

def sysUnlink (S : System) (c : Cred) (cwd raw : Path) (v : Vol) : Except Errno Unit × Vol :=
  match copyUserPathResolved cwd raw with
  | .error e => (.error e, v)
  | .ok path =>
    if pathIsMountTarget S.mounts path then (.error .ebusy, v)
    else if pathOnPseudoMount S.mounts path then (.error .eacces, v)
    else if ext2IsDir v path then (.error .eisdir, v)
    else
      match checkParentPermission S c v path (permW ||| permX) with
      | some e => (.error e, v)
      | none =>
        match vfsUnlink path v with
        | (true, v') => (.ok (), v')
        | (false, v') => (codeOf (pathLookupErrno v' path), v')

/-- The directory of the path resolves, is sound, and holds its last component, which
names an inode that is no directory. A special file has no pointer blocks. -/
structure NamesFile (v : Vol) (path : Path) (dir ino : Nat) : Prop where
  root : inodeIsDir (table v 2) = true
  parent : ∃ r, resolvePath v (pathParent path) = some r ∧ r.ino = dir
  sound : DirSound v dir
  find : inodeOf v dir (createLeaf path) = some ino
  valid : ValidIno ino
  notDir : inodeIsDir (table v ino) = false
  special : inodeIsSpecial (table v ino) = true →
    (table v ino).block 12 = 0 ∧ (table v ino).block 13 = 0

/-- The last component is a symbolic link, and following it ends at a directory. -/
def LinkToDir (v : Vol) (path : Path) (ino : Nat) : Prop :=
  inodeIsSymlink (table v ino) = true ∧
    ∃ r, resolvePath v path = some r ∧ inodeIsDir r.inode = true

section

variable {S : System} {c : Cred} {v : Vol} {dir ino : Nat} {init : List Name} {leaf : Name}

theorem resolvePath_slash (v : Vol) : resolvePath v [47] = resolvePath v [] := rfl

theorem exists_leaf {cwd raw : Path} (hpath : copyUserPathResolved cwd raw = .ok path)
    (htarget : pathIsMountTarget S.mounts path = false) :
    ∃ init leaf, path = trailText (init ++ [leaf]) ∧ path.length ≤ 127 ∧
      (∀ n ∈ init, Kept n) ∧ Kept leaf := by
  obtain ⟨comps, rfl, hlen, hkept⟩ := copyUserPathResolved_ok hpath
  cases comps using List.reverseRecOn with
  | nil => cases htarget
  | append_singleton init leaf =>
    exact ⟨init, leaf, rfl, hlen, fun n hn => hkept n (mem_append_left _ hn),
      hkept leaf (mem_append_right _ (mem_singleton_self _))⟩

theorem checkParentPermission_root (hroot : c.isRoot = true) (hinit : v.initialised = true)
    (hkept : ∀ n ∈ init, Kept n) (hleaf : Kept leaf) (hlen : (trailText init).length ≤ 127)
    (hpseudo : pathOnPseudoMount S.mounts (trailText (init ++ [leaf])) = false) {r : Resolved}
    (hr : resolvePath v (trailText init) = some r) (hdir : inodeIsDir r.inode = true) (need : Nat) :
    checkParentPermission S c v (trailText (init ++ [leaf])) need = none := by
  have hvirtual := virtualStatInfo_parent hkept hleaf.plain hpseudo
  obtain ⟨info, hstat, hmode⟩ : ∃ info, ext2StatInfo v (trailText init) = some info ∧
      info.mode = r.inode.mode := by
    have hroot : resolvePath v (if (trailText init).isEmpty then [47] else trailText init) =
        some r := by
      split_ifs with hnil
      · rw [resolvePath_slash, ← hr, isEmpty_iff.mp hnil]
      · exact hr
    simp only [ext2StatInfo, hinit, hroot, Bool.not_true, Bool.false_eq_true, if_false,
      Option.bind_some, statInfoFromResolved, hdir, Bool.and_false, Bool.false_and]
    exact ⟨_, rfl, rfl⟩
  have htype : fileType info.mode = 0x4000 := by
    rw [hmode]
    exact beq_iff_eq.mp hdir
  unfold checkParentPermission checkPathPrefixExecute
  rw [pathParent_trail hkept hleaf.plain, if_neg (by omega), hroot, if_pos rfl]
  simp only [statInfoAny, hvirtual, hstat, Option.none_or, htype, permissionAllows, hroot, ne_eq,
    not_true_eq_false, Bool.or_true, Bool.true_or, Bool.not_true, Bool.false_eq_true, if_false]

theorem NamesFile.create (h : NamesFile v path dir ino) (heq : path = trailText (init ++ [leaf]))
    (hlen : path.length ≤ 127) (hkept : ∀ n ∈ init, Kept n) (hleaf : Kept leaf) :
    resolveCreatePath v path = some ⟨dir, table v dir, leaf⟩ := by
  subst heq
  obtain ⟨r, hr, rfl⟩ := h.parent
  obtain ⟨_, hrecord, _⟩ := resolvePath_eq_some h.sound.ready hr
  rw [pathParent_trail hkept hleaf.plain] at hr
  have hparent : (trailText init).length ≤ 127 := by
    have := length_le_joinText (trailText init) leaf
    rw [trailText_concat] at hlen
    omega
  have hshort := hleaf.short
  have hproper : ¬(leaf = [] ∨ 256 ≤ leaf.length ∨ leaf = dotName ∨ leaf = dotDotName) := by
    rintro (hnil | hlong | hdot | hdotdot)
    · exact hleaf.plain.1 hnil
    · omega
    · exact hleaf.notDot hdot
    · exact hleaf.notDotDot hdotdot
  unfold resolveCreatePath
  simp only [createLeaf_trail hkept hleaf.plain, createParent_trail hkept hleaf.plain, hproper,
    if_false, hr, show ¬256 ≤ (trailText init).length from by omega, hrecord, h.sound.dir, if_true]

theorem NamesFile.isDir_iff (h : NamesFile v path dir ino) (hinit : v.initialised = true)
    (heq : path = trailText (init ++ [leaf])) (hkept : ∀ n ∈ init, Kept n) (hleaf : Kept leaf) :
    ext2IsDir v path = true ↔ LinkToDir v path ino := by
  have hne : path.isEmpty = false := by
    rw [heq, trailText_leaf hkept hleaf.plain]
    split_ifs
    · exact isEmpty_eq_false_iff.mpr hleaf.plain.1
    · exact isEmpty_eq_false_iff.mpr (append_ne_nil_of_right_ne_nil _ (cons_ne_nil _ _))
  rw [ext2IsDir, hinit, hne, Bool.true_and, Bool.false_or]
  constructor
  · intro hdir
    cases hr : resolvePath v path with
    | none =>
      rw [hr] at hdir
      cases hdir
    | some r =>
      rw [hr] at hdir
      have hdir : inodeIsDir r.inode = true := hdir
      refine ⟨?_, r, hr, hdir⟩
      by_contra hlink
      rw [Bool.not_eq_true] at hlink
      -- without a link both lookups end at the inode of the entry
      obtain ⟨q, hq, rfl⟩ := h.parent
      obtain ⟨⟨ino', type⟩, hfind, rfl⟩ := Option.map_eq_some_iff.mp h.find
      obtain ⟨_, hrecord, hr'⟩ := resolvePath_eq_some h.sound.ready hr
      obtain ⟨_, _, hq'⟩ := resolvePath_eq_some h.sound.ready hq
      rw [heq] at hfind hq' hr'
      rw [createLeaf_trail hkept hleaf.plain] at hfind
      rw [pathParent_trail hkept hleaf.plain] at hq'
      rw [trailText_concat] at hr'
      have hino : r.ino = ino' :=
        Names.resolve_child (N := names v) hleaf.plain hleaf.notDot hfind hlink h.sound.dir hq' rfl
          hr'
      rw [hrecord, hino, h.notDir] at hdir
      cases hdir
  · rintro ⟨_, r, hr, hdir⟩
    rw [hr]
    exact hdir

theorem not_nameRemoved_self {dir ino : Nat} : ¬NameRemoved v v dir leaf ino := by
  rintro ⟨⟨front, e, back, hes, _, hes'⟩, _, _⟩
  have hlen := congrArg List.length (Option.some.inj (hes.symm.trans hes'))
  simp only [length_append, length_cons] at hlen
  omega

theorem ext2Rm_readOnly (h : v.readOnly = true) : ext2Rm path v = .error .refused v := by
  have hrefused : requireWritable v = .error .refused v := by
    show (if (!v.initialised) = true ∨ v.readOnly = true then throw .refused
      else pure () : M Unit) v = _
    rw [if_pos (.inr h)]
    rfl
  unfold ext2Rm
  simp only [run_bind, hrefused]

end

/-- For the superuser, `unlink` removes the name it is given, and only that, exactly when the
volume can be written and the name is not a symbolic link that leads to a directory. -/
theorem unlink_removes_name {S : System} {c : Cred} {cwd raw path : Path} {v : Vol} {dir ino : Nat}
    (hroot : c.isRoot = true) (hpath : copyUserPathResolved cwd raw = .ok path)
    (htarget : pathIsMountTarget S.mounts path = false)
    (hpseudo : pathOnPseudoMount S.mounts path = false) (hinit : v.initialised = true)
    (h : NamesFile v path dir ino) : (∃ v', sysUnlink S c cwd raw v = (.ok (), v') ∧
        NameRemoved v v' dir (createLeaf path) ino ∧
        (inodeIsSymlink (table v ino) = true → ∀ r, resolvePath v path = some r →
          SameFile v v' r.ino)) ↔ v.readOnly = false ∧ ¬LinkToDir v path ino := by
  obtain ⟨init, leaf, heq, hlen, hkept, hleaf⟩ := exists_leaf hpath htarget
  have hcreate := h.create heq hlen hkept hleaf
  have hisDir := h.isDir_iff hinit heq hkept hleaf
  have hcreateLeaf : createLeaf path = leaf := by rw [heq, createLeaf_trail hkept hleaf.plain]
  have hcheck : checkParentPermission S c v path (permW ||| permX) = none := by
    obtain ⟨r, hr, hino⟩ := h.parent
    obtain ⟨_, hrecord, _⟩ := resolvePath_eq_some h.sound.ready hr
    have hparent := length_le_joinText (trailText init) leaf
    rw [← trailText_concat, ← heq] at hparent
    rw [heq] at hpseudo hr ⊢
    rw [pathParent_trail hkept hleaf.plain] at hr
    refine checkParentPermission_root hroot hinit hkept hleaf (by omega) hpseudo hr ?_ _
    rw [hrecord, hino, h.sound.dir]
  have hrun : sysUnlink S c cwd raw v =
      if ext2IsDir v path then (.error .eisdir, v)
      else match vfsUnlink path v with
        | (true, v') => (.ok (), v')
        | (false, v') => (codeOf (pathLookupErrno v' path), v') := by
    rw [sysUnlink, hpath]
    simp only [htarget, hpseudo, hcheck, Bool.false_eq_true, if_false]
  rw [hrun]
  constructor
  · rintro ⟨v', hok, hremoved, _⟩
    have hnotDir : ¬ext2IsDir v path = true := by
      intro hdir
      rw [if_pos hdir] at hok
      cases hok
    refine ⟨?_, fun hlink => hnotDir (hisDir.mpr hlink)⟩
    by_contra hro
    rw [Bool.not_eq_false] at hro
    rw [if_neg hnotDir, vfsUnlink, ext2Rm_readOnly hro] at hok
    obtain rfl : v = v' := congrArg Prod.snd hok
    exact not_nameRemoved_self hremoved
  · rintro ⟨hro, hlink⟩
    obtain ⟨⟨ino', type⟩, hfind, rfl⟩ := Option.map_eq_some_iff.mp h.find
    rw [hcreateLeaf] at hfind
    have hpost := ext2Rm_removes hinit hro hcreate h.sound hfind h.valid h.notDir h.special
    rw [if_neg fun hdir => hlink (hisDir.mp hdir), vfsUnlink]
    cases hrm : ext2Rm path v with
    | error e w => exact (hpost.of_error hrm).elim
    | ok _ v' =>
      have hremoved := hpost.of_ok hrm
      refine ⟨v', rfl, hcreateLeaf ▸ hremoved, fun hsym r hr => ?_⟩
      obtain ⟨_, hrecord, hres⟩ := resolvePath_eq_some h.sound.ready hr
      have hnotLink : inodeIsSymlink (table v r.ino) = false :=
        Names.resolve_not_link (N := names v) (not_isSymlink_of_isDir h.root) hres
      refine hremoved.others _ ?_ ?_
      · rintro rfl
        exact hlink ⟨hsym, r, hr, by rw [hrecord]; exact h.sound.dir⟩
      · rintro rfl
        cases hsym.symm.trans hnotLink

def bareSystem : System := ⟨⟨[], by simp, by simp⟩, ⟨fun _ => none, by simp⟩⟩

theorem copyUserPathResolved_one {c : UInt8} (hsep : isSep c = false) (hdot : c ≠ 46) :
    copyUserPathResolved [] [47, c] = .ok [c] := by
  have hplain : Plain [c] := ⟨cons_ne_nil _ _, by simpa using hsep⟩
  have hone : components [47, c] = [⟨[c], []⟩] := by
    have := hplain.components_append [] (by simp)
    rw [components_sep rfl, ← append_nil [c], this, components_of_nil rfl]
    rfl
  have hadd : addComponents [⟨[c], []⟩] [] = some [[c]] := by
    simp [addComponents, dotName, dotDotName, hdot]
  have hbuild : pathBuildFrom [] [47, c] 128 = some [c] := by
    simp [pathBuildFrom, baseComponents, hone, hadd, trailText]
  simp only [copyUserPathResolved, hbuild]
  rfl

theorem namesFile_of_root {v : Vol} (hs : DirSound v 2) {c : UInt8} {ino : Nat}
    (hsep : isSep c = false) (hfind : inodeOf v 2 [c] = some ino) (hi : ValidIno ino)
    (hdir : inodeIsDir (table v ino) = false) (hspecial : inodeIsSpecial (table v ino) = false) :
    NamesFile v [c] 2 ino := by
  have hplain : Plain [c] := ⟨cons_ne_nil _ _, by simpa using hsep⟩
  have htext : trailText ([] ++ [[c]]) = [c] := by simp [trailText]
  have hleaf : createLeaf [c] = [c] := by
    rw [← htext, createLeaf_trail (by simp) hplain, htext]
  have hparent : pathParent [c] = [] := by
    rw [← htext, pathParent_trail (by simp) hplain]
    rfl
  have hroot : resolvePath v [] = some ⟨0, 2, table v 2⟩ := by
    unfold resolvePath resolvePathEx
    rw [readInode_of_ready hs.ready hs.valid]
    rfl
  refine ⟨hs.dir, ⟨_, by rw [hparent, hroot], rfl⟩, hs, by rw [hleaf, hfind], hi, hdir, ?_⟩
  rw [hspecial]
  exact fun h => absurd h Bool.false_ne_true

theorem linkedDir_root_sound : DirSound linkedDir.volume 2 :=
  linkedDir_sound.dirSound ⟨by decide, by decide⟩ rfl (by decide) (by decide)
    (show _ = some (linkedDirEntries 2) by decide) (by decide)

/-- A link to a directory: the name is there, and the call refuses to remove it. -/
theorem unlink_refuses_link : NamesFile linkedDir.volume [108] 2 12 ∧
    pathIsMountTarget bareSystem.mounts [108] = false ∧
    pathOnPseudoMount bareSystem.mounts [108] = false ∧
    copyUserPathResolved [] [47, 108] = .ok [108] ∧
    (sysUnlink bareSystem ⟨0, 0, none⟩ [] [47, 108] linkedDir.volume).1 = .error .eisdir := by
  have hpath := copyUserPathResolved_one (c := 108) (by decide) (by decide)
  have htarget : pathIsMountTarget bareSystem.mounts [108] = false := by decide
  have hpseudo : pathOnPseudoMount bareSystem.mounts [108] = false := by decide
  have hdir : ext2IsDir linkedDir.volume [108] = true := by decide
  refine ⟨namesFile_of_root linkedDir_root_sound (by decide) ?_ ⟨by decide, by decide⟩ ?_ ?_,
    htarget, hpseudo, hpath, ?_⟩
  · rw [inodeOf, linkedDir_find (.inl rfl) (by decide)]
    decide
  · rw [linkedDir_sound.table]
    decide
  · rw [linkedDir_sound.table]
    decide
  · rw [sysUnlink, hpath]
    simp only [htarget, hpseudo, hdir, Bool.false_eq_true, if_false, if_true]

theorem unlink_removes_name_one_file : ∃ v',
    sysUnlink bareSystem ⟨0, 0, none⟩ [] [47, 102] oneFile.volume = (.ok (), v') ∧
      NameRemoved oneFile.volume v' 2 (createLeaf [102]) 11 := by
  have hfile : NamesFile oneFile.volume [102] 2 11 := by
    refine namesFile_of_root oneFile_root_sound (by decide) (by decide) ⟨by decide, by decide⟩ ?_ ?_
    · rw [oneFile_sound.table]
      decide
    · rw [oneFile_sound.table]
      decide
  have hplain : ¬LinkToDir oneFile.volume [102] 11 := by
    rintro ⟨hlink, _⟩
    rw [oneFile_sound.table] at hlink
    exact absurd hlink (by decide)
  obtain ⟨v', hrun, hremoved, _⟩ := (unlink_removes_name (c := ⟨0, 0, none⟩) (S := bareSystem) rfl
    (copyUserPathResolved_one (c := 102) (by decide) (by decide)) (by decide) (by decide)
    (by decide) hfile).mpr ⟨by decide, hplain⟩
  exact ⟨v', hrun, hremoved⟩

end SmallOS.Kernel
