import SmallOS.Ext2.BlockOwnership
import SmallOS.Lib.Splice

/-! File contents refine byte arrays: over any run of file writes and resizes, what a
read returns is what the same operations on plain arrays give. -/

namespace SmallOS.Ext2
open Bytes Prog Ownership Splice Function List

variable {nd' : Inode} {data : List UInt8} {ino j : Nat} {path : Path}

def contents (v : Vol) (ino : Nat) : List UInt8 :=
  tabulate (table v ino).size (fileByte v.disk (table v ino))

inductive FileCall
  | writeAt (path : Path) (offset : Nat) (data : List UInt8) (inoutSize : Nat) (create : Bool)
  | resize (path : Path) (size : Nat)
  | write (path : Path) (data : List UInt8)

def FileCall.run : FileCall → M Unit
  | .writeAt path offset data inoutSize create => do
    let _ ← ext2WriteAtPath path offset data inoutSize create
  | .resize path size => ext2ResizePath path size
  | .write path data => ext2WritePath path data

def regularFile (v : Vol) (path : Path) : Option Nat :=
  match resolvePath v path with
  | none => none
  | some r => if inodeIsFile r.inode then some r.ino else none

def namedFile (v : Vol) (path : Path) : Option Nat :=
  match resolveCreatePath v path with
  | none => none
  | some c =>
    match dirFindEntry v c.parent c.leaf with
    | none => none
    | some (ino, _) =>
      match readInode v ino with
      | none => none
      | some nd => if inodeIsFile nd then some ino else none

def FileCall.target (v : Vol) : FileCall → Option Nat
  | .writeAt path .. => regularFile v path
  | .resize path _ => regularFile v path
  | .write path _ => namedFile v path

def FileCall.Within : FileCall → Prop
  | .writeAt _ offset data inoutSize _ =>
    offset + data.length ≤ maxWriteFileBytes ∧ inoutSize ≤ maxWriteFileBytes
  | .resize _ size => size ≤ maxWriteFileBytes
  | .write _ data => data.length ≤ maxWriteFileBytes

abbrev Files := Nat → List UInt8

def FileCall.apply : FileCall → List UInt8 → List UInt8
  | .writeAt _ offset data .., bytes => if data = [] then bytes else overwrite 0 bytes offset data
  | .resize _ size, bytes => Splice.resize 0 bytes size
  | .write _ data, _ => data

def FileCall.onFiles (v : Vol) (files : Files) (c : FileCall) : Files :=
  match c.target v with
  | none => files
  | some ino => update files ino (c.apply (files ino))

def readFiles (v : Vol) (files : Files) (path : Path) (offset len : Nat) : Option (List UInt8) :=
  (regularFile v path).map fun ino => ((files ino).drop offset).take len

/-- Whatever is mapped past the end of a regular file is zero. -/
def CleanFiles (v : Vol) : Prop :=
  ∀ ino, inodeIsFile (table v ino) = true →
    ZeroTail v.disk (table v ino) ∧ (table v ino).size ≤ 4294963200

/-- A run of successful calls at any times, each about a file that exists. -/
inductive FileRun : Vol → List FileCall → Vol → Prop
  | done (v : Vol) : FileRun v [] v
  | call {v v₁ v₂ : Vol} {c : FileCall} {cs : List FileCall} (t : UInt32)
      (htarget : (c.target v).isSome) (hwithin : c.Within) (hrun : c.run (v.at t) = .ok () v₁)
      (rest : FileRun v₁ cs v₂) : FileRun v (c :: cs) v₂

section

variable {v w w' : Vol}

theorem regularFile_eq (hv : Ready v) (path : Path) :
    regularFile v path = match (names v).resolve true 9 path with
      | none => none
      | some r => if (names v).isFile r.2 then some r.2 else none := by
  unfold regularFile resolvePath
  rw [resolvePathEx_eq hv]
  cases (names v).resolve true 9 path with
  | none => rfl
  | some r => rfl

theorem namedFile_eq (hv : Ready v) (path : Path) : namedFile v path =
      if createLeaf path = [] ∨ 256 ≤ (createLeaf path).length ∨ createLeaf path = dotName ∨
          createLeaf path = dotDotName then none
      else if 256 ≤ (createParent path).length then none
      else match (names v).resolve true 9 (createParent path) with
        | none => none
        | some r =>
          if (names v).isDir r.2 then
            match (names v).find r.2 (createLeaf path) with
            | none => none
            | some (ino, _) => if ino = 0 ∨ 1024 < ino then none
              else if (names v).isFile ino then some ino else none
          else none := by
  unfold namedFile resolveCreatePath resolvePath
  rw [resolvePathEx_eq hv]
  simp only
  split_ifs with h1 h2
  · rfl
  · rfl
  · cases (names v).resolve true 9 (createParent path) with
    | none => rfl
    | some r =>
      simp only [Option.map_some, withRecord, names, Names.isDir, inodeIsDir]
      by_cases hdir : (fileType (table v r.2).mode == 16384) = true
      · simp only [hdir, if_true]
        cases dirFindEntry v (table v r.2) (createLeaf path) with
        | none => rfl
        | some e =>
          obtain ⟨ino, type⟩ := e
          simp only
          by_cases hi : ino = 0 ∨ 1024 < ino
          · simp only [readInode, hi, if_true]
          · have hino : ValidIno ino := by unfold ValidIno; omega
            simp only [readInode_of_ready hv hino, hi, if_false]
            rfl
      · simp only [hdir, if_false, Bool.false_eq_true]

theorem FileCall.target_congr (hv : Ready v) (hw : Ready w) (h : names w = names v) (c : FileCall) :
    c.target w = c.target v := by
  cases c with
  | writeAt path =>
    simp only [FileCall.target, regularFile_eq hv, regularFile_eq hw, h]
  | resize path =>
    simp only [FileCall.target, regularFile_eq hv, regularFile_eq hw, h]
  | write path =>
    simp only [FileCall.target, namedFile_eq hv, namedFile_eq hw, h]

theorem Saved.names (h : Saved ino w (table w ino) w' nd') (hw : Ready w)
    (hc : Consistent w) (hfile : inodeIsFile (table w ino) = true)
    (hkind : SameKind (table w ino) nd') : Ext2.names w' = Ext2.names w := by
  have hheld := hc.held (inodeIsSpecial_of_isFile hfile)
  have hmode : ∀ j, (table w' j).mode = (table w j).mode := by
    intro j
    by_cases hj : j = ino
    · subst hj
      rw [h.table_self, hkind.mode]
    · rw [(h.sameFile hheld hj).record]
  have hplain : inodeIsDir (table w ino) = false ∧ inodeIsSymlink (table w ino) = false := by
    simp only [inodeIsFile, beq_iff_eq] at hfile
    simp only [inodeIsDir, inodeIsSymlink, hfile]
    decide
  unfold Ext2.names
  congr 1
  · exact funext hmode
  · funext j name
    by_cases hj : j = ino
    · subst hj
      have hdir : inodeIsDir (table w' j) = false := by
        rw [← hplain.1]
        simp only [inodeIsDir, hmode]
      simp only [dirFindEntry, hdir, hplain.1, Bool.false_eq_true, if_false]
    · exact (h.sameFile hheld hj).dirFindEntry hw h.ready hc h.consistent name
  · funext j
    by_cases hj : j = ino
    · subst hj
      have hlink : inodeIsSymlink (table w' j) = false := by
        rw [← hplain.2]
        simp only [inodeIsSymlink, hmode]
      simp only [readSymlinkInode, hlink, hplain.2, Bool.not_false, true_or, if_true]
    · rw [(h.sameFile hheld hj).readSymlinkInode hw h.ready hc h.consistent]

structure Refines (v : Vol) (files : Files) (w : Vol) : Prop where
  ready : Ready w
  consistent : Consistent w
  initialised : w.initialised = true
  writable : w.readOnly = false
  names : names w = names v
  clean : CleanFiles w
  arrays : ∀ ino, inodeIsFile (table w ino) = true → contents w ino = files ino

variable {files : Files}

theorem Refines.byte (h : Refines v files w) (hfile : inodeIsFile (table w ino) = true) (q : Nat) :
    fileByte w.disk (table w ino) q = (files ino).getD q 0 := by
  rw [← h.arrays ino hfile, contents, getD_tabulate]
  split_ifs with hq
  · rfl
  · exact (h.clean ino hfile).1 q (by omega)

theorem Refines.size (h : Refines v files w)
    (hfile : inodeIsFile (table w ino) = true) : (table w ino).size = (files ino).length := by
  rw [← h.arrays ino hfile, contents, length_tabulate]

theorem SameFile.contents_eq (h : SameFile w w' j)
    (hfile : inodeIsFile (table w j) = true) : Ext2.contents w' j = Ext2.contents w j := by
  rw [Ext2.contents, Ext2.contents, funext (h.fileByte (inodeIsSpecial_of_isFile hfile)), h.record]

theorem SameFile.cleanFile (h : SameFile w w' j) (hclean : CleanFiles w)
    (hfile : inodeIsFile (table w' j) = true) :
    ZeroTail w'.disk (table w' j) ∧ (table w' j).size ≤ 4294963200 := by
  rw [h.record] at hfile
  obtain ⟨hzero, hle⟩ := hclean j hfile
  refine ⟨fun q hq => ?_, by rw [h.record]; exact hle⟩
  rw [h.fileByte (inodeIsSpecial_of_isFile hfile)]
  rw [h.record] at hq
  exact hzero q hq

theorem Refines.saved (h : Refines v files w) {bytes : List UInt8}
    (hfile : inodeIsFile (table w ino) = true) (hs : Saved ino w (table w ino) w' nd')
    (hkind : SameKind (table w ino) nd') (hsize : nd'.size = bytes.length)
    (hmax : nd'.size ≤ 4294963200) (hbytes : ∀ q, fileByte w'.disk nd' q = bytes.getD q 0) :
    Refines v (update files ino bytes) w' := by
  have hheld := h.consistent.held (inodeIsSpecial_of_isFile hfile)
  have hself := hs.table_self
  have hother : ∀ j, j ≠ ino → SameFile w w' j := fun j hj => hs.sameFile hheld hj
  refine ⟨hs.ready, hs.consistent, hs.env.initialised.trans h.initialised,
    hs.env.readOnly.trans h.writable, (hs.names h.ready h.consistent hfile hkind).trans h.names,
    fun j hj => ?_, fun j hj => ?_⟩
  · by_cases hi : j = ino
    · subst hi
      rw [hself]
      refine ⟨fun q hq => ?_, hmax⟩
      rw [hbytes, getD_eq_default _ _ (by omega)]
    · exact (hother j hi).cleanFile h.clean hj
  · by_cases hi : j = ino
    · subst hi
      rw [update_self, contents, hself]
      refine eq_of_getD 0 (by rw [length_tabulate, hsize]) fun q => ?_
      rw [getD_tabulate, hbytes]
      split_ifs with hq
      · rfl
      · rw [getD_eq_default _ _ (by omega)]
    · have hsame := hother j hi
      rw [hsame.record] at hj
      rw [update_of_ne hi, ← h.arrays j hj, hsame.contents_eq hj]

theorem Refines.overwritten (h : Refines v files w) {offset : Nat}
    (hfile : inodeIsFile (table w ino) = true) (hs : Saved ino w (table w ino) w' nd')
    (hkind : SameKind (table w ino) nd')
    (hnd : nd'.size = max (table w ino).size (offset + data.length))
    (hend : offset + data.length ≤ 4294963200) (hbytes : ∀ q, fileByte w'.disk nd' q =
      if offset ≤ q ∧ q < offset + data.length then data.getD (q - offset) 0
      else fileByte w.disk (table w ino) q) :
    nd'.size = (overwrite 0 (files ino) offset data).length ∧
      Refines v (update files ino (overwrite 0 (files ino) offset data)) w' := by
  have hle := (h.clean ino hfile).2
  have hlength : nd'.size = (overwrite 0 (files ino) offset data).length := by
    rw [hnd, h.size hfile, length_overwrite]
  refine ⟨hlength, h.saved hfile hs hkind hlength (by omega) fun q => ?_⟩
  rw [hbytes, getD_overwrite, h.byte hfile]

theorem regularFile_eq_some (hw : Ready w) (h : regularFile w path = some ino) :
    (∃ p, resolvePath w path = some ⟨p, ino, table w ino⟩) ∧ ValidIno ino ∧
      inodeIsFile (table w ino) = true := by
  unfold regularFile at h
  split at h
  · cases h
  rename_i r hres
  obtain ⟨hi, hrec, _⟩ := resolvePath_eq_some hw hres
  split_ifs at h with hfile
  obtain rfl := Option.some.inj h
  rw [hrec] at hfile
  exact ⟨⟨r.parentIno, by rw [hres, ← hrec]⟩, hi, hfile⟩

theorem namedFile_eq_some (hw : Ready w) (h : namedFile w path = some ino) :
    ∃ c type, resolveCreatePath w path = some c ∧
      dirFindEntry w c.parent c.leaf = some (ino, type) ∧ ValidIno ino ∧
      inodeIsFile (table w ino) = true := by
  unfold namedFile at h
  split at h
  · cases h
  rename_i c hres
  split at h
  · cases h
  rename_i i type hfind
  split at h
  · cases h
  rename_i nd hread
  obtain ⟨hi, rfl⟩ := readInode_eq_some hw hread
  split_ifs at h with hfile
  obtain rfl := Option.some.inj h
  exact ⟨c, type, hres, hfind, hi, hfile⟩

theorem requireWritable_run (hinit : w.initialised = true) (hwr : w.readOnly = false) :
    requireWritable w = .ok () w := by
  simp only [requireWritable, run_bind, run_get, hinit, hwr, Bool.not_true, Bool.false_eq_true,
    or_self, if_false]
  rfl

theorem maxWriteFileBytes_le : maxWriteFileBytes ≤ 4294963200 := by decide

theorem ext2WriteAtPath_existing {offset inoutSize : Nat} {create : Bool} {Q : Nat → Vol → Prop}
    {E : Fail → Vol → Prop} (hv : Ready v) (hinit : v.initialised = true)
    (hwr : v.readOnly = false) (hfile : regularFile v path = some ino)
    (hend : offset + data.length ≤ maxWriteFileBytes) (hsize : inoutSize ≤ maxWriteFileBytes)
    (hempty : data.length = 0 → Q (table v ino).size v) (hrange : data.length ≠ 0 →
      Post (writeFileRange ino (table v ino) offset data) v (fun nd v' => Q nd.size v') E) :
    Post (ext2WriteAtPath path offset data inoutSize create) v Q E := by
  obtain ⟨⟨p, hres⟩, _, hreg⟩ := regularFile_eq_some hv hfile
  have hmax := maxWriteFileBytes_le
  have hopen : openForWrite path create v = .ok (ino, table v ino) v := by
    simp only [openForWrite, run_bind, run_get, hres]
    rfl
  refine .bind_run (requireWritable_run hinit hwr) (.branch (fun _ => by omega) fun _ =>
    .branch (fun _ => by omega) fun _ => ?_)
  refine Post.bind_run hopen (Post.branch (fun hno => by simp [hreg] at hno) fun _ =>
    .branch (fun h0 => .ret (hempty h0)) fun h0 => ?_)
  exact .seq (hrange h0) fun _ _ hQ => .ret hQ

theorem writeAt_refines (h : Refines v files w) (htarget : regularFile w path = some ino)
    {offset inoutSize : Nat} {create : Bool} (hend : offset + data.length ≤ maxWriteFileBytes)
    (hsize : inoutSize ≤ maxWriteFileBytes) :
    Post (ext2WriteAtPath path offset data inoutSize create) w
      (fun n w' => n = (FileCall.apply (.writeAt path offset data inoutSize create)
          (files ino)).length ∧ Refines v (update files ino
          (FileCall.apply (.writeAt path offset data inoutSize create) (files ino))) w')
      (fun e _ => e = .noBlock) := by
  obtain ⟨_, hi, hfile⟩ := regularFile_eq_some h.ready htarget
  have hmax := maxWriteFileBytes_le
  refine ext2WriteAtPath_existing h.ready h.initialised h.writable htarget hend hsize
    (fun hempty => ?_) fun hdata => ?_
  · have hnil : data = [] := length_eq_zero_iff.mp hempty
    simp only [FileCall.apply, hnil, if_true, update_eq_self]
    exact ⟨h.size hfile, h⟩
  · have hne : data ≠ [] := fun hnil => hdata (by rw [hnil]; rfl)
    refine (writeFileRange_post h.ready
      (h.consistent.held (inodeIsSpecial_of_isFile hfile)) hi (by omega)).mono ?_ fun e _ he => he.1
    rintro nd' w' ⟨hs, hkind, hnd, hbytes, _⟩
    simp only [FileCall.apply, hne, if_false]
    exact h.overwritten hfile hs hkind hnd (by omega) hbytes

theorem ext2ResizePath_saved (hw : Ready w) (hc : Consistent w) (hinit : w.initialised = true)
    (hwr : w.readOnly = false) (htarget : regularFile w path = some ino) {size : Nat}
    (hsize : size ≤ maxWriteFileBytes) : Post (ext2ResizePath path size) w
      (fun _ w' => ∃ nd', Saved ino w (table w ino) w' nd' ∧ SameKind (table w ino) nd' ∧
        nd'.size = size ∧ Resized w (table w ino) size w' nd') (fun e _ => e = .noBlock) := by
  obtain ⟨⟨p, hres⟩, hi, hfile⟩ := regularFile_eq_some hw htarget
  refine .bind_run (requireWritable_run hinit hwr)
    (Post.bind_run (query_run hres) (Post.branch (fun hno => by simp [hfile] at hno) fun _ => ?_))
  exact .bind (resizeFile_post hw (hc.held (inodeIsSpecial_of_isFile hfile)) hi hfile hsize)
    (fun e _ he => he.1) fun nd' w' hsaved => .ret ⟨nd', hsaved⟩

theorem resize_refines (h : Refines v files w)
    (htarget : regularFile w path = some ino) {size : Nat} (hsize : size ≤ maxWriteFileBytes) :
    Post (ext2ResizePath path size) w (fun _ w' => Refines v (update files ino
        (FileCall.apply (.resize path size) (files ino))) w') (fun e _ => e = .noBlock) := by
  have hfile := (regularFile_eq_some h.ready htarget).2.2
  have hmax := maxWriteFileBytes_le
  obtain ⟨hzero, hle⟩ := h.clean ino hfile
  refine (ext2ResizePath_saved h.ready h.consistent h.initialised h.writable htarget hsize).mono ?_
    fun _ _ he => he
  rintro _ w' ⟨nd', hs, hkind, hnd, hbytes⟩
  refine h.saved hfile hs hkind ?_ (by omega) fun q => ?_
  · rw [hnd, FileCall.apply, length_resize]
  · rw [hbytes hzero hle, FileCall.apply, getD_resize, h.byte hfile]

theorem write_refines (h : Refines v files w) (htarget : namedFile w path = some ino)
    (hdata : data.length ≤ maxWriteFileBytes) : Post (ext2WritePath path data) w
      (fun _ w' => Refines v (update files ino data) w') (fun e _ => e = .noBlock) := by
  obtain ⟨c, type, hres, hfind, hi, hfile⟩ := namedFile_eq_some h.ready htarget
  have hmax := maxWriteFileBytes_le
  have hopen : createFileInParent c w = .ok (ino, table w ino) w := by
    simp only [createFileInParent, run_bind, run_get, hfind, query, readInode_of_ready h.ready hi,
      hfile, if_true]
    rfl
  refine .bind_run (requireWritable_run h.initialised h.writable) (.branch
    (fun hbig => by omega) fun _ => .bind_run (query_run hres) (.bind_run hopen ?_))
  refine .bind (writeFileFromSource_post h.ready
    (h.consistent.held (inodeIsSpecial_of_isFile hfile)) hi hdata) ?_ ?_
  · rintro e w' ⟨_, _, _, he, _⟩
    exact he.1
  · rintro nd' w' ⟨hs, hkind, hnd, hbytes⟩
    exact .ret (h.saved hfile hs hkind hnd (by omega) hbytes)

theorem FileCall.run_refines (hv : Ready v) (h : Refines v files w) {c : FileCall}
    (htarget : c.target v = some ino) (hwithin : c.Within) :
    Post c.run w (fun _ w' => Refines v (update files ino (c.apply (files ino))) w')
      (fun e _ => e = .noBlock) := by
  have htarget : c.target w = some ino := (c.target_congr hv h.ready h.names).trans htarget
  cases c with
  | writeAt path offset data inoutSize create =>
    exact .seq (writeAt_refines h htarget hwithin.1 hwithin.2)
      fun _ _ hr => .ret hr.2
  | resize path size => exact resize_refines h htarget hwithin
  | write path data => exact write_refines h htarget hwithin

theorem Refines.at (h : Refines v files w) (t : UInt32) : Refines v files (w.at t) :=
  have hnames : Ext2.names (w.at t) = Ext2.names w :=
    names_congr h.ready (h.ready.at t) h.consistent (h.consistent.at t) fun _ =>
      SameFile.of_disk h.consistent rfl fun _ _ => rfl
  ⟨h.ready.at t, h.consistent.at t, h.initialised, h.writable, hnames.trans h.names, h.clean,
    h.arrays⟩

theorem Refines.run (hv : Ready v) (h : Refines v files w) {cs : List FileCall}
    (hrun : FileRun w cs w') : Refines v (cs.foldl (FileCall.onFiles v) files) w' := by
  induction hrun generalizing files with
  | done w => exact h
  | @call w w1 w2 c cs t htarget hwithin hstep _ ih =>
    obtain ⟨ino, hino⟩ := Option.isSome_iff_exists.mp htarget
    rw [c.target_congr hv h.ready h.names] at hino
    have hnext := (FileCall.run_refines hv (h.at t) hino hwithin).of_ok hstep
    have hfiles : FileCall.onFiles v files c = update files ino (c.apply (files ino)) := by
      simp only [FileCall.onFiles, hino]
    exact ih (hfiles ▸ hnext)

theorem ext2ReadAtPath_contents (hw : Ready w) (hc : Consistent w) (hinit : w.initialised = true)
    (path : Path) (offset len : Nat) : ext2ReadAtPath w path offset len =
      (regularFile w path).map fun ino => ((contents w ino).drop offset).take len := by
  unfold ext2ReadAtPath regularFile
  simp only [hinit, Bool.not_true, Bool.false_eq_true, if_false]
  cases hres : resolvePath w path with
  | none => rfl
  | some r =>
    obtain ⟨hi, hrec, _⟩ := resolvePath_eq_some hw hres
    simp only [hrec]
    by_cases hreg : inodeIsFile (table w r.ino) = true
    · have hlen : (contents w r.ino).length = (table w r.ino).size := length_tabulate _ _
      simp only [hreg, Bool.not_true, Bool.false_eq_true, if_false, if_true, Option.map_some]
      split_ifs with hend
      · rw [drop_eq_nil_of_le (by omega), take_nil]
      · rw [fileReadToSink_eq hw (hc.held (inodeIsSpecial_of_isFile hreg)) (by omega)]
        refine congrArg some (ext_getElem ?_ fun i hi1 hi2 => ?_)
        · simp only [fileSlice, length_map, length_range, length_take, length_drop]
          omega
        · simp only [fileSlice, contents, tabulate, getElem_map, getElem_range, getElem_take,
            getElem_drop]
    · simp only [hreg, Bool.not_false, if_true, if_false, Bool.false_eq_true, Option.map_none]

theorem Refines.read (hv : Ready v) (h : Refines v files w) (path : Path)
    (offset len : Nat) : ext2ReadAtPath w path offset len = readFiles v files path offset len := by
  have hfile : regularFile v path = regularFile w path := by
    rw [regularFile_eq hv, regularFile_eq h.ready, h.names]
  rw [ext2ReadAtPath_contents h.ready h.consistent h.initialised, readFiles, hfile]
  refine Option.map_congr fun ino hino => ?_
  rw [h.arrays ino (regularFile_eq_some h.ready hino).2.2]

end

/-- File contents refine byte arrays: after any run of writes and resizes a read returns
what the same operations on the arrays return, and a call fails only for want of a block. -/
theorem file_contents_refine {v v' : Vol} {cs : List FileCall} (hv : Ready v) (hc : Consistent v)
    (hclean : CleanFiles v) (hinit : v.initialised = true) (hwr : v.readOnly = false)
    (hrun : FileRun v cs v') : (∀ path offset len, ext2ReadAtPath v' path offset len =
      readFiles v (cs.foldl (FileCall.onFiles v) (contents v)) path offset len) ∧
    ∀ c : FileCall, (c.target v').isSome → c.Within → ∀ t e w,
      c.run (v'.at t) = .error e w → e = .noBlock := by
  have hstart : Refines v (contents v) v := ⟨hv, hc, hinit, hwr, rfl, hclean, fun _ _ => rfl⟩
  have hend := hstart.run hv hrun
  refine ⟨hend.read hv, fun c htarget hwithin t e w hfail => ?_⟩
  obtain ⟨ino, hino⟩ := Option.isSome_iff_exists.mp htarget
  rw [c.target_congr hv hend.ready hend.names] at hino
  exact (FileCall.run_refines hv (hend.at t) hino hwithin).of_error hfail

def oneFile : Sample where
  records := [(2, record dirMode 4096 2 [36]), (11, record 0o100644 0 1 [])]
  data b :=
    if b = 36 then
      dirRecords 0 [(2, 12, dotName, 2), (2, 12, dotDotName, 2), (11, 4072, [102], 1)]
    else zeros
  blocks := ⟨fun i => if i < 4 then 255 else if i = 4 then 31 else 0⟩
  inodes := ⟨fun i => if i = 0 then 255 else if i = 1 then 7 else 0⟩

theorem oneFile_sound : oneFile.Sound :=
  have ⟨fits, empty⟩ := Sample.direct [(2, dirMode, 4096, 2, [36]), (11, 0o100644, 0, 1, [])] rfl
    (by decide)
  ⟨by decide, fits, by decide, by decide, empty, by decide⟩

theorem zeroTail_of_whole {d : Nat → Buf} {nd : Inode}
    (whole : ∀ k < 14, nd.block k ≠ 0 → k < 12 ∧ 4096 * (k + 1) ≤ nd.size) : ZeroTail d nd := by
  intro q hq
  have none : ∀ k < 14, 12 ≤ k → nd.block k = 0 := by
    intro k hk hge
    by_contra hne
    exact absurd (whole k hk hne).1 (not_lt.mpr hge)
  refine fileByte_of_hole ?_
  unfold dataSlot
  split_ifs with hdirect hsingle
  · simp only [tree, show q / 4096 < 14 by omega, if_true]
    by_contra hne
    have := (whole (q / 4096) (by omega) hne).2
    omega
  · simp only [tree, ptr, none 12 (by decide) (by decide), entryAt_zero]
  · simp only [tree, ptr, none 13 (by decide) (by decide), entryAt_zero]

theorem Sample.Sound.clean {S : Sample} (h : S.Sound)
    (whole : ∀ r ∈ S.records, inodeIsFile r.2 = true → r.2.size ≤ 4294963200 ∧
      ∀ k < 14, r.2.block k ≠ 0 → k < 12 ∧ 4096 * (k + 1) ≤ r.2.size) : CleanFiles S.volume := by
  intro ino hfile
  rw [h.table] at hfile ⊢
  cases hlook : S.records.lookup ino with
  | none =>
    rw [hlook] at hfile
    exact absurd hfile (by decide)
  | some nd =>
    rw [hlook] at hfile
    obtain ⟨l1, l2, hrecords, -⟩ := List.lookup_eq_some_iff.mp hlook
    obtain ⟨hsize, hblocks⟩ := whole (ino, nd) (by rw [hrecords]; simp) hfile
    exact ⟨zeroTail_of_whole hblocks, hsize⟩

theorem oneFile_clean : CleanFiles oneFile.volume := oneFile_sound.clean (by decide)

theorem file_contents_refine_write : ∃ v', FileRun oneFile.volume
    [.writeAt [47, 102] 3 [7, 8] 0 false] v' ∧
      ext2ReadAtPath v' [47, 102] 1 10 = some [0, 0, 7, 8] := by
  have hok : (success (FileCall.run (.writeAt [47, 102] 3 [7, 8] 0 false)
      (oneFile.volume.at 0))).isSome = true := by decide
  have htarget : regularFile oneFile.volume [47, 102] = some 11 := by decide
  cases hrun : FileCall.run (.writeAt [47, 102] 3 [7, 8] 0 false) (oneFile.volume.at 0) with
  | error e w =>
    rw [hrun] at hok
    cases hok
  | ok u v' =>
    have hruns : FileRun oneFile.volume [.writeAt [47, 102] 3 [7, 8] 0 false] v' :=
      .call 0 (by rw [FileCall.target, htarget]; rfl) ⟨by decide, by decide⟩ hrun (.done v')
    refine ⟨v', hruns, ?_⟩
    rw [(file_contents_refine oneFile_sound.ready oneFile_sound.consistent oneFile_clean
      (by decide) (by decide) hruns).1]
    have hempty : contents oneFile.volume 11 = [] := by
      rw [contents, oneFile_sound.table]
      rfl
    simp only [foldl_cons, foldl_nil, FileCall.onFiles, FileCall.target, readFiles, htarget,
      Option.map_some, update_self, hempty]
    rfl

def spareBlock : Sample :=
  { oneFile with
    records := [(2, record dirMode 4096 2 [36]), (11, record 0o100644 1 1 [37, 38])]
    data := fun b => if b = 38 then ⟨fun _ => 7⟩ else oneFile.data b
    blocks := ⟨fun i => if i < 4 then 255 else if i = 4 then 127 else 0⟩ }

theorem spareBlock_sound : spareBlock.Sound :=
  have ⟨fits, empty⟩ := Sample.direct [(2, dirMode, 4096, 2, [36]), (11, 0o100644, 1, 1, [37, 38])]
    rfl (by decide)
  ⟨by decide, fits, by decide, by decide, empty, by decide⟩

theorem spareBlock_file {ino : Nat} (file : inodeIsFile (table spareBlock.volume ino) = true) :
    ino = 11 := by
  by_contra ne
  rw [spareBlock_sound.table] at file
  by_cases two : ino = 2
  · subst two
    exact absurd file (by decide)
  · have look : spareBlock.records.lookup ino = none := by
      simp only [spareBlock, List.lookup_cons, beq_eq_false_iff_ne.mpr ne,
        beq_eq_false_iff_ne.mpr two, List.lookup_nil]
    rw [look] at file
    exact absurd file (by decide)

theorem spareBlock_byte {q : Nat} (low : q / 4096 = 0) :
    fileByte spareBlock.volume.disk (table spareBlock.volume 11) q = 0 := by
  have slot : tree spareBlock.volume.disk (table spareBlock.volume 11) (dataSlot 0) = 37 := by
    rw [spareBlock_sound.table]
    rfl
  rw [fileByte, low, slot, spareBlock_sound.disk (by decide)]
  rfl

/-- Zeros up to the end of the last block are not enough: the file grows into its second block. -/
theorem spare_block_is_read : ¬∀ v cs v', Ready v → Consistent v → v.initialised = true →
    v.readOnly = false → (∀ ino, inodeIsFile (table v ino) = true → (table v ino).size ≤ 4294963200 ∧
      ∀ q, (table v ino).size ≤ q → q / 4096 = ((table v ino).size - 1) / 4096 →
        fileByte v.disk (table v ino) q = 0) → FileRun v cs v' →
    ∀ path offset len, ext2ReadAtPath v' path offset len =
      readFiles v (cs.foldl (FileCall.onFiles v) (contents v)) path offset len := by
  intro all
  have h := spareBlock_sound
  have ok : (success (FileCall.run (.resize [47, 102] 8192) (spareBlock.volume.at 0))).any
      (fun r => fileByte r.2.disk (table r.2 11) 4096 == 7) = true := by decide +kernel
  have target : regularFile spareBlock.volume [47, 102] = some 11 := by decide
  obtain ⟨⟨u, v'⟩, run, byte⟩ := (Option.any_eq_true _ _).mp ok
  replace run := eq_ok_of_success run
  obtain ⟨nd', saved, kind, size, -⟩ := (ext2ResizePath_saved (h.ready.at 0) (h.consistent.at 0) rfl
    rfl target (by decide)).of_ok run
  have entry : table spareBlock.volume 11 = record 0o100644 1 1 [37, 38] := h.table 11
  have target' : regularFile v' [47, 102] = some 11 := by
    rw [regularFile_eq saved.ready, saved.names (h.ready.at 0) (h.consistent.at 0)
      (congrArg inodeIsFile entry) kind, ← regularFile_eq (h.ready.at 0)]
    exact target
  have file : FileRun spareBlock.volume [.resize [47, 102] 8192] v' :=
    .call 0 (by rw [FileCall.target, target]; rfl) (by decide : 8192 ≤ maxWriteFileBytes) run (.done v')
  have content : contents spareBlock.volume 11 = [0] := by
    rw [contents, entry]
    exact congrArg (· :: []) (entry ▸ spareBlock_byte rfl)
  have wrong := all _ _ v' h.ready h.consistent rfl rfl (fun ino file => by
      obtain rfl := spareBlock_file file
      refine ⟨entry ▸ by decide, fun q _ low => spareBlock_byte ?_⟩
      rw [low, entry]
      rfl) file [47, 102] 4096 1
  rw [ext2ReadAtPath_contents saved.ready saved.consistent saved.env.initialised, target'] at wrong
  simp only [foldl_cons, foldl_nil, FileCall.onFiles, FileCall.target, readFiles, target,
    Option.map_some, update_self, content, FileCall.apply] at wrong
  replace wrong := congrArg (·.getD 0 0) (Option.some.inj wrong)
  simp only [getD_take, getD_drop, contents, getD_tabulate, getD_resize, saved.table_self,
    size] at wrong
  rw [saved.table_self] at byte
  exact absurd ((eq_of_beq byte).symm.trans wrong) (by decide)
end SmallOS.Ext2
