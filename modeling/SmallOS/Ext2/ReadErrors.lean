import SmallOS.Ext2.DirMap
import SmallOS.Ext2.PathWalk

/-! Devices with blocks that cannot be read. `ptr_block_entry` answers 0 when its pointer block
cannot be read, so what lies behind such a block looks like a hole. -/

namespace SmallOS.Ext2

open Bytes Prog Ownership Splice List

variable {ff : Bool} {b fuel len start : Nat} {e : Nat × Nat} {path : Path} {r : Resolved} {w : Vol}

def errorFree (v : Vol) : Vol := { v with readFails := fun _ => false }

/-- The number of the block `logical` is behind a pointer block that cannot be read. -/
def behindBadPointer (v : Vol) (nd : Inode) (logical : Nat) : Bool :=
  if logical < 12 then false
  else if logical - 12 < 1024 then nd.block 12 != 0 && v.readFails (nd.block 12)
  else
    let indirect := readU32 (v.disk (nd.block 13)) (4 * ((logical - 12 - 1024) / 1024))
    nd.block 13 != 0 && (v.readFails (nd.block 13) || indirect != 0 && v.readFails indirect)

/-- The block has a number that can be found, and cannot be read. -/
def badBlock (v : Vol) (nd : Inode) (logical : Nat) : Bool :=
  !behindBadPointer v nd logical && tree v.disk nd (dataSlot logical) != 0 &&
    v.readFails (tree v.disk nd (dataSlot logical))

section

variable {v : Vol} {nd : Inode} {ino logical : Nat}

@[simp] theorem errorFree_disk (v : Vol) : (errorFree v).disk = v.disk := rfl

theorem readBlock_errorFree (v : Vol) (b : Nat) : readBlock (errorFree v) b = some (v.disk b) := rfl

theorem readBlock_eq_some {buf : Buf} (h : readBlock v b = some buf) :
    v.readFails b = false ∧ buf = v.disk b := by
  unfold readBlock at h
  split_ifs at h with hf
  exact ⟨by simpa using hf, (Option.some.inj h).symm⟩

theorem ptrBlockEntry_of_fails (h : v.readFails b = true) (i : Nat) : ptrBlockEntry v b i = 0 := by
  unfold ptrBlockEntry readBlock
  rw [if_pos h]
  split_ifs
  · rfl
  · rfl

theorem ptrBlockEntry_of_reads (h : v.readFails b = false) (i : Nat) :
    ptrBlockEntry v b i = ptrBlockEntry (errorFree v) b i := by
  unfold ptrBlockEntry readBlock
  rw [h]
  rfl

theorem inodeFindDataBlock_errors (hv : Ready (errorFree v)) (hlt : ∀ s, tree v.disk nd s < 8192)
    (hl : logical < maxLogical) : inodeFindDataBlock v nd logical =
      some (if behindBadPointer v nd logical then 0 else tree v.disk nd (dataSlot logical)) := by
  have hclean := inodeFindDataBlock_eq hv hlt hl
  unfold inodeFindDataBlock at hclean ⊢
  unfold behindBadPointer
  by_cases h12 : logical < 12
  · simp only [h12, if_true, Bool.false_eq_true, if_false] at hclean ⊢
    exact hclean
  by_cases h1024 : logical - 12 < 1024
  · simp only [h12, h1024, if_true, if_false] at hclean ⊢
    by_cases h0 : nd.block 12 = 0
    · simp only [h0, if_true, bne_self_eq_false, Bool.false_and, Bool.false_eq_true,
        if_false] at hclean ⊢
      exact hclean
    · simp only [h0, if_false] at hclean ⊢
      cases hf : v.readFails (nd.block 12) with
      | true => simp [h0, ptrBlockEntry_of_fails hf]
      | false =>
        rw [ptrBlockEntry_of_reads hf]
        simpa using hclean
  · simp only [h12, h1024, if_false] at hclean ⊢
    have hbig : ¬1024 ≤ (logical - 12 - 1024) / 1024 := by
      unfold maxLogical at hl
      omega
    simp only [hbig, if_false] at hclean ⊢
    by_cases h0 : nd.block 13 = 0
    · simp only [h0, if_true, bne_self_eq_false, Bool.false_and, Bool.false_eq_true,
        if_false] at hclean ⊢
      exact hclean
    · simp only [h0, if_false] at hclean ⊢
      cases hf : v.readFails (nd.block 13) with
      | true => simp [h0, ptrBlockEntry_of_fails hf]
      | false =>
        have hentry : ptrBlockEntry (errorFree v) (nd.block 13) ((logical - 12 - 1024) / 1024) =
            readU32 (v.disk (nd.block 13)) (4 * ((logical - 12 - 1024) / 1024)) := by
          simp only [ptrBlockEntry, readBlock_errorFree, h0, hbig, or_self, if_false]
        rw [hentry] at hclean
        rw [ptrBlockEntry_of_reads hf, hentry]
        generalize readU32 (v.disk (nd.block 13)) (4 * ((logical - 12 - 1024) / 1024)) = b at hclean
        by_cases hb : b = 0
        · simpa [hb] using hclean
        · simp only [hb, if_false] at hclean ⊢
          cases hfb : v.readFails b with
          | true => simp [h0, hb, ptrBlockEntry_of_fails hfb]
          | false =>
            rw [ptrBlockEntry_of_reads hfb]
            simpa [h0, hf] using hclean

def seenByte (v : Vol) (nd : Inode) (pos : Nat) : UInt8 :=
  if behindBadPointer v nd (pos / 4096) then 0 else fileByte v.disk nd pos

def seenSlice (v : Vol) (nd : Inode) (pos len : Nat) : List UInt8 :=
  (List.range len).map fun i => seenByte v nd (pos + i)

/-- No byte of the range is in a block that is found and cannot be read. -/
def RangeReads (v : Vol) (nd : Inode) (pos len : Nat) : Prop :=
  ∀ i, i < len → badBlock v nd ((pos + i) / 4096) = false

theorem shownByte_errors (hv : Ready (errorFree v)) (hlt : ∀ s, tree v.disk nd s < 8192) {pos : Nat}
    (hpos : pos < 4294967296) : shownByte v nd pos =
      if badBlock v nd (pos / 4096) then none else some (seenByte v nd pos) := by
  rw [shownByte, shownAt, inodeFindDataBlock_errors hv hlt (by unfold maxLogical; omega),
    Option.bind_some, badBlock, seenByte, fileByte]
  cases hb : behindBadPointer v nd (pos / 4096) with
  | true => rfl
  | false =>
    by_cases h0 : tree v.disk nd (dataSlot (pos / 4096)) = 0
    · simp [h0, zeros]
    · cases hf : v.readFails (tree v.disk nd (dataSlot (pos / 4096))) <;> simp [h0, readBlock, hf]

theorem fileReadToSink_errors (hv : Ready (errorFree v)) (hlt : ∀ s, tree v.disk nd s < 8192)
    (hsize : nd.size < 4294967296) (hs : start ≤ nd.size) {bytes : List UInt8} :
    fileReadToSink v nd start len = some bytes ↔ RangeReads v nd start (min len (nd.size - start)) ∧
        bytes = seenSlice v nd start (min len (nd.size - start)) := by
  rw [fileReadToSink_bytes hs, mapM_eq_some_iff fun i hi => shownByte_errors hv hlt (by
    have := mem_range.mp hi
    omega)]
  simp only [RangeReads, seenSlice, mem_range]

def SoundDirs (v : Vol) : Prop :=
  ∀ ino, inodeIsDir (table v ino) = true →
    ∃ es, dirEntries v (table v ino) = some es ∧ (es.map Entry.name).Nodup

theorem Consistent.errorFree (hc : Consistent v) : Consistent (errorFree v) :=
  show Holds (Ext2.errorFree v) (books v) from Holds.transfer hc (fun _ _ => rfl) fun _ => rfl

theorem readInode_errors {nd : Inode} (h : readInode v ino = some nd) :
    nd = table v ino ∧ readInode (errorFree v) ino = some nd := by
  unfold readInode at h
  split_ifs at h with hi
  obtain ⟨buf, hread, rfl⟩ := Option.map_eq_some_iff.mp h
  obtain ⟨_, rfl⟩ := readBlock_eq_some hread
  refine ⟨?_, ?_⟩
  · rw [table, if_neg hi]
  · rw [readInode, if_neg hi, readBlock_errorFree]
    rfl

theorem readSymlinkInode_errors (hv : Ready (errorFree v)) (hc : Consistent v) {target : List UInt8}
    (h : readSymlinkInode v (table v ino) 256 = some target) :
    readSymlinkInode (errorFree v) (table v ino) 256 = some target := by
  unfold readSymlinkInode at h ⊢
  split_ifs at h with hno
  rw [if_neg hno]
  simp only [not_or, Bool.not_eq_true', Bool.not_eq_false, not_le] at hno
  have hheld := hc.held (inodeIsSpecial_of_isSymlink hno.1)
  obtain ⟨hreads, rfl⟩ := (fileReadToSink_errors hv hheld.lt (by omega) (Nat.zero_le _)).mp h
  refine (fileReadToSink_errors (v := errorFree v) hv hheld.lt (by omega) (Nat.zero_le _)).mpr
    ⟨fun i hi => ?_, map_congr_left fun i hi => ?_⟩
  · rw [badBlock, show (errorFree v).readFails = fun _ => false from rfl, Bool.and_false]
  · have hi := mem_range.mp hi
    have hdirect : (0 + i) / 4096 < 12 := by omega
    simp only [seenByte, behindBadPointer, hdirect, if_true, Bool.false_eq_true, if_false,
      errorFree_disk]

theorem overBlocks_found (hv : Ready (errorFree v)) (hlt : ∀ s, tree v.disk nd s < 8192)
    {visit : Nat → Buf → Option (Option (Nat × Nat))} {n logical : Nat}
    (hl : logical + n ≤ maxLogical) (h : overBlocks v nd none none visit n logical = some e) :
    ∃ m buf, logical ≤ m ∧ m < logical + n ∧ blockAt v.disk nd m = some buf ∧
      visit (tree v.disk nd (dataSlot m)) buf = some (some e) := by
  induction n generalizing logical with
  | zero => cases h
  | succ n ih =>
    have hrest : overBlocks v nd none none visit n (logical + 1) = some e →
        ∃ m buf, logical ≤ m ∧ m < logical + (n + 1) ∧ blockAt v.disk nd m = some buf ∧
          visit (tree v.disk nd (dataSlot m)) buf = some (some e) := by
      intro h
      obtain ⟨m, buf, hm, hm', hb⟩ := ih (by omega) h
      exact ⟨m, buf, by omega, by omega, hb⟩
    unfold overBlocks at h
    rw [inodeFindDataBlock_errors hv hlt (by omega)] at h
    cases hb : behindBadPointer v nd logical with
    | true =>
      simp only [hb, if_true] at h
      exact hrest h
    | false =>
      simp only [hb, Bool.false_eq_true, if_false] at h
      by_cases h0 : tree v.disk nd (dataSlot logical) = 0
      · rw [if_pos h0] at h
        exact hrest h
      · rw [if_neg h0] at h
        split at h
        · cases h
        rename_i buf hread
        split at h
        · rename_i r hvisit
          obtain ⟨_, rfl⟩ := readBlock_eq_some hread
          exact ⟨logical, _, Nat.le_refl _, by omega, blockAt_of_ne h0, hvisit.trans (congrArg _ h)⟩
        · exact hrest h

theorem findIn_of_mem {es : List Entry} (hnodup : (es.map Entry.name).Nodup) {e : Entry}
    (he : e ∈ es) : findIn es e.name = some e.found := by
  induction es with
  | nil => cases he
  | cons x es ih =>
    rw [map_cons, nodup_cons] at hnodup
    rw [findIn_cons]
    cases mem_cons.mp he with
    | inl he => rw [if_pos (by rw [he]), he]
    | inr he =>
      have hne : x.name ≠ e.name := by
        intro heq
        exact hnodup.1 (heq ▸ mem_map_of_mem he)
      rw [if_neg hne]
      exact ih hnodup.2 he

theorem dirFindEntry_errors (hv : Ready (errorFree v)) (hc : Consistent v) (hs : SoundDirs v)
    {name : Name} (hname : name.length ≤ 255) (h : dirFindEntry v (table v ino) name = some e) :
    dirFindEntry (errorFree v) (table v ino) name = some e := by
  unfold dirFindEntry at h
  split_ifs at h with hdir
  have hheld := hc.held (inodeIsSpecial_of_isDir hdir)
  have hcount := inodeBlockCount_lt (table v ino)
  obtain ⟨m, buf, _, hm, hb, hfound⟩ := overBlocks_found hv hheld.lt (by omega) h
  obtain ⟨es, hes, hnodup⟩ := hs ino hdir
  obtain ⟨pre, mid, post, rfl, _, hmid, _⟩ :=
    entriesOf_split (show m < inodeBlockCount (table v ino) by omega) hes
  obtain ⟨rs, hchain, rfl⟩ := entriesOf_one_some hb hmid
  rw [dirFindInBlock_chain hname hchain] at hfound
  obtain ⟨e', hfind, heq⟩ := Option.map_eq_some_iff.mp hfound
  obtain rfl : e' = e := Option.some.inj heq
  obtain ⟨k, hk, rfl, rfl⟩ := mem_of_findIn hfind
  have hheld' : Held (errorFree v) ino (table v ino) :=
    hc.errorFree.held (inodeIsSpecial_of_isDir hdir)
  rw [dirFindEntry_listed hv hheld' hdir hname hes]
  exact findIn_of_mem hnodup (by simp [hk])

structure Sees (v w : Vol) : Prop where
  inode : ∀ ino nd, readInode v ino = some nd → nd = table v ino ∧ readInode w ino = some nd
  entry : ∀ ino name e, name.length ≤ 255 → dirFindEntry v (table v ino) name = some e →
    dirFindEntry w (table v ino) name = some e
  target : ∀ ino text, readSymlinkInode v (table v ino) 256 = some text →
    readSymlinkInode w (table v ino) 256 = some text

theorem Sees.walk (hs : Sees v w) {redirect redirect' : Path → Option Resolved}
    (hred : ∀ p r, redirect p = some r → redirect' p = some r) {cursor dirPath : Path} {cur : Nat}
    (h : Ext2.walk v ff redirect fuel cursor dirPath cur (table v cur) = some r) :
    Ext2.walk w ff redirect' fuel cursor dirPath cur (table v cur) = some r := by
  induction fuel generalizing cursor dirPath cur with
  | zero => cases h
  | succ fuel ih =>
    unfold Ext2.walk at h ⊢
    cases hcomp : pathNextComponent cursor with
    | bad =>
      rw [hcomp] at h
      cases h
    | done =>
      rw [hcomp] at h
      exact h
    | component name rest isLast =>
      have hname : name.length ≤ 255 := by
        by_cases hp : cursor.dropWhile isSep = []
        · rw [pathNextComponent_of_nil hp] at hcomp
          cases hcomp
        · rw [pathNextComponent_of_ne hp] at hcomp
          split_ifs at hcomp with hlong
          injection hcomp with hname
          rw [← hname]
          omega
      simp only [hcomp] at h ⊢
      by_cases hdot : name = dotName
      · rw [if_pos hdot] at h ⊢
        split_ifs at h ⊢
        · exact h
        · exact ih h
      rw [if_neg hdot] at h ⊢
      split at h
      · cases h
      rename_i next type hfind
      rw [hs.entry _ _ _ hname hfind]
      split at h
      · cases h
      rename_i nd hread
      obtain ⟨rfl, hread'⟩ := hs.inode _ _ hread
      simp only [hread']
      split_ifs at h ⊢ with hlink hlast hdir hup
      · split at h
        · cases h
        rename_i target htarget
        rw [hs.target _ _ htarget]
        split at h
        · cases h
        rename_i text hjoin
        simp only [hjoin]
        exact hred _ _ h
      · exact h
      · exact ih h
      · split at h
        · cases h
        · exact ih h

theorem Sees.resolvePathEx (hs : Sees v w) {levels : Nat}
    (h : Ext2.resolvePathEx v ff levels path = some r) :
    Ext2.resolvePathEx w ff levels path = some r := by
  induction levels generalizing path r with
  | zero => cases h
  | succ levels ih =>
    unfold Ext2.resolvePathEx at h ⊢
    split at h
    · cases h
    rename_i root hread
    obtain ⟨rfl, hread'⟩ := hs.inode _ _ hread
    simp only [hread']
    split_ifs at h ⊢
    · exact h
    · exact hs.walk (fun p r hr => ih hr) h

section

variable (hv : Ready (errorFree v)) (hc : Consistent v) (hs : SoundDirs v)
include hv hc hs

theorem sees_errorFree : Sees v (errorFree v) :=
  ⟨fun _ _ h => readInode_errors h, fun _ _ _ hname h => dirFindEntry_errors hv hc hs hname h,
    fun _ _ h => readSymlinkInode_errors hv hc h⟩

theorem resolvePath_errors (h : resolvePath v path = some r) :
    resolvePath (errorFree v) path = some r := (sees_errorFree hv hc hs).resolvePathEx h

theorem resolveCreatePath_errors {c : CreatePath} (h : resolveCreatePath v path = some c) :
    resolveCreatePath (errorFree v) path = some c := by
  unfold resolveCreatePath at h ⊢
  simp only at h ⊢
  split_ifs at h ⊢
  split at h
  · cases h
  rename_i r hr
  rw [resolvePath_errors hv hc hs hr]
  exact h

end

def rangeOf (v : Vol) (ino offset len : Nat) : List UInt8 := ((contents v ino).drop offset).take len

/-- A read that succeeds delivers the contents of the file that the path leads to. -/
def ReadsTrue (v : Vol) (path : Path) (offset len : Nat) : Prop :=
  ∀ bytes, ext2ReadAtPath v path offset len = some bytes →
    ∃ ino, regularFile (errorFree v) path = some ino ∧ bytes = rangeOf v ino offset len

/-- The path is found, no data block of the range is asked for in vain, and some byte that is not
zero lies behind a pointer block that cannot be read. -/
def HiddenData (v : Vol) (path : Path) (offset len : Nat) : Prop :=
  v.initialised = true ∧ ∃ r, resolvePath v path = some r ∧ inodeIsFile r.inode = true ∧
    RangeReads v r.inode offset (min len (r.inode.size - offset)) ∧
    ∃ q, offset ≤ q ∧ q < offset + len ∧ q < r.inode.size ∧
      behindBadPointer v r.inode (q / 4096) = true ∧ fileByte v.disk r.inode q ≠ 0

theorem rangeOf_eq (v : Vol) (ino offset len : Nat) : rangeOf v ino offset len =
      fileSlice v.disk (table v ino) offset (min len ((table v ino).size - offset)) := by
  refine ext_getElem ?_ fun i h1 h2 => ?_
  · simp only [rangeOf, contents, length_take, length_drop, length_tabulate, fileSlice,
      length_map, length_range]
  · simp only [rangeOf, contents, getElem_take, getElem_drop, tabulate, fileSlice,
      getElem_map, getElem_range]

theorem seenSlice_eq_fileSlice (nd : Inode) (pos len : Nat) :
    seenSlice v nd pos len = fileSlice v.disk nd pos len ↔
      ∀ i, i < len → behindBadPointer v nd ((pos + i) / 4096) = true →
        fileByte v.disk nd (pos + i) = 0 := by
  simp only [seenSlice, fileSlice, map_inj_left, mem_range, seenByte]
  refine forall₂_congr fun i _ => ?_
  cases behindBadPointer v nd ((pos + i) / 4096) with
  | true => simp [eq_comm]
  | false => simp

section

variable (hv : Ready (errorFree v)) (hc : Consistent v)
include hv hc

theorem regularFile_errors (hs : SoundDirs v)
    (h : resolvePath v path = some r) (hfile : inodeIsFile r.inode = true) :
    r.inode = table v r.ino ∧ regularFile (errorFree v) path = some r.ino := by
  have hfree := resolvePath_errors hv hc hs h
  refine ⟨(resolvePath_eq_some hv hfree).2.1, ?_⟩
  unfold regularFile
  simp only [hfree, hfile, if_true]

theorem ext2ReadAtPath_errors (hinit : v.initialised = true) (hres : resolvePath v path = some r)
    (hrec : r.inode = table v r.ino) (hfile : inodeIsFile r.inode = true) (offset len : Nat)
    (bytes : List UInt8) : ext2ReadAtPath v path offset len = some bytes ↔
      RangeReads v r.inode offset (min len (r.inode.size - offset)) ∧
        bytes = seenSlice v r.inode offset (min len (r.inode.size - offset)) := by
  have hheld : Held v r.ino r.inode := by
    rw [hrec]
    exact hc.held (inodeIsSpecial_of_isFile (hrec ▸ hfile))
  unfold ext2ReadAtPath
  simp only [hinit, hres, hfile, Bool.not_true, Bool.false_eq_true, if_false]
  split_ifs with hend
  · have h0 : min len (r.inode.size - offset) = 0 := by omega
    rw [h0]
    constructor
    · exact fun h => ⟨fun i hi => (nomatch hi), (Option.some.inj h).symm⟩
    · rintro ⟨_, rfl⟩
      rfl
  · rw [fileReadToSink_errors hv hheld.lt hheld.fits.size (by omega), Nat.min_assoc, Nat.min_self]

theorem readsTrue_iff (hs : SoundDirs v) (path : Path) (offset len : Nat) :
    ReadsTrue v path offset len ↔ ¬HiddenData v path offset len := by
  constructor
  · rintro htrue ⟨hinit, r, hres, hfile, hreads, q, hlow, hhigh, hsize, hbad, hne⟩
    obtain ⟨hrec, hregular⟩ := regularFile_errors hv hc hs hres hfile
    obtain ⟨ino, hino, hbytes⟩ := htrue _
      ((ext2ReadAtPath_errors hv hc hinit hres hrec hfile offset len _).mpr ⟨hreads, rfl⟩)
    obtain rfl : r.ino = ino := Option.some.inj (hregular.symm.trans hino)
    rw [hrec] at hbytes hsize hbad hne
    rw [rangeOf_eq, seenSlice_eq_fileSlice] at hbytes
    have hzero := hbytes (q - offset) (by omega)
    rw [show offset + (q - offset) = q by omega] at hzero
    exact hne (hzero hbad)
  · intro hno bytes hread
    have hinit : v.initialised = true := by
      unfold ext2ReadAtPath at hread
      split_ifs at hread with h
      simpa using h
    cases hres : resolvePath v path with
    | none => simp [ext2ReadAtPath, hres] at hread
    | some r =>
      have hfile : inodeIsFile r.inode = true := by
        unfold ext2ReadAtPath at hread
        simp only [hinit, hres, Bool.not_true, Bool.false_eq_true, if_false] at hread
        by_contra hf
        rw [if_pos (by simpa using hf)] at hread
        cases hread
      obtain ⟨hrec, hregular⟩ := regularFile_errors hv hc hs hres hfile
      obtain ⟨hreads, rfl⟩ :=
        (ext2ReadAtPath_errors hv hc hinit hres hrec hfile offset len bytes).mp hread
      refine ⟨r.ino, hregular, ?_⟩
      rw [rangeOf_eq, hrec, seenSlice_eq_fileSlice]
      intro i hi hbad
      by_contra hne
      refine hno ⟨hinit, r, hres, hfile, hreads, offset + i, by omega, by omega, ?_, ?_, ?_⟩
      · rw [hrec]
        omega
      · rwa [hrec]
      · rwa [hrec]

end

end

end SmallOS.Ext2
