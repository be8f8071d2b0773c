import SmallOS.Vfs.RoWrites

/-! Mapped pages. After every run of calls that keeps clear of the gaps of the invalidation, a page
that is mapped is the page that the file has on the disk. -/

namespace SmallOS.Vfs

open Bytes Prog Ext2 Splice List Option

variable {roMap : List (Option RoEntry)} {data : List UInt8} {len offset : Nat}

structure StatOf (v : Vol) (path : Path) (st : StatInfo) : Prop where
  size : st.size = (table v st.ino).size
  mtime : st.mtime = (table v st.ino).mtime
  ctime : st.ctime = (table v st.ino).ctime
  leads : inodeIsFile (table v st.ino) = true → regularFile v path = some st.ino

section

variable {v : Vol} {s : State} {path : Path} {st : StatInfo} {e : RoEntry} {i fileOffset : Nat}

theorem resolvePath_orRoot (v : Vol) (path : Path) :
    resolvePath v (if path.isEmpty then [47] else path) = resolvePath v path := by
  cases path with
  | nil => rfl
  | cons c path => rfl

theorem ext2StatInfo_eq_some (hv : Ready v) (h : ext2StatInfo v path = some st) :
    StatOf v path st := by
  unfold ext2StatInfo at h
  rw [resolvePath_orRoot] at h
  split_ifs at h
  obtain ⟨r, hres, hinfo⟩ := Option.bind_eq_some_iff.mp h
  obtain ⟨_, hrec, _⟩ := resolvePath_eq_some hv hres
  unfold statInfoFromResolved at hinfo
  split_ifs at hinfo
  obtain rfl := Option.some.inj hinfo
  refine ⟨by rw [hrec], by rw [hrec], by rw [hrec], fun hfile => ?_⟩
  simp only [regularFile, hres, hrec]
  exact if_pos hfile

theorem ext2StatInfo_of_regular (hv : Ready v) (hinit : v.initialised = true) {ino : Nat}
    (h : regularFile v path = some ino) : ∃ st, ext2StatInfo v path = some st ∧ st.ino = ino := by
  obtain ⟨⟨p, hres⟩, _, hfile⟩ := regularFile_eq_some hv h
  simp only [ext2StatInfo, resolvePath_orRoot, hres, hinit, Bool.not_true, Bool.false_eq_true,
    if_false, Option.bind_some, statInfoFromResolved, hfile, Bool.false_and]
  exact ⟨_, rfl, rfl⟩

theorem vfsRoMapFind_eq_some (h : vfsRoMapFind roMap path st fileOffset = some i) :
    ∃ e, roMap[i]? = some (some e) ∧ e.fileOffset = fileOffset ∧ e.ino = st.ino ∧
      e.size = st.size ∧ e.mtime = st.mtime ∧ e.ctime = st.ctime := by
  obtain ⟨hlt, hmatch, _⟩ := findIdx?_eq_some_iff_getElem.mp h
  obtain ⟨e, he, hkey⟩ := (Option.any_eq_true _ _).mp hmatch
  simp only [RoEntry.matches, Bool.and_eq_true, beq_iff_eq] at hkey
  obtain ⟨⟨⟨⟨⟨hoff, hino⟩, hsize⟩, hmtime⟩, hctime⟩, _⟩ := hkey
  exact ⟨e, by rw [getElem?_eq_getElem hlt, he], hoff, hino, hsize, hmtime, hctime⟩

theorem vfsRoMapVictim_lt (h : vfsRoMapVictim roMap = some i) : i < roMap.length := by
  obtain h | ⟨_, h⟩ := or_eq_some_iff.mp h
  · exact (findIdx?_eq_some_iff_getElem.mp h).1
  · exact (findIdx?_eq_some_iff_getElem.mp h).1

theorem RoState.set (h : RoState s) (he : Coherent s.vol e) (i : Nat) :
    RoState { s with roMap := s.roMap.set i (some e) } := by
  refine ⟨h.ready, h.consistent, h.initialised, fun e' hmem => ?_⟩
  obtain hmem | heq := mem_or_eq_of_mem_set hmem
  · exact h.coherent e' hmem
  · obtain rfl := Option.some.inj heq
    exact he

theorem shareSlot_post (inv : RoState s) (he : s.roMap[i]? = some (some e)) :
    Post (shareSlot i) s (fun frame s' => frame = e.frame ∧ RoState s') (fun _ s' => RoState s') := by
  have hold := inv.coherent e (mem_of_getElem? he)
  refine .bind_get ?_
  rw [he]
  refine .guard inv fun _ => .bind_assign (.ret ⟨rfl, ?_⟩)
  exact inv.set (e := { e with refs := e.refs + 1 }) ⟨hold.file, hold.inside, hold.page⟩ i

theorem Coherent.holdsPage (he : Coherent v e) (hst : StatOf v path st) (hino : e.ino = st.ino)
    (hsize : e.size = st.size) (hmtime : e.mtime = st.mtime) (hctime : e.ctime = st.ctime) :
    HoldsPage v st.ino e.fileOffset e.frame (min (st.size - e.fileOffset) 4096) := by
  obtain ⟨hfile, hinside, hpage⟩ := he
  have hlen : (contents v st.ino).length = st.size := by rw [contents, length_tabulate, hst.size]
  rw [hino] at hfile hpage
  refine ⟨hfile, by rw [hlen, ← hsize]; exact hinside, ?_, by rw [hlen]⟩
  exact hpage (hsize.trans hst.size) (hmtime.trans hst.mtime) (hctime.trans hst.ctime)

theorem pmmAllocFrame_objects (s : State) :
    Post (pmmAllocFrame .nomem) s (fun _ s' => Still s s' ∧ s'.objects = s.objects)
      (fun _ s' => Still s s') := by
  unfold Post pmmAllocFrame
  cases s.alloc s.allocs with
  | true => exact ⟨⟨rfl, rfl, rfl, rfl, rfl⟩, rfl⟩
  | false => exact ⟨rfl, rfl, rfl, rfl, rfl⟩

theorem shareFound_post (inv : RoState s) (hst : StatOf s.vol path st)
    (h : vfsRoMapFind s.roMap path st fileOffset = some i) :
    Post (do let frame ← shareSlot i; pure (frame, min (st.size - fileOffset) 4096)) s
      (fun r s' => RoState s' ∧ HoldsPage s.vol st.ino fileOffset r.1 r.2)
      (fun _ s' => RoState s') := by
  obtain ⟨e, he, rfl, hino, hsize, hmtime, hctime⟩ := vfsRoMapFind_eq_some h
  refine .seq (shareSlot_post inv he) ?_
  rintro _ s' ⟨rfl, hstate⟩
  have hold := inv.coherent e (mem_of_getElem? he)
  exact .ret ⟨hstate, hold.holdsPage hst hino hsize hmtime hctime⟩

theorem mapRoPage_post (inv : RoState s) (hst : StatOf s.vol path st) {fill : Nat → H (List UInt8)}
    (hfill : ∀ bytes s1, 0 < bytes → fileOffset + bytes ≤ st.size → Still s s1 →
      s1.objects = s.objects → Post (fill bytes) s1
        (fun data s2 => Still s s2 ∧ inodeIsFile (table s.vol st.ino) = true ∧
          data = ((contents s.vol st.ino).drop fileOffset).take bytes) (fun _ s2 => Still s s2)) :
    Post (mapRoPage path st fileOffset fill) s
      (fun r s' => RoState s' ∧ HoldsPage s.vol st.ino fileOffset r.1 r.2)
      (fun _ s' => RoState s') := by
  refine .guard inv fun hinside => .bind_get ?_
  obtain ⟨_, hinside⟩ := not_or.mp hinside
  cases hfind : vfsRoMapFind s.roMap path st fileOffset with
  | some i => exact shareFound_post inv hst hfind
  | none =>
    refine .bind (pmmAllocFrame_objects s) (fun _ _ h => inv.still h) ?_
    rintro _ s1 ⟨still1, objects1⟩
    refine .bind (hfill _ s1 (by omega) (by omega) still1 objects1) (fun _ _ h => inv.still h) ?_
    rintro _ s2 ⟨still2, hfile, rfl⟩
    have inv2 := inv.still still2
    have hst2 : StatOf s2.vol path st := by rw [still2.vol]; exact hst
    rw [← still2.vol]
    refine .bind_get ?_
    cases hagain : vfsRoMapFind s2.roMap path st fileOffset with
    | some i => exact shareFound_post inv2 hst2 hagain
    | none =>
      refine .bind_get ?_
      cases hvictim : vfsRoMapVictim s2.roMap with
      | none => exact .raise inv2
      | some i =>
        -- the new entry goes in and is shared at once
        rw [← still2.vol] at hfile
        have hnew : Coherent s2.vol ⟨path.take (fdNameMax - 1), st.ino, st.size, st.mtime, st.ctime,
            fileOffset, ofList (((contents s2.vol st.ino).drop fileOffset).take
              (min (st.size - fileOffset) 4096)), 1⟩ := by
          refine ⟨hfile, Nat.lt_of_not_le hinside, fun _ _ _ j hj => ?_⟩
          have hlen : (contents s2.vol st.ino).length = st.size := by
            rw [contents, length_tabulate, hst2.size]
          simp only [ofList]
          rw [getD_take, getD_drop]
          split_ifs with hin
          · rfl
          · rw [getD_eq_default _ _ (by rw [hlen]; omega)]
        have hslot : (s2.roMap.set i (some ⟨path.take (fdNameMax - 1), st.ino, st.size, st.mtime,
            st.ctime, fileOffset, ofList (((contents s2.vol st.ino).drop fileOffset).take
              (min (st.size - fileOffset) 4096)), 1⟩))[i]? = some (some _) :=
          getElem?_set_self (vfsRoMapVictim_lt hvictim)
        refine .bind_assign (.seq (shareSlot_post (inv2.set hnew i) hslot) ?_)
        rintro _ s' ⟨rfl, hstate⟩
        exact .ret ⟨hstate, hnew.holdsPage hst2 rfl rfl rfl rfl⟩

end

def UpToDate (v : Vol) (ino : Nat) (o : FileObject) : Prop :=
  o.pages ≠ [] → ∀ q, q < o.size → pageByte o.pages q = (contents v ino).getD q 0

section

variable {s : State} {ent ino : Nat} {o : FileObject} {path : Path}

theorem fileSlice_contents (v : Vol) {ino start : Nat} (h : start + len ≤ (table v ino).size) :
    fileSlice v.disk (table v ino) start len = ((contents v ino).drop start).take len := by
  have hslice : (fileSlice v.disk (table v ino) start len).length = len := by
    rw [fileSlice, length_map, length_range]
  have hlen : (contents v ino).length = (table v ino).size := by rw [contents, length_tabulate]
  refine eq_of_getD 0 ?_ fun q => ?_
  · rw [hslice, length_take, length_drop, hlen]
    omega
  · have htab := getD_tabulate 0 len (fun i => fileByte v.disk (table v ino) (start + i)) q
    rw [getD_take, getD_drop, contents, getD_tabulate]
    refine htab.trans ?_
    by_cases hq : q < len
    · rw [if_pos hq, if_pos hq, if_pos (by omega)]
    · rw [if_neg hq, if_neg hq]

theorem RoState.readPathToSink (inv : RoState s) (hpath : regularFile s.vol path = some ino) :
    ext2ReadPathToSink s.vol path = some (contents s.vol ino) := by
  obtain ⟨⟨p, hres⟩, _, hfile⟩ := regularFile_eq_some inv.ready hpath
  have hheld := inv.consistent.held (inodeIsSpecial_of_isFile hfile)
  simp only [ext2ReadPathToSink, inv.initialised, hres, hfile, Bool.not_true, Bool.false_eq_true,
    if_false]
  rw [fileReadToSink_eq inv.ready hheld (Nat.zero_le _), Nat.sub_zero, Nat.min_self,
    fileSlice_contents s.vol (by omega), drop_zero, contents, take_of_length_le]
  rw [length_tabulate]

theorem RoState.readAtPath (inv : RoState s)
    (h : ext2ReadAtPath s.vol path offset len = some data) (hdata : data ≠ []) :
    ∃ ino, regularFile s.vol path = some ino ∧
      data = ((contents s.vol ino).drop offset).take len := by
  unfold ext2ReadAtPath at h
  split_ifs at h
  split at h
  · cases h
  rename_i r hres
  obtain ⟨_, hrec, _⟩ := resolvePath_eq_some inv.ready hres
  split_ifs at h with hno hpast
  · exact absurd (Option.some.inj h).symm hdata
  have hfile : inodeIsFile r.inode = true := by simpa using hno
  refine ⟨r.ino, by simp only [regularFile, hres, if_pos hfile], ?_⟩
  rw [hrec] at hfile h hpast
  have hheld := inv.consistent.held (inodeIsSpecial_of_isFile hfile)
  rw [fileReadToSink_eq inv.ready hheld (by omega)] at h
  rw [← Option.some.inj h, fileSlice_contents s.vol (by omega)]
  have hlen : (contents s.vol r.ino).length = (table s.vol r.ino).size := by
    rw [contents, length_tabulate]
  refine eq_of_getD 0 ?_ fun q => ?_
  · simp only [length_take, length_drop, hlen]
    omega
  · rw [getD_take, getD_take, getD_drop]
    by_cases hq : q < len
    · rw [if_pos hq]
      split_ifs with hin
      · rfl
      · rw [getD_eq_default _ _ (by rw [hlen]; omega)]
    · rw [if_neg hq, if_neg (by omega)]

theorem copyFromPages_fits {pages : List Buf} :
    ∀ fuel copied {data : List UInt8}, copied < len → len ≤ copied + fuel →
      copyFromPages pages offset len fuel copied = some data →
      offset + len ≤ pages.length * 4096 := by
  intro fuel
  induction fuel with
  | zero =>
    intro copied _ hmore hfuel _
    omega
  | succ fuel ih =>
    intro copied data hmore hfuel h
    rw [copyFromPages, if_pos hmore] at h
    dsimp only at h
    split at h
    · cases h
    rename_i page hpage
    obtain ⟨rest, hrec, _⟩ := map_eq_some_iff.mp h
    have hlt := (List.getElem?_eq_some_iff.mp hpage).1
    by_cases hlast : copied + min (4096 - (offset + copied) % 4096) (len - copied) < len
    · exact ih _ hlast (by omega) hrec
    · omega

theorem UpToDate.copy (h : UpToDate s.vol ino o)
    (hlen : 0 < len) (hcopy : vfsCopyFromCache o offset len = some data) :
    data = tabulate len fun i => (contents s.vol ino).getD (offset + i) 0 := by
  have hcopied := hcopy
  rw [vfsCopyFromCache] at hcopied
  split_ifs at hcopied with hsize
  have hfits := copyFromPages_fits len 0 hlen (by omega) hcopied
  rw [vfsCopyFromCache_eq (by omega) hfits] at hcopy
  rw [← Option.some.inj hcopy]
  have hpages : o.pages ≠ [] := by
    intro hnil
    rw [hnil, length_nil] at hfits
    omega
  refine map_congr_left fun i hi => h hpages _ ?_
  have := mem_range.mp hi
  omega

theorem vfsFileLoadCache_current (inv : RoState s) (hobj : s.objects ent = some o)
    (hpath : regularFile s.vol o.name = some ino) (current : UpToDate s.vol ino o) :
    Post (vfsFileLoadCache ent) s
      (fun _ s' => ∃ o', s'.objects ent = some o' ∧ UpToDate s.vol ino o') (fun _ _ => True) := by
  by_cases loaded : o.pages ≠ [] ∨ o.size = 0
  · exact .of_run (vfsFileLoadCache_loaded hobj loaded) ⟨o, hobj, current⟩
  obtain ⟨hpages, hsize⟩ := not_or.mp loaded
  have empty : o.pages = [] := not_not.mp hpages
  have hread := inv.readPathToSink hpath
  by_cases hmax : o.size ≤ fileCacheMaxBytes
  · by_cases hlen : (contents s.vol ino).length = o.size
    · refine (vfsFileLoadCache_post hobj empty (by omega) hmax hread hlen).mono ?_
        fun _ _ _ => trivial
      rintro _ s' ⟨⟨pages, touched, _, hbytes⟩, _⟩
      exact ⟨_, touched.object, fun _ q _ => hbytes q⟩
    · -- the file has changed its size: the load is given up
      refine .bind_run (getObject_run hobj) ?_
      rw [if_neg (by rw [empty]; decide), if_neg (by omega), if_neg (by omega)]
      refine .bind (vfsFileEnsureCapacity_post hobj (by omega) hmax) (fun _ _ _ => trivial) ?_
      rintro _ s1 ⟨touched, _⟩
      refine .bind_get (.bind_run (getObject_run touched.object) ?_)
      have hread1 : ext2ReadPathToSink s1.vol
          (o.grow (pagesFor o.size - o.pages.length)).name = some (contents s.vol ino) := by
        rw [touched.vol]
        exact hread
      rw [hread1]
      dsimp only
      have giveUp : Post (do vfsFileCacheFree ent; throw .io : H Unit) s1
          (fun _ s' => ∃ o', s'.objects ent = some o' ∧ UpToDate s.vol ino o')
          (fun _ _ => True) :=
        .bind (.any _ _) (fun _ _ _ => trivial) fun _ _ _ => .raise trivial
      cases vfsCopyToCache (o.grow (pagesFor o.size - o.pages.length)).pages 0
          (contents s.vol ino) with
      | none => exact giveUp
      | some pages => exact .branch (fun _ => giveUp) fun same => absurd (not_not.mp same) hlen
  · refine .bind_run (getObject_run hobj) ?_
    rw [if_neg (by rw [empty]; decide), if_neg (by omega), if_pos (by omega)]
    exact .raise trivial

end

def Current (s : State) (ent : Nat) : Prop :=
  ∀ o, s.objects ent = some o →
    ∃ ino, regularFile s.vol o.name = some ino ∧ UpToDate s.vol ino o

section

variable {s : State} {ent fileOffset : Nat} {path : Path}

theorem vfsFileMapRoPagePath_post (inv : RoState s) (path : Path) (fileOffset : Nat) :
    Post (vfsFileMapRoPagePath path fileOffset) s
      (fun r s' => RoState s' ∧ ∃ ino, regularFile s.vol path = some ino ∧
        HoldsPage s.vol ino fileOffset r.1 r.2) (fun _ s' => RoState s') := by
  refine .guard inv fun _ => .bind_get ?_
  cases hstat : ext2StatInfo s.vol path with
  | none => exact .raise inv
  | some st =>
    have hst := ext2StatInfo_eq_some inv.ready hstat
    refine (mapRoPage_post inv hst fun bytes s1 hpos _ still _ => ?_).weaken (fun r s' h =>
      ⟨h.1, st.ino, hst.leads h.2.file, h.2⟩)
    refine .bind_get ?_
    rw [still.vol]
    cases hread : ext2ReadAtPath s.vol path fileOffset bytes with
    | none => exact .raise still
    | some data =>
      refine .guard still fun hlen => .ret ⟨still, ?_⟩
      have hdata : data ≠ [] := by
        rintro rfl
        simp only [length_nil, not_not] at hlen
        omega
      obtain ⟨ino, hpath, hbytes⟩ := inv.readAtPath hread hdata
      obtain ⟨⟨p, hres⟩, _, hfile⟩ := regularFile_eq_some inv.ready hpath
      obtain rfl : ino = st.ino := by
        obtain ⟨st', hst', hino⟩ := ext2StatInfo_of_regular inv.ready inv.initialised hpath
        rw [← hino, Option.some.inj (hst'.symm.trans hstat)]
      exact ⟨hfile, hbytes⟩

theorem vfsFileMapRoPage_post (inv : RoState s) (current : Current s ent) (fileOffset : Nat) :
    Post (vfsFileMapRoPage ent fileOffset) s
      (fun r s' => RoState s' ∧ ∃ o ino, s.objects ent = some o ∧
        regularFile s.vol o.name = some ino ∧ HoldsPage s.vol ino fileOffset r.1 r.2)
      (fun _ s' => RoState s') := by
  refine .bind_ask (fun _ => inv) fun o hobj => ?_
  rename State => s
  obtain ⟨ino, hpath, hfresh⟩ := current o hobj
  obtain ⟨st, hstat, rfl⟩ := ext2StatInfo_of_regular inv.ready inv.initialised hpath
  have hst := ext2StatInfo_eq_some inv.ready hstat
  refine .guard inv fun _ => .branch (fun _ => .raise inv)
    fun _ => .bind_get ?_
  rw [vfsFileStatInfoFd, hstat, getD_some]
  refine (mapRoPage_post inv hst fun bytes s1 hpos hin still objects => ?_).weaken
    (fun r s' h => ⟨h.1, o, st.ino, hobj, hpath, h.2⟩)
  have hload := vfsFileLoadCache_current (inv.still still) (by rw [objects]; exact hobj)
    (by rw [still.vol]; exact hpath) (by rw [still.vol]; exact hfresh)
  refine .bind ((vfsFileLoadCache_still ent s1).and hload)
    (fun _ _ h => IsTrans.trans _ _ _ still h.1) ?_
  rintro _ s2 ⟨still2, o2, hobj2, hfresh2⟩
  rw [still.vol] at hfresh2
  have still := IsTrans.trans _ _ _ still still2
  refine .bind_run (getObject_run hobj2) ?_
  cases hcopy : vfsCopyFromCache o2 fileOffset bytes with
  | none => exact .raise still
  | some data =>
    refine .ret ⟨still, (regularFile_eq_some inv.ready hpath).2.2, ?_⟩
    have hlen : (contents s.vol st.ino).length = st.size := by
      rw [contents, length_tabulate, hst.size]
    rw [hfresh2.copy hpos hcopy]
    refine eq_of_getD 0 ?_ fun q => ?_
    · rw [length_tabulate, length_take, length_drop, hlen]
      omega
    · rw [getD_tabulate, getD_take, getD_drop]

end

/-- The step keeps clear of what invalidation by path and a cached size and time miss: a
page cached by another name of the file that is written, with the time of the write; a
dirty cache with pages missing, or whose file is gone when it is written in two parts; and
a page mapped through a handle whose private cache is out of date. -/
def RoCall.Orderly (s : State) : RoCall → Prop
  | .handle _ (.read _) => True
  | .handle _ (.seek _ _) => True
  | .handle ent (.write _) | .handle ent (.truncate _) => ∀ o, s.objects ent = some o →
    (o.dirty = true → Covered o ∧ ¬Creates s.vol o.name) ∧
      Fresh s o.name (if o.dirty then 2 else 1)
  | .handle ent .flush | .handle ent .close => ∀ o, s.objects ent = some o →
    (o.dirty = true → Covered o) ∧ Fresh s o.name 1
  | .writeRoot path _ | .writePath path _ | .resize path _ => Fresh s path 1
  | .map ent _ => Current s ent
  | .init _ _ _ _ _ _ => True
  | .mapPath _ _ => True
  | .unmap _ => True

/-- A run of calls, whatever they answer, in which the disk has room and each call meets
`good` where it starts. -/
inductive RoRun (good : State → RoCall → Prop) : State → List RoCall → State → Prop
  | done (s : State) : RoRun good s [] s
  | call {s s₁ s₂ : State} {c : RoCall} {cs : List RoCall} {answer : Except Errno Unit}
      (hgood : good s c) (run : outcome (c.run s) = (answer, s₁)) (disk : s₁.diskFailed = false)
      (rest : RoRun good s₁ cs s₂) : RoRun good s (c :: cs) s₂

structure Booted (s : State) : Prop where
  ready : Ready s.vol
  consistent : Consistent s.vol
  initialised : s.vol.initialised = true
  empty : ∀ slot ∈ s.roMap, slot = none

section

variable {s s' : State}

theorem Booted.state (h : Booted s) : RoState s :=
  ⟨h.ready, h.consistent, h.initialised, fun _ hmem => nomatch h.empty _ hmem⟩

theorem vfsWriteRoot_keeps {path : Path} (inv : RoState s)
    (fresh : Fresh s path 1) : Keeps (vfsWriteRoot path data) s := by
  refine .bind_assign ?_
  have inv1 : RoState { s with roMap := s.roMap.map (Option.filter (·.name != path)) } :=
    ⟨inv.ready, inv.consistent, inv.initialised,
      fun e hmem => inv.coherent e (mem_invalidated.mp hmem).1⟩
  refine (onVol_writes (fun _ hv hc => ext2WritePath_stamps hv hc _ _) inv1).weaken ?_
  rintro _ _ ⟨w, rfl, hw⟩ _
  have fresh1 : Fresh { s with roMap := s.roMap.map (Option.filter (·.name != path)) } path 1 :=
    fun e hmem => fresh e (mem_invalidated.mp hmem).1
  exact (inv1.wrote fresh1 (.inl rfl) hw fun e hmem => ⟨hmem, (mem_invalidated.mp hmem).2⟩).1

theorem unmapSlot_keeps (inv : RoState s) (i : Nat) : Keeps (unmapSlot i) s := by
  refine .bind_get ?_
  match he : s.roMap[i]? with
  | some (some e) =>
    have hold := inv.coherent e (mem_of_getElem? he)
    refine .branch (fun _ => .assign fun _ => ?_) fun _ => .ret fun _ => inv
    exact inv.set (e := { e with refs := e.refs - 1 }) ⟨hold.file, hold.inside, hold.page⟩ i
  | some none => exact .ret fun _ => inv
  | none => exact .ret fun _ => inv

theorem RoCall.keeps {c : RoCall} (inv : RoState s) (h : c.Orderly s) : Keeps c.run s := by
  cases c with
  | handle ent op =>
    refine Keeps.answer ?_
    cases op with
    | read len => exact (Keeps.of_still (vfsFileRead_still ent len) inv).answer
    | write data => exact (vfsFileWrite_keeps inv h).answer
    | seek offset whence => exact (Keeps.of_still (vfsFileSeek_still ent offset whence) inv).answer
    | truncate size => exact (vfsFileTruncateFd_keeps inv h).answer
    | flush => exact (vfsFileFlush_keeps inv h).answer
    | close => exact (vfsFileClose_keeps inv h).answer
  | init ent path size readable writable isDir =>
    exact Keeps.of_still ((pmmAllocFrame_still _).bind fun _ => setObject_still ent _) inv
  | writeRoot path data => exact vfsWriteRoot_keeps inv h
  | writePath path data =>
    exact write_invalidate (fun _ hv hc => ext2WritePath_stamps hv hc _ _) inv h (.inl rfl)
      (fun _ _ hstate _ => .ret fun _ => hstate) fun _ _ he => he
  | resize path size =>
    exact write_invalidate (fun _ hv hc => ext2ResizePath_stamps hv hc _ _) inv h (.inl rfl)
      (fun _ _ hstate _ => .ret fun _ => hstate) fun _ _ he => he
  | map ent fileOffset =>
    exact Keeps.answer ((vfsFileMapRoPage_post inv h fileOffset).mono (fun _ _ h _ => h.1)
      fun _ _ h _ => h)
  | mapPath path fileOffset =>
    exact Keeps.answer ((vfsFileMapRoPagePath_post inv path fileOffset).mono (fun _ _ h _ => h.1)
      fun _ _ h _ => h)
  | unmap i => exact unmapSlot_keeps inv i

theorem Keeps.outcome {α : Type} {x : H α} {answer : Except Errno α} (h : Keeps x s)
    (run : Vfs.outcome (x s) = (answer, s')) (disk : s'.diskFailed = false) : RoState s' := by
  unfold Keeps Post at h
  cases hx : x s with
  | ok a t =>
    rw [hx] at h run
    obtain ⟨_, rfl⟩ := Prod.mk.inj run
    exact h disk
  | error e t =>
    rw [hx] at h run
    obtain ⟨_, rfl⟩ := Prod.mk.inj run
    exact h disk

theorem RoRun.state {calls : List RoCall} (h : RoRun (fun s c => c.Orderly s) s calls s')
    (inv : RoState s) : RoState s' := by
  induction h with
  | done s => exact inv
  | call hgood run disk _ ih => exact ih ((RoCall.keeps inv hgood).outcome run disk)

end

/-- After every orderly run a mapped page is the page of the file on the disk. -/
theorem mapped_page_is_on_disk {s₀ s : State} {calls : List RoCall} (start : Booted s₀)
    (run : RoRun (fun s c => c.Orderly s) s₀ calls s) :
    (∀ ent fileOffset frame bytes s', Current s ent →
      vfsFileMapRoPage ent fileOffset s = .ok (frame, bytes) s' →
      ∃ o ino, s.objects ent = some o ∧ regularFile s.vol o.name = some ino ∧
        HoldsPage s.vol ino fileOffset frame bytes) ∧ ∀ path fileOffset frame bytes s',
      vfsFileMapRoPagePath path fileOffset s = .ok (frame, bytes) s' →
      ∃ ino, regularFile s.vol path = some ino ∧ HoldsPage s.vol ino fileOffset frame bytes := by
  have inv := run.state start.state
  refine ⟨fun ent fileOffset frame bytes s' current hrun => ?_,
    fun path fileOffset frame bytes s' hrun => ?_⟩
  · exact ((vfsFileMapRoPage_post inv current fileOffset).of_ok hrun).2
  · exact ((vfsFileMapRoPagePath_post inv path fileOffset).of_ok hrun).2

def shortFile : Sample where
  records := [(2, record dirMode 4096 2 [36]), (11, record 0o100644 1 1 [37])]
  data b :=
    if b = 36 then
      dirRecords 0 [(2, 12, dotName, 2), (2, 12, dotDotName, 2), (11, 4072, [102], 1)]
    else if b = 37 then ofList [7]
    else zeros
  blocks := ⟨fun i => if i < 4 then 255 else if i = 4 then 63 else 0⟩
  inodes := ⟨fun i => if i = 0 then 255 else if i = 1 then 7 else 0⟩

theorem shortFile_sound : shortFile.Sound :=
  have ⟨fits, empty⟩ := Sample.direct [(2, dirMode, 4096, 2, [36]), (11, 0o100644, 1, 1, [37])] rfl
    (by decide)
  ⟨by decide, fits, by decide, by decide, empty, by decide⟩

def bootState : State where
  vol := shortFile.volume
  objects _ := none
  roMap := List.replicate roMapCachePages none
  alloc _ := true
  allocs := 0
  clock k := UInt32.ofNat k
  calls := 0
  starved := false
  diskFailed := false

theorem bootState_booted : Booted bootState where
  ready := shortFile_sound.ready
  consistent := shortFile_sound.consistent
  initialised := by decide
  empty _ hmem := eq_of_mem_replicate hmem

def openedState : State :=
  (outcome ((RoCall.init 3 [47, 102] 1 true false false).run bootState)).2

theorem openedState_current : Current openedState 3 := by
  intro o hobj
  obtain rfl := Option.some.inj hobj
  exact ⟨11, by decide, fun hpages => absurd rfl hpages⟩

theorem mapped_page_is_on_disk_opened : ∃ s frame s',
    Booted bootState ∧ RoRun (fun s c => c.Orderly s) bootState
      [.init 3 [47, 102] 1 true false false] s ∧ Current s 3 ∧
      vfsFileMapRoPage 3 0 s = .ok (frame, 1) s' ∧
      ∃ o ino, s.objects 3 = some o ∧ regularFile s.vol o.name = some ino ∧
        HoldsPage s.vol ino 0 frame 1 := by
  have hmap : (success (vfsFileMapRoPage 3 0 openedState)).any (fun r => decide (r.1.2 = 1)) =
      true := by decide
  obtain ⟨⟨⟨frame, bytes⟩, s'⟩, hmap, hbytes⟩ := (Option.any_eq_true _ _).mp hmap
  obtain rfl : bytes = 1 := of_decide_eq_true hbytes
  have run : RoRun (fun s c => c.Orderly s) bootState
      [.init 3 [47, 102] 1 true false false] openedState :=
    .call trivial Prod.mk.eta.symm (by decide) (.done _)
  exact ⟨openedState, frame, s', bootState_booted, run, openedState_current, eq_ok_of_success hmap,
    (mapped_page_is_on_disk bootState_booted run).1 _ _ _ _ _ openedState_current
      (eq_ok_of_success hmap)⟩

def runCalls : List RoCall → State → Option State
  | [], s => some s
  | c :: cs, s => if (outcome (c.run s)).2.diskFailed then none else runCalls cs (outcome (c.run s)).2

theorem runCalls_run {cs : List RoCall} {s s' : State} (h : runCalls cs s = some s') :
    RoRun (fun _ _ => True) s cs s' := by
  induction cs generalizing s with
  | nil => exact Option.some.inj h ▸ .done s
  | cons c cs ih =>
    rw [runCalls] at h
    split_ifs at h with disk
    exact .call trivial Prod.mk.eta.symm (by simpa using disk) (ih h)

/-- `/f` is read through a handle, written by path and mapped through the handle: the frame
has the byte from before the write. -/
theorem mapped_page_is_stale : ¬∀ (s₀ s s' : State) (calls : List RoCall) (ent fileOffset : Nat)
    (frame : Buf) (bytes : Nat), Booted s₀ → RoRun (fun _ _ => True) s₀ calls s →
    vfsFileMapRoPage ent fileOffset s = .ok (frame, bytes) s' →
    ∃ o ino, s.objects ent = some o ∧ regularFile s.vol o.name = some ino ∧
      HoldsPage s.vol ino fileOffset frame bytes := by
  intro hall
  have hrun : (runCalls [.init 3 [47, 102] 1 true false false, .handle 3 (.read 1),
      .writePath [47, 102] [8]] bootState).any (fun s =>
        (success (vfsFileMapRoPage 3 0 s)).any (fun r => r.1.1 0 == 7) &&
          (s.objects 3).any (fun o => o.name == [47, 102]) &&
          regularFile s.vol [47, 102] == some 11 && (contents s.vol 11).getD 0 0 == 8) = true := by
    decide +kernel
  obtain ⟨s, hs, hmap⟩ := (Option.any_eq_true _ _).mp hrun
  simp only [Bool.and_eq_true, beq_iff_eq] at hmap
  obtain ⟨⟨⟨hmap, hname⟩, hfile⟩, hnew⟩ := hmap
  obtain ⟨⟨⟨frame, bytes⟩, s'⟩, hmap, hold⟩ := (Option.any_eq_true _ _).mp hmap
  obtain ⟨o, ino, hobj, hpath, page⟩ :=
    hall _ _ _ _ _ _ _ _ bootState_booted (runCalls_run hs) (eq_ok_of_success hmap)
  rw [hobj, any_some, beq_iff_eq] at hname
  rw [hname, hfile] at hpath
  obtain rfl := Option.some.inj hpath
  have hbyte := page.frame 0 (by decide)
  rw [Nat.zero_add, hnew, eq_of_beq hold] at hbyte
  exact absurd hbyte (by decide)

end SmallOS.Vfs
