import SmallOS.Vfs.Cache

/-! A handle is an array of bytes with a position. The array is on the disk, or in the cache and, if
that is dirty, only there. The volume may change elsewhere between the calls. -/

namespace SmallOS.Vfs
open Bytes Prog Ext2 Splice Function List Option Bool

variable {e : Errno} {pages : List Buf} {data : List UInt8} {offset : Nat} {s' : State}

inductive Op
  | read (len : Nat)
  | write (data : List UInt8)
  | seek (offset : Int) (whence : Whence)
  | truncate (size : Nat)
  | flush
  | close

inductive Reply
  | bytes (data : List UInt8)
  | count (n : Nat)
  | position (offset : Int)
  | done
  deriving DecidableEq

def Op.run (ent : Nat) : Op → H Reply
  | .read len => do return .bytes (← vfsFileRead ent len)
  | .write data => do return .count (← vfsFileWrite ent data)
  | .seek offset whence => do return .position (← vfsFileSeek ent offset whence)
  | .truncate size => do
    vfsFileTruncateFd ent size
    return .done
  | .flush => do
    vfsFileFlush ent
    return .done
  | .close => do
    vfsFileClose ent
    return .done

structure OpenFile where
  bytes : List UInt8
  offset : Nat
  readable : Bool
  writable : Bool
  refs : Nat

def OpenFile.base (f : OpenFile) : Whence → Option Nat
  | .start => some 0
  | .current => some f.offset
  | .stop => some f.bytes.length
  | .other => none

/-- A file does not grow past `EXT2_MAX_WRITE_FILE_BYTES`, and one that is larger is not
written at all. Cutting a file takes the position along. -/
def OpenFile.apply (f : OpenFile) : Op → Except Errno (Reply × OpenFile)
  | .read len =>
    let data := (f.bytes.drop f.offset).take len
    if !f.readable then .error .badf
    else .ok (.bytes data, { f with offset := f.offset + data.length })
  | .write data =>
    let stop := f.offset + data.length
    if !f.writable then .error .badf
    else if data.length = 0 then .ok (.count 0, f)
    else if 4294967296 ≤ stop then .error .fbig
    else if maxWriteFileBytes < max stop f.bytes.length then .error .io
    else .ok (.count data.length,
      { f with bytes := overwrite 0 f.bytes f.offset data, offset := stop })
  | .seek offset whence =>
    match f.base whence with
    | none => .error .inval
    | some base =>
      if seekTarget base offset < 0 then .error .inval
      else .ok (.position (seekTarget base offset),
        { f with offset := (seekTarget base offset).toNat })
  | .truncate size =>
    if !f.writable then .error .badf
    else if maxWriteFileBytes < size then .error .io
    else .ok (.done, { f with bytes := resize 0 f.bytes size, offset := min f.offset size })
  | .flush => .ok (.done, f)
  | .close => .ok (.done, { f with refs := f.refs - 1 })

def OpenFile.step (f : OpenFile) (op : Op) : Except Errno Reply × OpenFile :=
  if f.refs = 0 then
    match op with
    | .flush => (.ok .done, f)
    | .close => (.ok .done, f)
    | _ => (.error .badf, f)
  else match f.apply op with
    | .ok (reply, f') => (.ok reply, f')
    | .error e => (.error e, f)

def OpenFile.run (f : OpenFile) : List Op → List (Except Errno Reply) × OpenFile
  | [] => ([], f)
  | op :: ops => ((f.step op).1 :: ((f.step op).2.run ops).1, ((f.step op).2.run ops).2)

/-- The array is on the disk unless the handle is dirty, and in the cache if that has a page. -/
structure Holds (path : Path) (disk : List UInt8) (o : FileObject) (f : OpenFile) : Prop where
  refs : o.refs = f.refs
  readable : o.readable = f.readable
  writable : o.writable = f.writable
  file : o.isDir = false
  name : o.name = path
  size : o.size = f.bytes.length
  offset : o.offset = f.offset
  saved : o.dirty = false → disk = f.bytes
  dirty : o.dirty = true → o.pages ≠ [] ∧ o.writable = true
  cached : o.pages ≠ [] → o.size ≤ fileCacheMaxBytes ∧ o.size ≤ o.pages.length * 4096 ∧
    ∀ q, pageByte o.pages q = f.bytes.getD q 0

structure Stands (ent : Nat) (path : Path) (ino : Nat) (s : State) (f : OpenFile) : Prop where
  mounted : Mounted s.vol
  denotes : Denotes s.vol path ino
  closed : f.refs = 0 → s.objects ent = none ∧ contents s.vol ino = f.bytes
  opened : f.refs ≠ 0 → ∃ o, s.objects ent = some o ∧ Holds path (contents s.vol ino) o f

variable {calls : List (Op × Except Errno Reply)}

section

variable {ent : Nat} {path : Path} {ino : Nat} {s : State} {f : OpenFile} {o : FileObject}
  {disk : List UInt8}

theorem Landed.stands (landed : Landed path ino disk s.vol) (hopen : f.refs ≠ 0)
    (hobj : s.objects ent = some o) (holds : Holds path disk o f) : Stands ent path ino s f := by
  refine ⟨landed.mounted, landed.denotes, fun h => absurd h hopen, fun _ => ⟨o, hobj, ?_⟩⟩
  rw [landed.contents]
  exact holds

theorem Landed.touched (landed : Landed path ino disk s.vol) (hopen : f.refs ≠ 0)
    (touched : Touched ent o s s') (holds : Holds path disk o f) : Stands ent path ino s' f := by
  rw [← touched.vol] at landed
  exact landed.stands hopen touched.object holds

theorem Stands.landed (stands : Stands ent path ino s f) :
    Landed path ino (contents s.vol ino) s.vol :=
  ⟨stands.mounted, stands.denotes, rfl⟩

theorem Holds.on_disk (h : Holds path disk o f) (empty : o.pages = []) :
    o.dirty = false ∧ disk = f.bytes := by
  have clean : o.dirty = false := eq_false_iff.mpr fun dirty => (h.dirty dirty).1 empty
  exact ⟨clean, h.saved clean⟩

theorem Holds.grow (h : Holds path disk o f) (loaded : o.pages ≠ [] ∨ f.bytes = [])
    (n : Nat) : Holds path disk (o.grow n) f := by
  refine { h with dirty := fun dirty => ⟨?_, (h.dirty dirty).2⟩, cached := fun _ => ?_ }
  · rw [o.pages_grow]
    exact fun hnil => (h.dirty dirty).1 (append_eq_nil_iff.mp hnil).1
  · simp only [o.pages_grow, pageByte_append_zeros, length_append, length_replicate]
    by_cases hpages : o.pages = []
    · have hempty : f.bytes = [] := loaded.resolve_left (not_not.mpr hpages)
      have hsize := h.size
      rw [hempty, length_nil] at hsize
      have hgrow : (o.grow n).size = 0 := hsize
      rw [hgrow, hempty, hpages]
      exact ⟨Nat.zero_le _, Nat.zero_le _, fun q => rfl⟩
    · obtain ⟨hmax, hfits, hbytes⟩ := h.cached hpages
      refine ⟨hmax, ?_, hbytes⟩
      have hgrow : (o.grow n).size = o.size := rfl
      rw [hgrow]
      exact hfits.trans (Nat.mul_le_mul_right _ (Nat.le_add_right ..))

theorem Holds.load (h : Holds path disk o f) (empty : o.pages = [])
    (hmax : o.size ≤ fileCacheMaxBytes) (hcount : pages.length = pagesFor o.size)
    (hbytes : ∀ q, pageByte pages q = disk.getD q 0) :
    Holds path disk { o with cache := some pages } f := by
  obtain ⟨clean, hdisk⟩ := h.on_disk empty
  refine { h with dirty := fun dirty => ?_, cached := fun _ => ⟨hmax, ?_, ?_⟩ }
  · rw [clean] at dirty
    cases dirty
  · show o.size ≤ pages.length * 4096
    rw [hcount, pagesFor]
    omega
  · rw [← hdisk]
    exact hbytes

theorem Holds.read (h : Holds path disk o f) (hpages : o.pages ≠ []) {len : Nat}
    (hin : offset + len ≤ o.size) :
    vfsCopyFromCache o offset len = some ((f.bytes.drop offset).take len) := by
  obtain ⟨-, hfits, hbytes⟩ := h.cached hpages
  have hsize := h.size
  rw [vfsCopyFromCache_eq hin (by omega)]
  refine congrArg some (eq_of_getD 0 ?_ fun q => ?_)
  · rw [length_tabulate, length_take, length_drop]
    omega
  · rw [getD_tabulate, getD_take, getD_drop, hbytes]

def Op.Loads (o : FileObject) : Op → Prop
  | .read len => o.readable = true ∧ len ≠ 0 ∧ o.offset < o.size
  | .write data => o.writable = true ∧ data.length ≠ 0 ∧
      o.offset + data.length ≤ fileCacheMaxBytes
  | _ => False

structure LoadStops (s : State) (o : FileObject) (k : Nat) : Prop where
  small : o.size ≤ fileCacheMaxBytes
  empty : o.pages = []
  some : 0 < k
  stop : StoppedAt s o (pagesFor o.size) k

def CutShort (ent : Nat) (s : State) (op : Op) : Prop :=
  ∃ o k, s.objects ent = some o ∧ op.Loads o ∧ LoadStops s o k

def Spared (ent : Nat) (path : Path) (ino : Nat) (s : State) (f : OpenFile) (op : Op)
    (s' : State) : Prop :=
  (¬CutShort ent s op ∧ Stands ent path ino s' f) ∨
    ∃ o k, s.objects ent = some o ∧ op.Loads o ∧ LoadStops s o k ∧ Touched ent (o.grow k) s s'

def Succeeds (ent : Nat) (path : Path) (ino : Nat) (s : State) (f : OpenFile) (op : Op)
    (reply : Reply) (s' : State) : Prop :=
  (s'.starved = false → ∃ f', f.apply op = .ok (reply, f') ∧ Stands ent path ino s' f') ∧
    ¬CutShort ent s op

def Fails (ent : Nat) (path : Path) (ino : Nat) (s : State) (f : OpenFile) (op : Op) (e : Errno)
    (s' : State) : Prop :=
  (s'.starved = false → f.apply op = .error e ∧ Stands ent path ino s' f) ∧
    (s'.diskFailed = false → Spared ent path ino s f op s')

def Meets (ent : Nat) (path : Path) (ino : Nat) (s : State) (f : OpenFile) (op : Op) : Prop :=
  Post (op.run ent) s (Succeeds ent path ino s f op) (Fails ent path ino s f op)

variable {op : Op}

theorem not_cutShort (hobj : s.objects ent = some o)
    (h : op.Loads o → ∀ k, ¬LoadStops s o k) : ¬CutShort ent s op := by
  rintro ⟨o', k, hobj', loads, stops⟩
  obtain rfl := Option.some.inj (hobj.symm.trans hobj')
  exact h loads k stops

theorem Fails.of_stands (happly : f.apply op = .error e)
    (whole : ¬CutShort ent s op) (stands : Stands ent path ino s' f) :
    Fails ent path ino s f op e s' :=
  ⟨fun _ => ⟨happly, stands⟩, fun _ => .inl ⟨whole, stands⟩⟩

theorem Fails.of_starved (starved : s'.starved = true)
    (spared : Spared ent path ino s f op s') : Fails ent path ino s f op e s' :=
  ⟨fun fed => absurd (starved.symm.trans fed) (by decide), fun _ => spared⟩

theorem Fails.of_disk (starved : s'.starved = true)
    (disk : s'.diskFailed = true) : Fails ent path ino s f op e s' :=
  ⟨fun fed => absurd (starved.symm.trans fed) (by decide),
    fun fine => absurd (disk.symm.trans fine) (by decide)⟩

theorem Holds.table (h : Holds path disk o f) (empty : o.pages = []) :
    Holds path disk (o.grow 0) f := by
  have hpages : (o.grow 0).pages = [] := by rw [o.pages_grow, empty]; rfl
  refine { h with dirty := fun dirty => ?_, cached := fun no => absurd hpages no }
  exact absurd empty (h.dirty dirty).1

theorem load_first {α : Type} {x : H α} {Q : α → State → Prop} (stands : Stands ent path ino s f)
    (hopen : f.refs ≠ 0) (hobj : s.objects ent = some o)
    (holds : Holds path (contents s.vol ino) o f) (hmax : o.size ≤ fileCacheMaxBytes)
    (loads : op.Loads o) (rest : ∀ s' o', Touched ent o' s s' →
      Holds path (contents s.vol ino) o' f → o'.pages ≠ [] ∨ f.bytes = [] → ¬CutShort ent s op →
      Post x s' Q (Fails ent path ino s f op)) :
    Post (vfsFileLoadCache ent >>= fun _ => x) s Q (Fails ent path ino s f op) := by
  have hsize := holds.size
  by_cases loaded : o.pages ≠ [] ∨ o.size = 0
  · refine .bind_run (vfsFileLoadCache_loaded hobj loaded)
      (rest s o (Touched.refl hobj) holds ?_ (not_cutShort hobj fun _ k stops => ?_))
    · exact loaded.imp_right fun hzero => length_eq_zero_iff.mp (hsize.symm.trans hzero)
    · have hzero := loaded.resolve_left (not_not.mpr stops.empty)
      have hearly := stops.stop.early
      rw [hzero, pagesFor] at hearly
      omega
  · obtain ⟨hempty, hzero⟩ := not_or.mp loaded
    have hempty := not_not.mp hempty
    have hdisk := (holds.on_disk hempty).2
    have hread : ext2ReadPathToSink s.vol o.name = some (contents s.vol ino) := by
      rw [holds.name]
      exact ext2ReadPathToSink_eq stands.mounted stands.denotes.regular
    refine .bind (vfsFileLoadCache_post hobj hempty (Nat.pos_of_ne_zero hzero) hmax hread
      (by rw [hdisk, hsize])) ?_ ?_
    · rintro e s' ⟨-, starved, ⟨hnone, hno, touched⟩ | ⟨k, stop, touched⟩⟩
      · refine Fails.of_starved starved (.inl ⟨not_cutShort hobj fun _ k stops => ?_, ?_⟩)
        · rcases stops.stop.table with hsome | hyes
          · rw [hnone] at hsome
            cases hsome
          · rw [hno] at hyes
            cases hyes
        · exact stands.landed.touched hopen touched holds
      · refine Fails.of_starved starved ?_
        rcases Nat.eq_zero_or_pos k with rfl | hpos
        · refine .inl ⟨not_cutShort hobj fun _ k stops => ?_, ?_⟩
          · have := stops.stop.unique stop
            have := stops.some
            omega
          · exact stands.landed.touched hopen touched (holds.table hempty)
        · exact .inr ⟨o, k, hobj, loads, ⟨hmax, hempty, hpos, stop⟩, touched⟩
    · rintro u s' ⟨⟨pages, touched, hcount, hbytes⟩, whole, -⟩
      refine rest s' _ touched (holds.load hempty hmax hcount hbytes) (.inl fun hnil => hzero ?_)
        (not_cutShort hobj fun _ k stops => whole k stops.stop)
      have hnil : pages = [] := hnil
      rw [hnil, length_nil, pagesFor] at hcount
      omega

def OpenFile.next (f : OpenFile) (len : Nat) : List UInt8 := (f.bytes.drop f.offset).take len

theorem OpenFile.length_next (f : OpenFile) (len : Nat) :
    (f.next len).length = min len (f.bytes.length - f.offset) := by
  rw [OpenFile.next, length_take, length_drop]

theorem OpenFile.apply_read {f : OpenFile} (h : f.readable = true) (len : Nat) :
    f.apply (.read len) =
      .ok (.bytes (f.next len), { f with offset := f.offset + (f.next len).length }) := by
  simp only [OpenFile.apply, h, Bool.not_true, false_eq_true, if_false]
  rfl

theorem Holds.read_next (h : Holds path disk o f) (hpages : o.pages ≠ []) (len : Nat)
    (hin : o.offset < o.size) :
    vfsCopyFromCache o o.offset (min len (o.size - o.offset)) = some (f.next len) := by
  have hsize := h.size
  have hoffset := h.offset
  rw [h.read hpages (by omega), hsize, hoffset, ← length_drop, ← take_eq_take_min]
  rfl

theorem Holds.advance (h : Holds path disk o f) (n : Nat) :
    Holds path disk { o with offset := o.offset + n } { f with offset := f.offset + n } :=
  { h with offset := congrArg (· + n) h.offset }

theorem Succeeds.of_stands {reply : Reply} {f' : OpenFile}
    (happly : f.apply op = .ok (reply, f')) (whole : ¬CutShort ent s op)
    (stands : Stands ent path ino s' f') : Succeeds ent path ino s f op reply s' :=
  ⟨fun _ => ⟨f', happly, stands⟩, whole⟩

theorem Meets.of_object {α : Type} {x : FileObject → H α} (r : α → Reply)
    (hobj : s.objects ent = some o) (run : op.run ent = getObject ent >>= x >>= fun a => pure (r a))
    (h : Post (x o) s (fun a => Succeeds ent path ino s f op (r a)) (Fails ent path ino s f op)) :
    Meets ent path ino s f op := by
  unfold Meets
  rw [run]
  exact .seq (.bind_run (getObject_run hobj) h) fun _ _ h => .ret h

theorem read_meets (stands : Stands ent path ino s f) (hopen : f.refs ≠ 0) (len : Nat) :
    Meets ent path ino s f (.read len) := by
  obtain ⟨o, hobj, holds⟩ := stands.opened hopen
  have hsize := holds.size
  have hoffset := holds.offset
  have hlength := f.length_next len
  refine .of_object .bytes hobj rfl ?_
  refine .branch (fun no => .raise ?_) fun yes => ?_
  · refine Fails.of_stands ?_ (not_cutShort hobj fun loads => ?_) stands
    · rw [OpenFile.apply, if_pos (holds.readable ▸ no)]
    · rw [loads.1] at no
      cases no
  have hreadable : f.readable = true := by simpa [holds.readable] using yes
  have answer := f.apply_read hreadable len
  have idle : (f.next len).length = 0 → ¬CutShort ent s (.read len) →
      Succeeds ent path ino s f (.read len) (.bytes []) s := by
    intro hzero whole
    rw [length_eq_zero_iff.mp hzero] at answer
    exact Succeeds.of_stands answer whole stands
  refine Post.branch (fun dir => absurd dir (by simp [holds.file])) fun _ => ?_
  refine .branch (fun hlen => .ret (idle (by omega) ?_)) fun hlen => ?_
  · exact not_cutShort hobj fun loads => absurd hlen loads.2.1
  refine .branch (fun hend => .ret (idle (by omega) ?_)) fun hin => ?_
  · exact not_cutShort hobj fun loads => absurd loads.2.2 (not_lt.mpr hend)
  have loads : (Op.read len).Loads o := ⟨by simpa using yes, hlen, not_le.mp hin⟩
  refine .branch (fun small => ?_) fun large => ?_
  · refine load_first stands hopen hobj holds small loads fun s1 o1 touched holds1 loaded whole => ?_
    have hsize1 := holds1.size
    have hoffset1 := holds1.offset
    have hpages : o1.pages ≠ [] := loaded.resolve_right fun hnil => by
      rw [hnil, length_nil] at hsize
      omega
    refine .bind_run (getObject_run touched.object) ?_
    dsimp only
    rw [holds1.read_next hpages len (by omega)]
    have hcount : min len (o1.size - o1.offset) = (f.next len).length := by
      rw [hlength, hsize1, hoffset1]
    rw [hcount]
    refine bind_setObject fun s2 t2 _ => .ret ?_
    refine Succeeds.of_stands answer whole ?_
    exact stands.landed.touched hopen (touched.trans t2) (holds1.advance _)
  · -- a large file has no cache and is read in place
    have hpages : o.pages = [] := by
      by_contra hne
      exact large (holds.cached hne).1
    have hdisk := (holds.on_disk hpages).2
    have hread : ext2ReadAtPath s.vol o.name o.offset len = some (f.next len) := by
      rw [holds.name, ext2ReadAtPath_eq stands.mounted stands.denotes.regular, hdisk, hoffset]
      rfl
    refine .bind_get ?_
    rw [hread]
    refine bind_setObject fun s1 t1 _ => .ret ?_
    refine Succeeds.of_stands answer (not_cutShort hobj fun _ k stops => large stops.small) ?_
    exact stands.landed.touched hopen t1 (holds.advance _)

theorem Holds.source (h : Holds path disk o f) (dirty : o.dirty = true) :
    ext2WritePathFromSource o.name (vfsCopyFromCache o) o.size = ext2WritePath path f.bytes := by
  rw [h.name, h.size]
  refine ext2WritePathFromSource_eq fun offset len hin => h.read (h.dirty dirty).1 ?_
  rw [h.size]
  exact hin

theorem Holds.flushed (h : Holds path disk o f) : Holds path f.bytes { o with dirty := false } f :=
  { h with saved := fun _ => rfl, dirty := fun no => nomatch no }

theorem flush_holds (landed : Landed path ino disk s.vol) (hobj : s.objects ent = some o)
    (holds : Holds path disk o f) :
    Post (vfsFileFlush ent) s (fun _ s' => Landed path ino f.bytes s'.vol ∧
        s'.objects = update s.objects ent (some { o with dirty := false }))
      (fun _ s' => s'.starved = true ∧ s'.diskFailed = true) := by
  have idle : o.dirty = false → Landed path ino f.bytes s.vol ∧
      s.objects = update s.objects ent (some { o with dirty := false }) := by
    intro clean
    have same : { o with dirty := false } = o := by rw [← clean]
    rw [same]
    exact ⟨holds.saved clean ▸ landed, (Touched.refl hobj).objects⟩
  refine .bind_get ?_
  rw [hobj]
  refine .branch (fun no => .ret (idle ?_)) fun _ => ?_
  · refine eq_false_iff.mpr fun dirty => ?_
    rw [(holds.dirty dirty).2] at no
    cases no
  refine Post.branch (fun clean => Post.ret (idle (by simpa using clean))) fun hdirty => ?_
  have dirty : o.dirty = true := by simpa using hdirty
  have hmax := (holds.cached (holds.dirty dirty).1).1
  refine .branch (fun large => absurd hmax (not_le.mpr large)) fun _ => ?_
  rw [holds.source dirty]
  have hlen : f.bytes.length ≤ maxWriteFileBytes := by
    rw [← holds.size]
    exact hmax.trans (by decide)
  refine .bind (onVol_post (ext2WritePath_landed (landed.at _) hlen)) ?_ ?_
  · rintro e _ ⟨-, fail, v, rfl, rfl⟩
    simp
  · rintro u _ ⟨v, rfl, landed⟩
    exact ⟨landed, rfl⟩

theorem flush_first {α : Type} {x : H α} {Q : α → State → Prop} {E : Errno → State → Prop}
    (landed : Landed path ino disk s.vol) (hobj : s.objects ent = some o)
    (holds : Holds path disk o f) (fails : ∀ e s', s'.starved = true → s'.diskFailed = true → E e s')
    (h : ∀ s', Landed path ino f.bytes s'.vol → s'.objects ent = some { o with dirty := false } →
      Post x s' Q E) :
    Post (if o.dirty then vfsFileFlush ent >>= fun _ => x else x) s Q E := by
  refine .branch (fun _ => ?_) fun clean => ?_
  · refine .bind (flush_holds landed hobj holds) (fun e s' failed => fails e s' failed.1 failed.2) ?_
    rintro u s1 ⟨landed, hobjects⟩
    exact h s1 landed (by rw [hobjects, update_self])
  · have clean : o.dirty = false := by simpa using clean
    refine h s (holds.saved clean ▸ landed) ?_
    rw [hobj, ← clean]

def OpenFile.written (f : OpenFile) (data : List UInt8) : OpenFile :=
  { f with bytes := overwrite 0 f.bytes f.offset data, offset := f.offset + data.length }

theorem Holds.write (h : Holds path disk o f) (loaded : o.pages ≠ [] ∨ f.bytes = [])
    (hwritable : f.writable = true) {stop : Nat} (hstop : stop = f.offset + data.length)
    (hmax : stop ≤ fileCacheMaxBytes) (hsmall : o.size ≤ fileCacheMaxBytes) (hpages : pages ≠ [])
    (hfits : max stop o.size ≤ pages.length * 4096) (hbytes : ∀ q, pageByte pages q =
      if f.offset ≤ q ∧ q < f.offset + data.length then data.getD (q - f.offset) 0
      else pageByte o.pages q) :
    Holds path disk { o with
      cache := some pages
      offset := stop
      size := if o.size < stop then stop else o.size
      dirty := true } (f.written data) := by
  have hlength : (if o.size < stop then stop else o.size) = (f.written data).bytes.length := by
    rw [OpenFile.written, length_overwrite, ← h.size, ← hstop]
    split_ifs <;> omega
  have old : ∀ q, pageByte o.pages q = f.bytes.getD q 0 := by
    intro q
    by_cases hnil : o.pages = []
    · rw [hnil, loaded.resolve_left (not_not.mpr hnil)]
      rfl
    · exact (h.cached hnil).2.2 q
  refine { h with
    size := hlength
    offset := hstop
    saved := fun no => nomatch no
    dirty := fun _ => ⟨hpages, h.writable.trans hwritable⟩
    cached := fun _ => ⟨?_, ?_, fun q => ?_⟩ }
  · show (if o.size < stop then stop else o.size) ≤ _
    split_ifs <;> assumption
  · show (if o.size < stop then stop else o.size) ≤ pages.length * 4096
    split_ifs <;> omega
  · show pageByte pages q = _
    rw [hbytes, OpenFile.written, getD_overwrite, old]

theorem OpenFile.apply_write {f : OpenFile} (hwritable : f.writable = true)
    (hdata : data.length ≠ 0) (hwrap : f.offset + data.length < 4294967296)
    (hmax : max (f.offset + data.length) f.bytes.length ≤ maxWriteFileBytes) :
    f.apply (.write data) = .ok (.count data.length, f.written data) := by
  unfold OpenFile.apply
  dsimp only
  rw [if_neg (by simp [hwritable]), if_neg hdata, if_neg (not_le.mpr hwrap),
    if_neg (not_lt.mpr hmax)]
  rfl

theorem writeCached_holds (landed : Landed path ino disk s.vol) (hopen : f.refs ≠ 0)
    (hobj : s.objects ent = some o) (holds : Holds path disk o f)
    (loaded : o.pages ≠ [] ∨ f.bytes = []) (hwritable : f.writable = true) (hdata : data.length ≠ 0)
    (hstop : o.offset + data.length ≤ fileCacheMaxBytes) (hsmall : o.size ≤ fileCacheMaxBytes) :
    Post (writeCached ent data (o.offset + data.length)) s
      (fun n s' => n = data.length ∧ Stands ent path ino s' (f.written data))
      (fun _ s' => s'.starved = true ∧ Stands ent path ino s' f) := by
  have hoffset := holds.offset
  refine .bind (vfsFileEnsureCapacity_post hobj (by omega) hstop) ?_ ?_
  · rintro e s1 ⟨-, starved, ⟨-, -, touched⟩ | ⟨k, -, touched⟩⟩
    · exact ⟨starved, landed.touched hopen touched holds⟩
    · exact ⟨starved, landed.touched hopen touched (holds.grow loaded k)⟩
  rintro u s1 ⟨touched, -, -⟩
  refine .bind_run (getObject_run touched.object) ?_
  generalize hn : pagesFor (o.offset + data.length) - o.pages.length = n at touched ⊢
  have hcount : (o.grow n).pages.length = o.pages.length + n := by
    rw [o.pages_grow, length_append, length_replicate]
  have hroom : o.offset + data.length ≤ (o.grow n).pages.length * 4096 := by
    unfold pagesFor at hn
    omega
  obtain ⟨pages, hcopy, hlen, hbytes⟩ :=
    vfsCopyToCache_spec hroom
  have hcopy : vfsCopyToCache (o.grow n).pages (o.grow n).offset data = some pages := hcopy
  rw [hcopy]
  refine bind_setObject fun s2 t2 _ => .ret ⟨rfl, ?_⟩
  refine landed.touched hopen (touched.trans t2) ?_
  have hgrown := holds.grow loaded n
  have hne : pages ≠ [] := fun hnil => by
    rw [hnil, length_nil] at hlen
    omega
  have hgrownNe : (o.grow n).pages ≠ [] := fun hnil => by
    rw [hnil, length_nil] at hroom
    omega
  obtain ⟨-, hold, -⟩ := hgrown.cached hgrownNe
  refine hgrown.write (.inl hgrownNe) hwritable (by rw [hoffset]) hstop hsmall hne ?_ ?_
  · rw [hlen]
    exact max_le hroom hold
  · rw [← hoffset]
    exact hbytes

theorem Holds.uncached (h : Holds path disk o f) {bytes : List UInt8} {size : Nat}
    (hsize : size = bytes.length) :
    Holds path bytes { o with offset := offset, size := size, cache := none, dirty := false }
      { f with bytes := bytes, offset := offset } :=
  { h with
    size := hsize
    offset := rfl
    saved := fun _ => rfl
    dirty := fun no => nomatch no
    cached := fun no => absurd rfl no }

theorem writeThrough_holds (landed : Landed path ino f.bytes s.vol) (hopen : f.refs ≠ 0)
    (hobj : s.objects ent = some { o with dirty := false }) (holds : Holds path disk o f)
    (hdata : data.length ≠ 0) (hwrap : o.offset + data.length < 4294967296) :
    Post (writeThrough ent o data (o.offset + data.length)) s
      (fun n s' => n = data.length ∧ Stands ent path ino s' (f.written data) ∧
        max (f.offset + data.length) f.bytes.length ≤ maxWriteFileBytes)
      (fun e s' => (s'.starved = true ∧ s'.diskFailed = true) ∨ e = .io ∧ Stands ent path ino s' f ∧
        maxWriteFileBytes < max (f.offset + data.length) f.bytes.length) := by
  have hne : data ≠ [] := fun hnil => hdata (by rw [hnil]; rfl)
  obtain rfl := holds.name
  rw [← holds.offset, ← holds.size, OpenFile.written, ← holds.offset]
  by_cases hmax : max (o.offset + data.length) o.size ≤ maxWriteFileBytes
  · refine .bind (onVol_post (ext2WriteAtPath_landed (landed.at _) hne hmax)) ?_ ?_
    · rintro e _ ⟨-, fail, v, rfl, rfl⟩
      simp
    rintro size _ ⟨v, rfl, hcount, landed⟩
    refine .bind_assign (bind_setObject fun s1 t1 _ => .ret ⟨rfl, ?_, hmax⟩)
    exact landed.touched hopen t1 (holds.uncached hcount)
  · have hmax := not_le.mp hmax
    refine .bind (onVol_post (ext2WriteAtPath_refused (landed.at _) hwrap hmax)) ?_
      (fun _ _ h => h.elim fun _ h => h.2.elim)
    rintro e _ ⟨rfl, fail, v, ⟨rfl, rfl⟩, rfl⟩
    exact .inr ⟨rfl, (landed.at _).stands hopen hobj holds.flushed, hmax⟩

theorem write_meets (stands : Stands ent path ino s f) (hopen : f.refs ≠ 0)
    (data : List UInt8) : Meets ent path ino s f (.write data) := by
  obtain ⟨o, hobj, holds⟩ := stands.opened hopen
  have hsize := holds.size
  have hoffset := holds.offset
  refine .of_object .count hobj rfl ?_
  refine .branch (fun no => .raise ?_) fun yes => ?_
  · refine Fails.of_stands ?_ (not_cutShort hobj fun loads => ?_) stands
    · rw [OpenFile.apply, if_pos (holds.writable ▸ no)]
    · rw [loads.1] at no
      cases no
  have hwritable : f.writable = true := by simpa [holds.writable] using yes
  refine Post.branch (fun dir => absurd dir (by simp [holds.file])) fun _ => ?_
  refine .branch (fun hzero => .ret ?_) fun hdata => ?_
  · refine Succeeds.of_stands ?_ (not_cutShort hobj fun loads => absurd hzero loads.2.1) stands
    rw [OpenFile.apply, if_neg (by simp [hwritable]), if_pos hzero]
  refine .branch (fun hbig => .raise ?_) fun hwrap => ?_
  · refine Fails.of_stands ?_ (not_cutShort hobj fun loads => ?_) stands
    · rw [OpenFile.apply, if_neg (by simp [hwritable]), if_neg hdata, if_pos (hoffset ▸ hbig)]
    · have := loads.2.2
      have : fileCacheMaxBytes < 4294967296 := by decide
      omega
  have hwrap := not_le.mp hwrap
  refine .branch (fun small => ?_) fun large => ?_
  · have answer := f.apply_write hwritable hdata (hoffset ▸ hwrap) (by
        have : fileCacheMaxBytes ≤ maxWriteFileBytes := by decide
        omega)
    have loads : (Op.write data).Loads o := ⟨by simpa using yes, hdata, small.1⟩
    have write : ∀ s1 o1, Touched ent o1 s s1 → Holds path (contents s.vol ino) o1 f →
        (o1.pages ≠ [] ∨ f.bytes = []) → ¬CutShort ent s (.write data) →
        Post (writeCached ent data (o.offset + data.length)) s1
          (fun n s' => Succeeds ent path ino s f (.write data) (.count n) s')
          (Fails ent path ino s f (.write data)) := by
      intro s1 o1 touched holds1 loaded whole
      have hoffset1 : o.offset = o1.offset := hoffset.trans holds1.offset.symm
      have hsize1 : o.size = o1.size := hsize.trans holds1.size.symm
      rw [hoffset1] at small ⊢
      rw [hsize1] at small
      have landed1 : Landed path ino (contents s.vol ino) s1.vol := by
        rw [touched.vol]
        exact stands.landed
      refine (writeCached_holds landed1 hopen touched.object holds1 loaded hwritable hdata small.1
        small.2).mono ?_ ?_
      · rintro n s' ⟨rfl, stands'⟩
        exact Succeeds.of_stands answer whole stands'
      · rintro e s' ⟨starved, stands'⟩
        exact Fails.of_starved starved (.inl ⟨whole, stands'⟩)
    refine .branch (fun _ => ?_) fun loaded => ?_
    · exact load_first stands hopen hobj holds small.2 loads write
    · refine write s o (Touched.refl hobj) holds ?_ (not_cutShort hobj fun _ k stops => ?_)
      · by_cases hnil : o.pages = []
        · refine .inr (length_eq_zero_iff.mp ?_)
          rw [hnil, length_nil] at loaded
          omega
        · exact .inl hnil
      · have hearly := stops.stop.early
        rw [stops.empty, length_nil] at loaded
        unfold pagesFor at hearly
        omega
  · have whole : ¬CutShort ent s (.write data) :=
      not_cutShort hobj fun loads k stops => large ⟨loads.2.2, stops.small⟩
    refine flush_first stands.landed hobj holds (fun e s' => Fails.of_disk) fun s1 landed hobj1 => ?_
    refine (writeThrough_holds landed hopen hobj1 holds hdata hwrap).mono ?_ ?_
    · rintro n s' ⟨rfl, stands', hmax⟩
      exact Succeeds.of_stands (f.apply_write hwritable hdata (hoffset ▸ hwrap) hmax) whole stands'
    · rintro e s' (⟨starved, disk⟩ | ⟨rfl, stands', hmax⟩)
      · exact Fails.of_disk starved disk
      · refine Fails.of_stands ?_ whole stands'
        rw [OpenFile.apply, if_neg (by simp [hwritable]), if_neg hdata,
          if_neg (not_le.mpr (hoffset ▸ hwrap)), if_pos hmax]

theorem seek_meets (stands : Stands ent path ino s f) (hopen : f.refs ≠ 0) (offset : Int)
    (whence : Whence) : Meets ent path ino s f (.seek offset whence) := by
  obtain ⟨o, hobj, holds⟩ := stands.opened hopen
  have whole : ¬CutShort ent s (.seek offset whence) := not_cutShort hobj fun loads => loads.elim
  refine .of_object .position hobj rfl ?_
  have move : ∀ base, f.base whence = some base →
      Post (if seekTarget base offset < 0 then throw .inval else do
          setObject ent { o with offset := (seekTarget base offset).toNat }
          pure (seekTarget base offset) : H Int) s
        (fun p s' => Succeeds ent path ino s f (.seek offset whence) (.position p) s')
        (Fails ent path ino s f (.seek offset whence)) := by
    intro base hbase
    refine .branch (fun neg => .raise (Fails.of_stands ?_ whole stands)) fun pos => ?_
    · simp only [OpenFile.apply, hbase, neg, if_true]
    refine bind_setObject fun s1 t1 _ => .ret ?_
    have answer : f.apply (.seek offset whence) = .ok (.position (seekTarget base offset),
        { f with offset := (seekTarget base offset).toNat }) := by
      simp only [OpenFile.apply, hbase, pos, if_false]
    exact Succeeds.of_stands answer whole
      (stands.landed.touched hopen t1 { holds with offset := rfl })
  cases whence with
  | start => exact .bind_ret (move 0 rfl)
  | current => exact .bind_ret (move o.offset (congrArg some holds.offset.symm))
  | stop => exact .bind_ret (move o.size (congrArg some holds.size.symm))
  | other => exact .raise (Fails.of_stands rfl whole stands)

theorem OpenFile.apply_truncate {f : OpenFile} (hwritable : f.writable = true) (size : Nat) :
    f.apply (.truncate size) = if maxWriteFileBytes < size then .error .io
      else .ok (.done, { f with bytes := resize 0 f.bytes size, offset := min f.offset size }) := by
  rw [OpenFile.apply, if_neg (by simp [hwritable])]

theorem resizeThrough_holds (landed : Landed path ino f.bytes s.vol)
    (hopen : f.refs ≠ 0) (hobj : s.objects ent = some { o with dirty := false })
    (holds : Holds path disk o f) (size : Nat) :
    Post (resizeThrough ent o size) s (fun _ s' => size ≤ maxWriteFileBytes ∧ Stands ent path ino s'
        { f with bytes := resize 0 f.bytes size, offset := min f.offset size })
      (fun e s' => (s'.starved = true ∧ s'.diskFailed = true) ∨ e = .io ∧
        maxWriteFileBytes < size ∧ Stands ent path ino s' f) := by
  obtain rfl := holds.name
  by_cases hmax : size ≤ maxWriteFileBytes
  · refine .bind (onVol_post (ext2ResizePath_landed (landed.at _) hmax)) ?_ ?_
    · rintro e _ ⟨-, fail, v, rfl, rfl⟩
      simp
    rintro u _ ⟨v, rfl, landed⟩
    refine .bind_assign (setObject_post fun s1 t1 _ _ => ⟨hmax, landed.touched hopen t1 ?_⟩)
    have hmin : (if size < o.offset then size else o.offset) = min f.offset size := by
      rw [holds.offset]
      split_ifs <;> omega
    rw [hmin]
    exact holds.uncached (length_resize 0 f.bytes size).symm
  · have hmax := not_le.mp hmax
    refine .bind (onVol_post (ext2ResizePath_refused (landed.at _) hmax)) ?_
      (fun _ _ h => h.elim fun _ h => h.2.elim)
    rintro e _ ⟨rfl, fail, v, ⟨rfl, rfl⟩, rfl⟩
    exact .inr ⟨rfl, hmax, (landed.at _).stands hopen hobj holds.flushed⟩

theorem truncate_meets (stands : Stands ent path ino s f) (hopen : f.refs ≠ 0) (size : Nat) :
    Meets ent path ino s f (.truncate size) := by
  obtain ⟨o, hobj, holds⟩ := stands.opened hopen
  have whole : ¬CutShort ent s (.truncate size) := not_cutShort hobj fun loads => loads.elim
  refine .of_object (fun _ => .done) hobj rfl ?_
  refine .branch (fun no => .raise (Fails.of_stands ?_ whole stands)) fun yes => ?_
  · rw [OpenFile.apply, if_pos (holds.writable ▸ no)]
  have answer := f.apply_truncate (by simpa [holds.writable] using yes) size
  refine Post.branch (fun dir => absurd dir (by simp [holds.file])) fun _ => ?_
  refine flush_first stands.landed hobj holds (fun e s' => Fails.of_disk) fun s1 landed hobj1 => ?_
  refine (resizeThrough_holds landed hopen hobj1 holds size).mono ?_ ?_
  · rintro u s' ⟨hmax, stands'⟩
    exact Succeeds.of_stands (answer.trans (if_neg (not_lt.mpr hmax))) whole stands'
  · rintro e s' (⟨starved, disk⟩ | ⟨rfl, hmax, stands'⟩)
    · exact Fails.of_disk starved disk
    · exact Fails.of_stands (answer.trans (if_pos hmax)) whole stands'

theorem flush_meets (stands : Stands ent path ino s f) (hopen : f.refs ≠ 0) :
    Post (Op.flush.run ent) s
      (fun reply s' => s'.starved = false → reply = .done ∧ Stands ent path ino s' f ∧
        contents s'.vol ino = f.bytes) (fun _ s' => s'.starved = true ∧ s'.diskFailed = true) := by
  obtain ⟨o, hobj, holds⟩ := stands.opened hopen
  refine .seq (flush_holds stands.landed hobj holds) ?_
  rintro u s1 ⟨landed, hobjects⟩
  refine .ret fun _ => ⟨rfl, landed.stands hopen ?_ holds.flushed, landed.contents⟩
  rw [hobjects, update_self]

theorem close_meets (stands : Stands ent path ino s f) (hopen : f.refs ≠ 0) :
    Post (Op.close.run ent) s (fun reply s' => s'.starved = false → reply = .done ∧
        Stands ent path ino s' { f with refs := f.refs - 1 })
      (fun _ _ => False) := by
  obtain ⟨o, hobj, holds⟩ := stands.opened hopen
  have hrefs := holds.refs
  refine .seq (R := fun _ s' => s'.starved = false →
    Stands ent path ino s' { f with refs := f.refs - 1 }) ?_
    fun _ _ h => .ret fun fed => ⟨rfl, h fed⟩
  refine .bind_get ?_
  rw [hobj]
  refine .branch (fun many => ?_) fun last => ?_
  · refine setObject_post fun s1 t1 _ _ _ => ?_
    refine stands.landed.touched (show f.refs - 1 ≠ 0 by omega) t1 ?_
    exact { holds with refs := congrArg (· - 1) hrefs }
  have drop : ∀ s1, (s1.starved = false → Landed path ino f.bytes s1.vol) →
      Post (modify fun s => { s with objects := update s.objects ent none } : H Unit) s1
        (fun _ s' => s'.starved = false →
          Stands ent path ino s' { f with refs := f.refs - 1 }) (fun _ _ => False) := by
    intro s1 h
    refine .assign fun fed => ?_
    have landed := h fed
    refine ⟨landed.mounted, landed.denotes, fun _ => ⟨update_self .., landed.contents⟩,
      fun more => absurd ?_ more⟩
    show f.refs - 1 = 0
    omega
  refine .branch (fun _ => ?_) fun clean => drop s fun _ => ?_
  · refine .seq (.rescue (Q := fun _ s' => s'.starved = false →
      Landed path ino f.bytes s'.vol) ((flush_holds stands.landed hobj holds).weaken
        (fun _ _ h _ => h.1)) fun e s1 starved => ?_)
      fun _ s1 h => drop s1 h
    refine .ret fun fed => ?_
    rw [starved.1] at fed
    cases fed
  · refine ⟨stands.mounted, stands.denotes, holds.saved (eq_false_iff.mpr fun dirty => ?_)⟩
    rw [(holds.dirty dirty).2, dirty] at clean
    exact clean rfl

def outcome {α : Type} : EStateM.Result Errno State α → Except Errno α × State
  | .ok a s => (.ok a, s)
  | .error e s => (.error e, s)

variable {answer : Except Errno Reply}

theorem Meets.outcome (h : Meets ent path ino s f op) (hopen : f.refs ≠ 0)
    (run : outcome (op.run ent s) = (answer, s')) (fed : s'.starved = false) :
    answer = (f.step op).1 ∧ Stands ent path ino s' (f.step op).2 := by
  unfold Meets Post at h
  unfold OpenFile.step
  rw [if_neg hopen]
  cases hrun : op.run ent s with
  | ok reply s1 =>
    rw [hrun] at h run
    obtain ⟨rfl, rfl⟩ := Prod.mk.inj run
    obtain ⟨f', happly, stands'⟩ := h.1 fed
    rw [happly]
    exact ⟨rfl, stands'⟩
  | error e s1 =>
    rw [hrun] at h run
    obtain ⟨rfl, rfl⟩ := Prod.mk.inj run
    obtain ⟨happly, stands'⟩ := h.1 fed
    rw [happly]
    exact ⟨rfl, stands'⟩

section

variable (stands : Stands ent path ino s f)
include stands

theorem closed_outcome (hclosed : f.refs = 0) (op : Op) :
    outcome (op.run ent s) = ((f.step op).1, s) ∧ (f.step op).2 = f := by
  have hobj := (stands.closed hclosed).1
  have hnone : getObject ent s = .error .badf s := by simp only [getObject, query, hobj]
  unfold OpenFile.step
  rw [if_pos hclosed]
  cases op with
  | flush =>
    refine ⟨?_, rfl⟩
    simp only [Op.run, vfsFileFlush, run_bind, run_get, hobj]
    rfl
  | close =>
    refine ⟨?_, rfl⟩
    simp only [Op.run, vfsFileClose, run_bind, run_get, hobj]
    rfl
  | _ =>
    refine ⟨?_, rfl⟩
    simp only [Op.run, vfsFileRead, vfsFileWrite, vfsFileSeek, vfsFileTruncateFd, run_bind, hnone,
      outcome]

theorem op_meets (hopen : f.refs ≠ 0) (op : Op) : Meets ent path ino s f op := by
  obtain ⟨o, hobj, -⟩ := stands.opened hopen
  cases op with
  | read len => exact read_meets stands hopen len
  | write data => exact write_meets stands hopen data
  | seek offset whence => exact seek_meets stands hopen offset whence
  | truncate size => exact truncate_meets stands hopen size
  | flush =>
    refine (flush_meets stands hopen).mono ?_ (fun _ _ failed => Fails.of_disk failed.1 failed.2)
    refine fun reply s' h => ⟨fun fed => ?_, not_cutShort hobj fun loads => loads.elim⟩
    obtain ⟨rfl, stands', -⟩ := h fed
    exact ⟨f, rfl, stands'⟩
  | close =>
    refine (close_meets stands hopen).mono ?_ (fun _ _ h => h.elim)
    refine fun reply s' h => ⟨fun fed => ?_, not_cutShort hobj fun loads => loads.elim⟩
    obtain ⟨rfl, stands'⟩ := h fed
    exact ⟨_, rfl, stands'⟩

theorem step_stands (run : outcome (op.run ent s) = (answer, s')) (fed : s'.starved = false) :
    answer = (f.step op).1 ∧ Stands ent path ino s' (f.step op).2 := by
  by_cases hopen : f.refs = 0
  · obtain ⟨hout, hsame⟩ := closed_outcome stands hopen op
    obtain ⟨rfl, rfl⟩ := Prod.mk.inj (hout.symm.trans run)
    rw [hsame]
    exact ⟨rfl, stands⟩
  · exact (op_meets stands hopen op).outcome hopen run fed

theorem flush_stores
    (run : outcome (Op.flush.run ent s) = (answer, s')) (fed : s'.starved = false) :
    contents s'.vol ino = f.bytes := by
  by_cases hopen : f.refs = 0
  · obtain ⟨hout, -⟩ := closed_outcome stands hopen .flush
    obtain ⟨-, rfl⟩ := Prod.mk.inj (hout.symm.trans run)
    exact (stands.closed hopen).2
  · have h := flush_meets stands hopen
    unfold Post at h
    cases hrun : Op.flush.run ent s with
    | ok reply s1 =>
      rw [hrun] at h run
      obtain ⟨-, rfl⟩ := Prod.mk.inj run
      exact (h fed).2.2
    | error e s1 =>
      rw [hrun] at h run
      obtain ⟨-, rfl⟩ := Prod.mk.inj run
      exact absurd (h.1.symm.trans fed) (by decide)

end

/-- The handle is left alone, and the volume changes elsewhere: the path still leads to the
file, and the file has the same bytes. -/
structure Elsewhere (ent : Nat) (path : Path) (ino : Nat) (s s' : State) : Prop where
  objects : s'.objects ent = s.objects ent
  mounted : Mounted s'.vol
  denotes : Denotes s'.vol path ino
  contents : contents s'.vol ino = contents s.vol ino

theorem Stands.elsewhere (stands : Stands ent path ino s f)
    (h : Elsewhere ent path ino s s') : Stands ent path ino s' f := by
  refine ⟨h.mounted, h.denotes, fun hclosed => ?_, fun hopen => ?_⟩
  · rw [h.objects, h.contents]
    exact stands.closed hclosed
  · rw [h.objects, h.contents]
    exact stands.opened hopen

/-- Calls on one handle with their answers, none of them starved, among changes elsewhere. -/
inductive Trace (ent : Nat) (path : Path) (ino : Nat) :
    State → List (Op × Except Errno Reply) → State → Prop
  | done (s : State) : Trace ent path ino s [] s
  | call {s s₁ s₂ : State} {op : Op} {answer : Except Errno Reply}
      {calls : List (Op × Except Errno Reply)} (run : outcome (op.run ent s) = (answer, s₁))
      (fed : s₁.starved = false) (rest : Trace ent path ino s₁ calls s₂) :
      Trace ent path ino s ((op, answer) :: calls) s₂
  | other {s s₁ s₂ : State} {calls : List (Op × Except Errno Reply)}
      (elsewhere : Elsewhere ent path ino s s₁) (rest : Trace ent path ino s₁ calls s₂) :
      Trace ent path ino s calls s₂

theorem Trace.stands (trace : Trace ent path ino s calls s') (stands : Stands ent path ino s f) :
    calls.map Prod.snd = (f.run (calls.map Prod.fst)).1 ∧
      Stands ent path ino s' (f.run (calls.map Prod.fst)).2 := by
  induction trace generalizing f with
  | done s => exact ⟨rfl, stands⟩
  | call run fed _ ih =>
    obtain ⟨hanswer, stands1⟩ := step_stands stands run fed
    obtain ⟨hanswers, stands2⟩ := ih stands1
    exact ⟨congrArg₂ List.cons hanswer hanswers, stands2⟩
  | other elsewhere _ ih => exact ih (stands.elsewhere elsewhere)

theorem Trace.quiet (trace : Trace ent path ino s calls s') (none : calls = []) :
    contents s'.vol ino = contents s.vol ino := by
  induction trace with
  | done s => rfl
  | call run fed rest ih => cases none
  | other elsewhere _ ih => exact (ih none).trans elsewhere.contents

theorem OpenFile.step_flush (f : OpenFile) : (f.step .flush).2 = f := by
  unfold OpenFile.step
  split_ifs <;> rfl

theorem Trace.stored (trace : Trace ent path ino s calls s') (stands : Stands ent path ino s f)
    (last : calls.getLast? = some (.flush, answer)) :
    contents s'.vol ino = (f.run (calls.map Prod.fst)).2.bytes := by
  induction trace generalizing f with
  | done s => cases last
  | @call s s1 s2 op answer1 calls run fed rest ih =>
    obtain ⟨-, stands1⟩ := step_stands stands run fed
    cases calls with
    | cons c calls => exact ih stands1 last
    | nil =>
      obtain ⟨rfl, rfl⟩ := Prod.mk.inj (Option.some.inj last)
      rw [rest.quiet rfl, flush_stores stands run fed]
      exact congrArg OpenFile.bytes f.step_flush.symm
  | other elsewhere _ ih => exact ih (stands.elsewhere elsewhere) last

end

/-- A handle on a regular file, opened by its own name, answers as an array with a position
does, whatever happens elsewhere; after a flush and after the last close the file has the
bytes of the array. -/
theorem handle_is_array {ent : Nat} {path : Path} {ino refs : Nat} {readable writable : Bool}
    {s s' : State} {calls : List (Op × Except Errno Reply)} (mounted : Mounted s.vol)
    (denotes : Denotes s.vol path ino)
    (opened : s.objects ent = some ⟨refs + 1, readable, writable, false, false, path,
      (contents s.vol ino).length, 0, none⟩)
    (trace : Trace ent path ino s calls s') :
    let array := (OpenFile.mk (contents s.vol ino) 0 readable writable (refs + 1)).run
      (calls.map Prod.fst)
    calls.map Prod.snd = array.1 ∧
      ((∃ answer, calls.getLast? = some (.flush, answer)) ∨ array.2.refs = 0 →
        contents s'.vol ino = array.2.bytes) := by
  have stands : Stands ent path ino s
      (OpenFile.mk (contents s.vol ino) 0 readable writable (refs + 1)) := by
    refine Landed.stands ⟨mounted, denotes, rfl⟩ (Nat.succ_ne_zero refs) opened ?_
    exact ⟨rfl, rfl, rfl, rfl, rfl, rfl, rfl, fun _ => rfl, (fun no => nomatch no),
      fun no => absurd rfl no⟩
  obtain ⟨answers, stands'⟩ := trace.stands stands
  refine ⟨answers, ?_⟩
  rintro (⟨answer, last⟩ | closed)
  · exact trace.stored stands last
  · exact (stands'.closed closed).2

def runOps (ent : Nat) : List Op → State → Option (List (Op × Except Errno Reply) × State)
  | [], s => some ([], s)
  | op :: ops, s =>
    let (answer, s₁) := outcome (op.run ent s)
    if s₁.starved then none
    else (runOps ent ops s₁).map fun (calls, s₂) => ((op, answer) :: calls, s₂)

theorem runOps_trace {ent : Nat} {ops : List Op} {s : State}
    (h : runOps ent ops s = some (calls, s')) :
    calls.map Prod.fst = ops ∧ ∀ path ino, Trace ent path ino s calls s' := by
  induction ops generalizing s calls with
  | nil =>
    obtain ⟨rfl, rfl⟩ := Prod.mk.inj (Option.some.inj h)
    exact ⟨rfl, fun _ _ => .done _⟩
  | cons op ops ih =>
    cases run : outcome (op.run ent s) with
    | mk answer s1 =>
      simp only [runOps, run] at h
      split_ifs at h with starved
      obtain ⟨⟨calls1, s2⟩, hrest, heq⟩ := map_eq_some_iff.mp h
      obtain ⟨rfl, rfl⟩ := Prod.mk.inj heq
      obtain ⟨hops, trace⟩ := ih hrest
      exact ⟨congrArg (op :: ·) hops,
        fun path ino => .call run (by simpa using starved) (trace path ino)⟩

def linkedFile : Sample where
  records := [(2, record dirMode 4096 2 [36]), (11, record 0o100644 0 1 []),
    (12, record linkMode 1 1 [37])]
  data b :=
    if b = 36 then
      dirRecords 0 [(2, 12, dotName, 2), (2, 12, dotDotName, 2), (11, 12, [102], 1),
        (12, 4060, [108], 7)]
    else if b = 37 then ofList [102]
    else zeros
  blocks := ⟨fun i => if i < 4 then 255 else if i = 4 then 63 else 0⟩
  inodes := ⟨fun i => if i = 0 then 255 else if i = 1 then 15 else 0⟩

theorem linkedFile_sound : linkedFile.Sound :=
  have ⟨fits, empty⟩ := Sample.direct [(2, dirMode, 4096, 2, [36]), (11, 0o100644, 0, 1, []),
    (12, linkMode, 1, 1, [37])] rfl (by decide)
  ⟨by decide, fits, by decide, by decide, empty, by decide⟩

theorem linkedFile_mounted : Mounted linkedFile.volume :=
  ⟨linkedFile_sound.ready, linkedFile_sound.consistent, by decide, by decide, rfl,
    linkedFile_sound.clean (by decide), fun _ _ => rfl⟩

def openState (path : Path) : State where
  vol := linkedFile.volume
  objects ent := if ent = 3 then some ⟨1, true, true, false, false, path, 0, 0, none⟩ else none
  roMap := List.replicate roMapCachePages none
  alloc _ := true
  allocs := 0
  clock _ := 0
  calls := 0
  starved := false
  diskFailed := false

theorem openState_empty (path : Path) : contents (openState path).vol 11 = [] := by
  show contents linkedFile.volume 11 = []
  rw [contents, linkedFile_sound.table]
  rfl

theorem handle_is_array_write : ∃ calls s', Trace 3 [47, 102] 11 (openState [47, 102]) calls s' ∧
      calls.map Prod.snd = [.ok (.count 2), .ok (.position 0), .ok (.bytes [7, 8]), .ok .done] ∧
      contents s'.vol 11 = [7, 8] := by
  have hrun : (runOps 3 [.write [7, 8], .seek 0 .start, .read 9, .flush]
      (openState [47, 102])).isSome := by decide +kernel
  obtain ⟨⟨calls, s'⟩, hrun⟩ := isSome_iff_exists.mp hrun
  obtain ⟨hops, trace⟩ := runOps_trace hrun
  have denotes : Denotes (openState [47, 102]).vol [47, 102] 11 :=
    ⟨by decide, by decide⟩
  have opened : (openState [47, 102]).objects 3 = some ⟨0 + 1, true, true, false, false, [47, 102],
      (contents (openState [47, 102]).vol 11).length, 0, none⟩ := by
    rw [openState_empty]
    rfl
  obtain ⟨answers, stored⟩ :=
    handle_is_array linkedFile_mounted denotes opened (trace [47, 102] 11)
  rw [hops, openState_empty] at answers stored
  have last : ∃ answer, calls.getLast? = some (.flush, answer) := by
    have hlast := congrArg getLast? hops
    rw [getLast?_map] at hlast
    obtain ⟨⟨op, answer⟩, h, heq⟩ := map_eq_some_iff.mp hlast
    have heq : op = .flush := heq
    exact ⟨answer, heq ▸ h⟩
  exact ⟨calls, s', trace _ _, answers, stored (.inl last)⟩

/-- The same file by its link: the bytes are taken, but they cannot be flushed. -/
theorem link_handle_cannot_flush : ∃ calls s', Mounted (openState [47, 108]).vol ∧
      regularFile (openState [47, 108]).vol [47, 108] = some 11 ∧
      Trace 3 [47, 108] 11 (openState [47, 108]) calls s' ∧
      calls.map Prod.fst = [.write [7], .flush] ∧
      calls.map Prod.snd ≠ ((OpenFile.mk (contents (openState [47, 108]).vol 11) 0 true true 1).run
        (calls.map Prod.fst)).1 := by
  have hrun : (runOps 3 [.write [7], .flush] (openState [47, 108])).any
      (fun r => decide (r.1.map Prod.snd = [.ok (.count 1), .error .io])) := by decide
  obtain ⟨⟨calls, s'⟩, hrun, hanswers⟩ := (Option.any_eq_true _ _).mp hrun
  obtain ⟨hops, trace⟩ := runOps_trace hrun
  refine ⟨calls, s', linkedFile_mounted, by decide, trace _ _, hops, ?_⟩
  rw [hops, openState_empty, of_decide_eq_true hanswers]
  decide

end SmallOS.Vfs
