import SmallOS.Ext2.BlockOwnership

/-! Open files. A handle keeps the path it was opened by, a size and an offset and, for a file of at
most 4 MiB, the pages of a private cache, which is loaded on first use and written back as a whole.
-/

namespace SmallOS.Vfs
open Bytes Prog Ext2

def fdCachePages : Nat := 1024
def fileCacheMaxBytes : Nat := fdCachePages * 4096
def roMapCachePages : Nat := 128
def fdNameMax : Nat := 128

inductive Errno
  | badf
  | isdir
  | fbig
  | io
  | inval
  | noent
  | nomem
  deriving DecidableEq, Repr

/-- `vfs_file_object_t`. `cache` is `none` without a frame for the table of its pages. -/
structure FileObject where
  refs : Nat
  readable : Bool
  writable : Bool
  dirty : Bool
  isDir : Bool
  name : Path
  size : Nat
  offset : Nat
  cache : Option (List Buf)

def FileObject.pages (o : FileObject) : List Buf := o.cache.getD []

structure RoEntry where
  name : Path
  ino : Nat
  size : Nat
  mtime : Nat
  ctime : Nat
  fileOffset : Nat
  frame : Buf
  refs : Nat

/-- `alloc` decides which frame allocations succeed and `clock` gives the time of each call
of the driver. `diskFailed` records that an allocation on the disk or the device has failed,
`starved` that this has happened or that a frame was not there. -/
structure State where
  vol : Vol
  objects : Nat → Option FileObject
  roMap : List (Option RoEntry)
  alloc : Nat → Bool
  allocs : Nat
  clock : Nat → UInt32
  calls : Nat
  starved : Bool
  diskFailed : Bool

abbrev H := EStateM Errno State

def onVol {α : Type} (x : Ext2.M α) : H α := fun s =>
  match x (s.vol.at (s.clock s.calls)) with
  | .ok a v => .ok a { s with vol := v, calls := s.calls + 1 }
  | .error e v => .error .io { s with
      vol := v
      calls := s.calls + 1
      starved := s.starved || decide (e ≠ Fail.refused)
      diskFailed := s.diskFailed || decide (e ≠ Fail.refused) }

def pmmAllocFrame (e : Errno) : H Unit := fun s =>
  if s.alloc s.allocs then .ok () { s with allocs := s.allocs + 1 }
  else .error e { s with allocs := s.allocs + 1, starved := true }

def getObject (ent : Nat) : H FileObject := query (·.objects ent) .badf

def setObject (ent : Nat) (o : FileObject) : H Unit :=
  modify fun s => { s with objects := Function.update s.objects ent (some o) }

def vfsRoMapInvalidatePath (path : Path) : H Unit :=
  modify fun s => { s with roMap := s.roMap.map (Option.filter (·.name != path)) }

def copyFromPages (pages : List Buf) (offset len : Nat) :
    (fuel copied : Nat) → Option (List UInt8)
  | 0, _ => some []
  | fuel + 1, copied =>
    if copied < len then
      let pos := offset + copied
      let chunk := min (4096 - pos % 4096) (len - copied)
      match pages[pos / 4096]? with
      | none => none
      | some page =>
        (copyFromPages pages offset len fuel (copied + chunk)).map
          (slice page (pos % 4096) chunk ++ ·)
    else some []

def vfsCopyFromCache (o : FileObject) (offset len : Nat) : Option (List UInt8) :=
  if o.size < offset ∨ o.size - offset < len then none
  else copyFromPages o.pages offset len len 0

def copyToPages (offset : Nat) (data : Buf) (len : Nat) :
    (fuel copied : Nat) → List Buf → Option (List Buf)
  | 0, _, pages => some pages
  | fuel + 1, copied, pages =>
    if copied < len then
      let pos := offset + copied
      let chunk := min (4096 - pos % 4096) (len - copied)
      match pages[pos / 4096]? with
      | none => none
      | some page =>
        copyToPages offset data len fuel (copied + chunk)
          (pages.set (pos / 4096) (copy page (pos % 4096) chunk (data.shift copied)))
    else some pages

/-- Within the capacity no page is missing, so a refused copy has changed nothing. -/
def vfsCopyToCache (pages : List Buf) (offset : Nat) (data : List UInt8) : Option (List Buf) :=
  let capacity := pages.length * 4096
  if capacity < offset ∨ capacity - offset < data.length then none
  else copyToPages offset (ofList data) data.length data.length 0 pages

def vfsFileEnsurePageTable (ent : Nat) : H Unit := do
  let o ← getObject ent
  if o.cache.isSome then pure ()
  else
    pmmAllocFrame .io
    setObject ent { o with cache := some [] }

def vfsFileCacheFree (ent : Nat) : H Unit := do
  let o ← getObject ent
  setObject ent { o with cache := none }

def addPage (ent : Nat) : H Unit := do
  pmmAllocFrame .io
  let o ← getObject ent
  setObject ent { o with cache := o.cache.map (· ++ [zeros]) }

def vfsFileEnsureCapacity (ent : Nat) (bytes : Nat) : H Unit := do
  let needed := (bytes + 4095) % 4294967296 / 4096
  let o ← getObject ent
  if fdCachePages < needed then throw .io
  else
    if 0 < needed then vfsFileEnsurePageTable ent
    steps (fun _ _ => addPage ent) (needed - o.pages.length) 0 ()

def ext2ReadPathToSink (v : Vol) (path : Path) : Option (List UInt8) :=
  if !v.initialised then none
  else match resolvePath v path with
    | none => none
    | some r => if !inodeIsFile r.inode then none else fileReadToSink v r.inode 0 r.inode.size

def vfsFileLoadCache (ent : Nat) : H Unit := do
  let o ← getObject ent
  if o.pages.length ≠ 0 then pure ()
  else if o.size = 0 then pure ()
  else if fileCacheMaxBytes < o.size then throw .io
  else
    vfsFileEnsureCapacity ent o.size
    let s ← get
    let o ← getObject ent
    match ext2ReadPathToSink s.vol o.name with
    | none =>
      vfsFileCacheFree ent
      throw .io
    | some bytes =>
      match vfsCopyToCache o.pages 0 bytes with
      | none =>
        vfsFileCacheFree ent
        throw .io
      | some pages =>
        if bytes.length ≠ o.size then
          vfsFileCacheFree ent
          throw .io
        else setObject ent { o with cache := some pages }

def vfsFileRead (ent : Nat) (len : Nat) : H (List UInt8) := do
  let o ← getObject ent
  if !o.readable then throw .badf
  else if o.isDir then throw .isdir
  else if len = 0 then pure []
  else if o.size ≤ o.offset then pure []
  else if o.size ≤ fileCacheMaxBytes then
    vfsFileLoadCache ent
    let o ← getObject ent
    let toCopy := min len (o.size - o.offset)
    match vfsCopyFromCache o o.offset toCopy with
    | none => throw .io
    | some bytes =>
      setObject ent { o with offset := o.offset + toCopy }
      pure bytes
  else
    match ext2ReadAtPath (← get).vol o.name o.offset len with
    | none => throw .io
    | some bytes =>
      setObject ent { o with offset := o.offset + bytes.length }
      pure bytes

/-- Where the driver gets the bytes of a file it rewrites; a read may fail. -/
abbrev Source := Nat → Nat → Option (List UInt8)

def writeFromSourceLoop (ino : Nat) (source : Source) (size : Nat) :
    (fuel offset : Nat) → Inode → Ext2.M Inode
  | 0, _, nd => pure nd
  | fuel + 1, offset, nd =>
    if offset < size then do
      let chunk := min (size - offset) 65536
      match source offset chunk with
      | none => throw .refused
      | some bytes =>
        let nd ← writeFileRange ino nd offset bytes
        writeFromSourceLoop ino source size fuel (offset + chunk) nd
    else pure nd

def ext2WritePathFromSource (path : Path) (source : Source) (size : Nat) : Ext2.M Unit := do
  requireWritable
  if maxWriteFileBytes < size then throw .refused
  else do
    let create ← query (resolveCreatePath · path) Fail.refused
    let (ino, nd) ← createFileInParent create
    let nd ← truncateFile ino nd
    if size = 0 then pure ()
    else do
      let nd ← writeFromSourceLoop ino source size size 0 nd
      writeInode ino { nd with size := size }

/-- A `return 0` is the error `io`, as which the callers report it. -/
def vfsFileFlush (ent : Nat) : H Unit := do
  match (← get).objects ent with
  | none => pure ()
  | some o =>
    if !o.writable then pure ()
    else if !o.dirty then pure ()
    else if fileCacheMaxBytes < o.size then throw .io
    else
      onVol (ext2WritePathFromSource o.name (vfsCopyFromCache o) o.size)
      vfsRoMapInvalidatePath o.name
      setObject ent { o with dirty := false }

def writeCached (ent : Nat) (data : List UInt8) (stop : Nat) : H Nat := do
  vfsFileEnsureCapacity ent stop
  let o ← getObject ent
  match vfsCopyToCache o.pages o.offset data with
  | none => throw .io
  | some pages =>
    setObject ent { o with
      cache := some pages
      offset := stop
      size := if o.size < stop then stop else o.size
      dirty := true }
    pure data.length

def writeThrough (ent : Nat) (o : FileObject) (data : List UInt8) (stop : Nat) : H Nat := do
  let size ← onVol (ext2WriteAtPath o.name o.offset data o.size true)
  vfsRoMapInvalidatePath o.name
  setObject ent { o with offset := stop, size := size, cache := none, dirty := false }
  pure data.length

def vfsFileWrite (ent : Nat) (data : List UInt8) : H Nat := do
  let o ← getObject ent
  if !o.writable then throw .badf
  else if o.isDir then throw .isdir
  else if data.length = 0 then pure 0
  else if 4294967296 ≤ o.offset + data.length then throw .fbig
  else
    let stop := o.offset + data.length
    if stop ≤ fileCacheMaxBytes ∧ o.size ≤ fileCacheMaxBytes then
      if 0 < o.size ∧ o.pages.length = 0 then vfsFileLoadCache ent
      writeCached ent data stop
    else
      if o.dirty then vfsFileFlush ent
      writeThrough ent o data stop

inductive Whence
  | start
  | current
  | stop
  | other

def seekTarget (base : Nat) (offset : Int) : Int := (base + offset : Int).bmod 4294967296

def vfsFileSeek (ent : Nat) (offset : Int) (whence : Whence) : H Int := do
  let o ← getObject ent
  let base ← match whence with
    | .start => pure 0
    | .current => pure o.offset
    | .stop => pure o.size
    | .other => throw .inval
  let newOff := seekTarget base offset
  if newOff < 0 then throw .inval
  else
    setObject ent { o with offset := newOff.toNat }
    pure newOff

def resizeThrough (ent : Nat) (o : FileObject) (size : Nat) : H Unit := do
  onVol (ext2ResizePath o.name size)
  vfsRoMapInvalidatePath o.name
  setObject ent { o with
    cache := none
    size := size
    offset := if size < o.offset then size else o.offset
    dirty := false }

def vfsFileTruncateFd (ent : Nat) (size : Nat) : H Unit := do
  let o ← getObject ent
  if !o.writable then throw .badf
  else if o.isDir then throw .isdir
  else
    if o.dirty then vfsFileFlush ent
    resizeThrough ent o size

/-- Closing one of several references leaves the object alone, and a failed write-back is
not reported. -/
def vfsFileClose (ent : Nat) : H Unit := do
  match (← get).objects ent with
  | none => pure ()
  | some o =>
    if 1 < o.refs then setObject ent { o with refs := o.refs - 1 }
    else
      if o.writable && o.dirty then tryCatch (vfsFileFlush ent) fun _ => pure ()
      modify fun s => { s with objects := Function.update s.objects ent none }

def vfsFileInit (ent : Nat) (path : Path) (size : Nat) (readable writable isDir : Bool) :
    H Unit := do
  pmmAllocFrame .nomem
  setObject ent ⟨1, readable, writable, false, isDir, path, size, 0, none⟩

end SmallOS.Vfs
