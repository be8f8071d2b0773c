import SmallOS.Vfs.Array

/-! Shared read-only pages of files: a table of 128 frames, looked up by path, inode, size,
times and page, filled on demand and reused when nobody has a frame mapped. -/

namespace SmallOS.Vfs
open Bytes Prog Ext2

/-- A file that cannot be found any more has what the handle knows of it. -/
def vfsFileStatInfoFd (v : Vol) (o : FileObject) : StatInfo :=
  (ext2StatInfo v o.name).getD
    ⟨0, if o.isDir then 0x41ED else 0x81A4, 0, 0, if o.isDir then 0 else o.size, 0, 0, o.isDir⟩

def RoEntry.matches (e : RoEntry) (path : Path) (st : StatInfo) (fileOffset : Nat) : Bool :=
  e.fileOffset == fileOffset && e.ino == st.ino && e.size == st.size && e.mtime == st.mtime &&
    e.ctime == st.ctime && e.name == path

def vfsRoMapFind (roMap : List (Option RoEntry)) (path : Path) (st : StatInfo) (fileOffset : Nat) :
    Option Nat :=
  roMap.findIdx? fun slot => slot.any (·.matches path st fileOffset)

def vfsRoMapVictim (roMap : List (Option RoEntry)) : Option Nat :=
  (roMap.findIdx? fun slot => slot.any (·.refs ≤ 1)).or (roMap.findIdx? (·.isNone))

def setSlot (i : Nat) (slot : Option RoEntry) : H Unit :=
  modify fun s => { s with roMap := s.roMap.set i slot }

def shareSlot (i : Nat) : H Buf := do
  match (← get).roMap[i]? with
  | some (some e) =>
    if e.refs = 0xFFFF then throw .io
    else
      setSlot i (some { e with refs := e.refs + 1 })
      pure e.frame
  | _ => throw .io

/-- The part that `vfs_file_map_ro_page` and `vfs_file_map_ro_page_path` have in common; `fill`
gives the bytes for a new frame. -/
def mapRoPage (path : Path) (st : StatInfo) (fileOffset : Nat) (fill : Nat → H (List UInt8)) :
    H (Buf × Nat) := do
  if st.isDir ∨ st.size ≤ fileOffset then throw .inval
  else
    let bytes := min (st.size - fileOffset) 4096
    match vfsRoMapFind (← get).roMap path st fileOffset with
    | some i =>
      let frame ← shareSlot i
      pure (frame, bytes)
    | none =>
      pmmAllocFrame .nomem
      let data ← fill bytes
      match vfsRoMapFind (← get).roMap path st fileOffset with
      | some i =>
        let frame ← shareSlot i
        pure (frame, bytes)
      | none =>
        match vfsRoMapVictim (← get).roMap with
        | none => throw .nomem
        | some i =>
          setSlot i (some ⟨path.take (fdNameMax - 1), st.ino, st.size, st.mtime, st.ctime,
            fileOffset, ofList data, 1⟩)
          let frame ← shareSlot i
          pure (frame, bytes)

def vfsFileMapRoPage (ent fileOffset : Nat) : H (Buf × Nat) := do
  let o ← getObject ent
  if !o.readable || o.writable || o.isDir then throw .badf
  else if fileOffset % 4096 ≠ 0 then throw .inval
  else
    mapRoPage o.name (vfsFileStatInfoFd (← get).vol o) fileOffset fun bytes => do
      vfsFileLoadCache ent
      let o ← getObject ent
      match vfsCopyFromCache o fileOffset bytes with
      | none => throw .io
      | some data => pure data

def vfsFileMapRoPagePath (path : Path) (fileOffset : Nat) : H (Buf × Nat) := do
  if fileOffset % 4096 ≠ 0 then throw .inval
  else match ext2StatInfo (← get).vol path with
    | none => throw .noent
    | some st =>
      mapRoPage path st fileOffset fun bytes => do
        match ext2ReadAtPath (← get).vol path fileOffset bytes with
        | none => throw .io
        | some data => if data.length ≠ bytes then throw .io else pure data

def unmapSlot (i : Nat) : H Unit := do
  match (← get).roMap[i]? with
  | some (some e) =>
    if 1 < e.refs then setSlot i (some { e with refs := e.refs - 1 })
    else pure ()
  | _ => pure ()

def vfsWriteRoot (name : Path) (data : List UInt8) : H Unit := do
  vfsRoMapInvalidatePath name
  onVol (ext2WritePath name data)

def vfsWritePath (path : Path) (data : List UInt8) : H Unit := do
  onVol (ext2WritePath path data)
  vfsRoMapInvalidatePath path

def vfsResize (path : Path) (size : Nat) : H Unit := do
  onVol (ext2ResizePath path size)
  vfsRoMapInvalidatePath path

/-- The calls that read, write or map files. Opening a file is `init`, after a `writePath`
when it creates or truncates the file. -/
inductive RoCall
  | handle (ent : Nat) (op : Op)
  | init (ent : Nat) (path : Path) (size : Nat) (readable writable isDir : Bool)
  | writeRoot (name : Path) (data : List UInt8)
  | writePath (path : Path) (data : List UInt8)
  | resize (path : Path) (size : Nat)
  | map (ent fileOffset : Nat)
  | mapPath (path : Path) (fileOffset : Nat)
  | unmap (i : Nat)

def RoCall.run : RoCall → H Unit
  | .handle ent op => do let _ ← op.run ent
  | .init ent path size readable writable isDir =>
    vfsFileInit ent path size readable writable isDir
  | .writeRoot name data => vfsWriteRoot name data
  | .writePath path data => vfsWritePath path data
  | .resize path size => vfsResize path size
  | .map ent fileOffset => do let _ ← vfsFileMapRoPage ent fileOffset
  | .mapPath path fileOffset => do let _ ← vfsFileMapRoPagePath path fileOffset
  | .unmap i => unmapSlot i

end SmallOS.Vfs
