import SmallOS.Ext2.Path

/-! The public operations of the driver. -/

namespace SmallOS.Ext2
open Bytes Prog

def requireWritable : M Unit := do
  let v ← get
  if !v.initialised ∨ v.readOnly then throw .refused else pure ()

def newInode (mode links now : Nat) : Inode :=
  { Inode.zero with mode := mode, linksCount := links, atime := now, mtime := now, ctime := now }

def fileMode : Nat := 0x8000 ||| 0o644

def dirMode : Nat := 0x4000 ||| 0o755

def linkMode : Nat := 0xA000 ||| 0o777

def createFileInParent (create : CreatePath) : M (Nat × Inode) := do
  let v ← get
  match dirFindEntry v create.parent create.leaf with
  | some (existing, _) => do
    let nd ← query (readInode · existing) Fail.device
    if inodeIsFile nd then pure (existing, nd) else throw .refused
  | none => do
    let ino ← allocInode
    let nd := newInode fileMode 1 v.now
    writeInode ino nd
    tryCatch (do let _ ← dirAddEntry create.parentIno create.parent create.leaf ino 1)
      fun e => do
        freeInode ino
        throw e
    pure (ino, nd)

def ext2IsDir (v : Vol) (path : Path) : Bool :=
  v.initialised &&
    (path.isEmpty || match resolvePath v path with
      | none => false
      | some r => inodeIsDir r.inode)

def ext2ReadAtPath (v : Vol) (path : Path) (offset len : Nat) : Option (List UInt8) :=
  if !v.initialised then none
  else match resolvePath v path with
    | none => none
    | some r =>
      if !inodeIsFile r.inode then none
      else if r.inode.size ≤ offset then some []
      else fileReadToSink v r.inode offset (min len (r.inode.size - offset))

def ext2WritePath (path : Path) (data : List UInt8) : M Unit := do
  requireWritable
  if maxWriteFileBytes < data.length then throw .refused
  else do
    let create ← query (resolveCreatePath · path) Fail.refused
    let (ino, nd) ← createFileInParent create
    let _ ← writeFileFromSource ino nd data

/-- The file to write: the one the path leads to, or a new one when `create` is set. -/
def openForWrite (path : Path) (create : Bool) : M (Nat × Inode) := do
  let v ← get
  match resolvePath v path with
  | some r => pure (r.ino, r.inode)
  | none =>
    if create then do
      let c ← query (resolveCreatePath · path) Fail.refused
      createFileInParent c
    else throw .refused

/-- `inoutSize` is the caller's idea of the size; the new size is returned. -/
def ext2WriteAtPath (path : Path) (offset : Nat) (data : List UInt8) (inoutSize : Nat)
    (create : Bool) : M Nat := do
  requireWritable
  if 4294967296 ≤ offset + data.length then throw .refused
  else if maxWriteFileBytes < max (offset + data.length) inoutSize then throw .refused
  else do
    let (ino, nd) ← openForWrite path create
    if !inodeIsFile nd then throw .refused
    else if data.length = 0 then pure nd.size
    else do
      let nd ← writeFileRange ino nd offset data
      pure nd.size

def ext2ResizePath (path : Path) (size : Nat) : M Unit := do
  requireWritable
  let r ← query (resolvePath · path) Fail.refused
  if !inodeIsFile r.inode then throw .refused
  else do
    let _ ← resizeFile r.ino r.inode size

def dirSkeleton (ino parent : Nat) : Option Buf := do
  let buf ← dirWriteEntry zeros 0 ino 12 dotName 2
  dirWriteEntry buf 12 parent 4084 dotDotName 2

def Inode.link (nd : Inode) : Inode := { nd with linksCount := (nd.linksCount + 1) % 65536 }

def Inode.unlink (nd : Inode) : Inode := { nd with linksCount := nd.linksCount - 1 }

/-- The checks shared by the calls that add a name: a resolvable parent without it. -/
def resolveNewName (path : Path) : M CreatePath := do
  let create ← query (resolveCreatePath · path) Fail.refused
  let v ← get
  if (dirFindEntry v create.parent create.leaf).isSome then throw .refused else pure create

def ext2Mkdir (path : Path) : M Unit := do
  requireWritable
  let create ← resolveNewName path
  let ino ← allocInode
  let block ← allocBlock
  let v ← get
  let nd := { newInode dirMode 2 v.now with
    size := 4096, blocks512 := 8, block := Function.update (fun _ => 0) 0 block }
  writeInode ino nd
  let buf ← query (fun _ => dirSkeleton ino create.parentIno) Fail.refused
  writeBlock block buf
  let parent ← dirAddEntry create.parentIno create.parent create.leaf ino 2
  writeInode create.parentIno parent.link

def ext2Rm (path : Path) : M Unit := do
  requireWritable
  let create ← query (resolveCreatePath · path) Fail.refused
  let (ino, _) ← query (fun v => dirFindEntry v create.parent create.leaf) Fail.refused
  let nd ← query (readInode · ino) Fail.device
  if inodeIsDir nd then throw .refused
  else do
    dirRemoveEntry create.parentIno create.parent create.leaf
    let v ← get
    if 1 < nd.linksCount then writeInode ino { nd.unlink with ctime := v.now }
    else do
      let _ ← freeInodeBlocks nd
      writeInode ino Inode.zero
      freeInode ino

def ext2Rmdir (path : Path) : M Unit := do
  requireWritable
  let create ← query (resolveCreatePath · path) Fail.refused
  let (ino, _) ← query (fun v => dirFindEntry v create.parent create.leaf) Fail.refused
  if ino = 2 then throw .refused
  else do
    let nd ← query (readInode · ino) Fail.device
    let v ← get
    if !inodeIsDir nd ∨ !dirIsEmpty v nd then throw .refused
    else do
      let _ ← freeInodeBlocks nd
      dirRemoveEntry create.parentIno create.parent create.leaf
      writeInode create.parentIno create.parent.unlink
      writeInode ino Inode.zero
      freeInode ino

def ext2Link (oldpath newpath : Path) : M Unit := do
  requireWritable
  let old ← query (resolvePath · oldpath) Fail.refused
  if inodeIsDir old.inode then throw .refused
  else do
    let create ← resolveNewName newpath
    if old.inode.linksCount = 65535 then throw .refused
    else do
      let _ ← dirAddEntry create.parentIno create.parent create.leaf old.ino
        (dirTypeForMode old.inode.mode)
      let v ← get
      writeInode old.ino { old.inode.link with ctime := v.now }

def dropInode {α : Type} (ino : Nat) (e : Fail) : M α := do
  tryCatch (writeInode ino Inode.zero) fun _ => pure ()
  freeInode ino
  throw e

def ext2Symlink (target linkpath : Path) : M Unit := do
  requireWritable
  if target.length = 0 ∨ 255 < target.length then throw .refused
  else do
    let create ← resolveNewName linkpath
    let ino ← allocInode
    let v ← get
    let nd := newInode linkMode 1 v.now
    tryCatch (writeInode ino nd) fun e => do
      freeInode ino
      throw e
    let nd ← tryCatch (writeFileRange ino nd 0 target) (dropInode ino)
    tryCatch (do let _ ← dirAddEntry create.parentIno create.parent create.leaf ino 7)
      fun e => do
        tryCatch (do let _ ← truncateFile ino nd) fun _ => pure ()
        dropInode ino e

def mknodType (mode : Nat) : Bool :=
  fileType mode == 0x2000 || fileType mode == 0x6000 || fileType mode == 0x1000 ||
    fileType mode == 0xC000 || fileType mode == 0x8000

def ext2Mknod (path : Path) (mode rdev : Nat) : M Unit := do
  requireWritable
  if !mknodType mode then throw .refused
  else do
    let create ← resolveNewName path
    let ino ← allocInode
    let v ← get
    let nd := { newInode mode 1 v.now with block := Function.update (fun _ => 0) 0 rdev }
    tryCatch (writeInode ino nd) fun e => do
      freeInode ino
      throw e
    tryCatch (do
        let _ ← dirAddEntry create.parentIno create.parent create.leaf ino (dirTypeForMode mode))
      (dropInode ino)

def moveTarget (v : Vol) (dst : Path) (leaf : Name) : Path :=
  if ext2IsDir v dst then
    let d := dst.take 255
    let sep := match d.getLast? with
      | none => false
      | some c => !isSep c && decide (d.length + 1 < 256)
    let d := if sep then d ++ [47] else d
    d ++ leaf.take (255 - d.length)
  else dst

def ext2Move (src dst : Path) : M Unit := do
  requireWritable
  let from' ← query (resolveCreatePath · src) Fail.refused
  let (ino, type) ← query (fun v => dirFindEntry v from'.parent from'.leaf) Fail.refused
  let v ← get
  let to' ← resolveNewName (moveTarget v dst from'.leaf)
  let _ ← dirAddEntry to'.parentIno to'.parent to'.leaf ino type
  dirRemoveEntry from'.parentIno from'.parent from'.leaf

end SmallOS.Ext2
