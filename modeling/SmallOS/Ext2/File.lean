import SmallOS.Ext2.Directory

/-! File contents: reading a range, writing a range by fresh runs, contiguous
runs and read-modify-write, truncation and resizing. -/

namespace SmallOS.Ext2
open Bytes Prog

def maxWriteFileBytes : Nat := 15 * 1024 * 1024

def slice (buf : Buf) (off len : Nat) : List UInt8 := (List.range len).map fun i => buf (off + i)

def readLoop (v : Vol) (nd : Inode) (start len : Nat) : (fuel done : Nat) → Option (List UInt8)
  | 0, _ => some []
  | fuel + 1, done =>
    if done < len then
      let pos := start + done
      let blockOff := pos % 4096
      let chunk := min (4096 - blockOff) (len - done)
      match inodeFindDataBlock v nd (pos / 4096) with
      | none => none
      | some block =>
        match (if block = 0 then some zeros else readBlock v block) with
        | none => none
        | some buf =>
          (readLoop v nd start len fuel (done + chunk)).map (slice buf blockOff chunk ++ ·)
    else some []

def fileReadToSink (v : Vol) (nd : Inode) (start len : Nat) : Option (List UInt8) :=
  if nd.size < start then none
  else
    let len := min len (nd.size - start)
    readLoop v nd start len len 0

def readSymlinkInode (v : Vol) (nd : Inode) (outSize : Nat) : Option (List UInt8) :=
  if !inodeIsSymlink nd ∨ outSize ≤ nd.size then none
  else fileReadToSink v nd 0 nd.size

/-- Extend a run that starts at `block` while the next logical block is the next
physical one. The block that ends the run is already allocated. -/
def extendRun (logical block maxBlocks : Nat) : (fuel blocks : Nat) → Inode → M (Inode × Nat)
  | 0, blocks, nd => pure (nd, blocks)
  | fuel + 1, blocks, nd =>
    if blocks < maxBlocks then do
      let (nd, next) ← inodeGetDataBlockEx nd (logical + blocks) false
      if next = 0 then throw .refused
      else if next ≠ block + blocks then pure (nd, blocks)
      else extendRun logical block maxBlocks fuel (blocks + 1) nd
    else pure (nd, blocks)

/-- One turn over whole blocks: a fresh run when every block of the window is missing, else the
longest contiguous run. -/
def writeWholeBlocks (nd : Inode) (logical maxBlocks : Nat) (data : Buf) : M (Inode × Nat) := do
  let (nd, prepared) ← inodePrepareFreshBlocks nd logical maxBlocks
  match prepared with
  | some (block, blocks) => do
    writeBlocks block blocks data
    pure (nd, blocks * 4096)
  | none => do
    let (nd, block) ← inodeGetDataBlockEx nd logical false
    if block = 0 then throw .refused
    else do
      let (nd, blocks) ← extendRun logical block maxBlocks maxBlocks 1 nd
      writeBlocks block blocks data
      pure (nd, blocks * 4096)

def writePartBlock (nd : Inode) (logical blockOff chunk : Nat) (data : Buf) : M (Inode × Nat) := do
  let (nd, block) ← inodeGetDataBlock nd logical
  let buf ← if chunk = 4096 then pure zeros else query (readBlock · block) Fail.device
  writeBlock block (copy buf blockOff chunk data)
  pure (nd, chunk)

def writeChunk (nd : Inode) (pos rest : Nat) (data : Buf) : M (Inode × Nat) :=
  if pos % 4096 = 0 ∧ 4096 ≤ rest then
    writeWholeBlocks nd (pos / 4096) (min (rest / 4096) 16) data
  else writePartBlock nd (pos / 4096) (pos % 4096) (min (4096 - pos % 4096) rest) data

def writeLoop (offset len : Nat) (data : Buf) : (fuel done : Nat) → Inode → M Inode
  | 0, _, nd => pure nd
  | fuel + 1, done, nd =>
    if done < len then do
      let (nd, wrote) ← writeChunk nd (offset + done) (len - done) (data.shift done)
      writeLoop offset len data fuel (done + wrote) nd
    else pure nd

def Inode.touch (nd : Inode) (now : Nat) : Inode := { nd with mtime := now, ctime := now }

def writeFileRange (ino : Nat) (nd : Inode) (offset : Nat) (data : List UInt8) : M Inode := do
  let nd ← deferred (writeLoop offset data.length (ofList data) data.length 0 nd)
  let v ← get
  let nd := { nd with size := if nd.size < offset + data.length then offset + data.length else nd.size }
  let nd := nd.touch v.now
  writeInode ino nd
  pure nd

def truncateFile (ino : Nat) (nd : Inode) : M Inode := do
  let nd ← deferred (freeInodeBlocks nd)
  let v ← get
  let nd := nd.touch v.now
  writeInode ino nd
  pure nd

def clearTail (nd : Inode) (size : Nat) : M Unit :=
  if size % 4096 = 0 then pure ()
  else do
    let block ← query (inodeFindDataBlock · nd (size / 4096)) Fail.refused
    if block = 0 then pure ()
    else do
      let buf ← query (readBlock · block) Fail.device
      writeBlock block (fill buf (size % 4096) (4096 - size % 4096) 0)

def shrinkBlocks (nd : Inode) (size : Nat) : M Inode := do
  let newBlocks := (size + 4095) / 4096
  let nd ← steps (fun logical nd => freeLogicalBlock nd logical)
    (inodeBlockCount nd - newBlocks) newBlocks nd
  freeEmptyIndirectBlocks nd

def resizeFile (ino : Nat) (nd : Inode) (size : Nat) : M Inode :=
  if !inodeIsFile nd ∨ maxWriteFileBytes < size then throw .refused
  else if size = nd.size then pure nd
  else if size = 0 then truncateFile ino nd
  else if nd.size < size then do
    let nd ← writeFileRange ino nd (size - 1) [0]
    let v ← get
    let nd := ({ nd with size := size } : Inode).touch v.now
    writeInode ino nd
    pure nd
  else do
    let nd ← deferred (shrinkBlocks nd size)
    clearTail nd size
    let v ← get
    let nd := ({ nd with size := size } : Inode).touch v.now
    writeInode ino nd
    pure nd

def writeSourceLoop (ino : Nat) (data : List UInt8) : (fuel offset : Nat) → Inode → M Inode
  | 0, _, nd => pure nd
  | fuel + 1, offset, nd =>
    if offset < data.length then do
      let chunk := min (data.length - offset) 65536
      let nd ← writeFileRange ino nd offset ((data.drop offset).take chunk)
      writeSourceLoop ino data fuel (offset + chunk) nd
    else pure nd

def writeFileFromSource (ino : Nat) (nd : Inode) (data : List UInt8) : M Inode :=
  if maxWriteFileBytes < data.length then throw .refused
  else do
    let nd ← truncateFile ino nd
    if data.length = 0 then pure nd
    else do
      let nd ← writeSourceLoop ino data data.length 0 nd
      let nd := { nd with size := data.length }
      writeInode ino nd
      pure nd

end SmallOS.Ext2
