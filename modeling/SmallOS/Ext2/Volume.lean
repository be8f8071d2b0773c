import SmallOS.Lib.Bytes
import SmallOS.Lib.Prog

/-! The mounted volume of the ext2 driver: device blocks, the cached bitmaps with their deferred
write-back, and the inode table. Blocks 2 and 3 hold the block and inode bitmaps, blocks 4 to 35 the
inode table, and data starts at block 36. Scratch buffers are values here: every use in the driver
reloads them first. A `return 0` of the driver is a failure that keeps the volume as it was left;
its tag records which check failed. -/

namespace SmallOS.Ext2
open Bytes Prog

@[ext] structure Inode where
  mode : Nat
  uid : Nat
  gid : Nat
  size : Nat
  linksCount : Nat
  blocks512 : Nat
  atime : Nat
  ctime : Nat
  mtime : Nat
  block : Nat → Nat

def Inode.zero : Inode := ⟨0, 0, 0, 0, 0, 0, 0, 0, 0, fun _ => 0⟩

/-- `readFails` and `writeFails` are the blocks the device reports an error on. -/
structure Vol where
  disk : Nat → Buf
  readFails : Nat → Bool
  writeFails : Nat → Bool
  ramdisk : Bool
  readOnly : Bool
  initialised : Bool
  bitmapsLoaded : Bool
  blockBitmap : Buf
  inodeBitmap : Buf
  deferDepth : Nat
  blockBitmapDirty : Bool
  inodeBitmapDirty : Bool
  nextAllocBlock : Nat
  now : Nat

inductive Fail
  | device
  | noBlock
  | noInode
  | noSlot
  | refused
  deriving DecidableEq, Repr

abbrev M := EStateM Fail Vol

def readBlock (v : Vol) (b : Nat) : Option Buf :=
  if v.readFails b then none else some (v.disk b)

def setBlock (v : Vol) (b : Nat) (data : Buf) : Vol :=
  { v with disk := Function.update v.disk b data }

def writeBlock (b : Nat) (data : Buf) : M Unit := do
  let v ← get
  if v.writeFails b then throw .device else set (setBlock v b data)

def setBlocks (v : Vol) (first count : Nat) (data : Buf) : Vol :=
  { v with disk := fun b =>
      if first ≤ b ∧ b < first + count then data.shift (4096 * (b - first))
      else v.disk b }

def writeBlocks (first count : Nat) (data : Buf) : M Unit := do
  let v ← get
  if count = 0 then pure ()
  else if !v.ramdisk && decide (255 < count * 8) then throw .device
  else if (List.range count).any (fun i => v.writeFails (first + i)) then throw .device
  else set (setBlocks v first count data)

def readBitmaps : M Unit := do
  let v ← get
  if v.bitmapsLoaded then pure ()
  else do
    let blocks ← query (readBlock · 2) Fail.device
    let inodes ← query (readBlock · 3) Fail.device
    set { v with blockBitmap := blocks, inodeBitmap := inodes, bitmapsLoaded := true }

def writeBlockBitmap : M Unit := do
  let v ← get
  if v.deferDepth ≠ 0 then set { v with blockBitmapDirty := true }
  else do
    writeBlock 2 v.blockBitmap
    modify fun v => { v with blockBitmapDirty := false }

def writeInodeBitmap : M Unit := do
  let v ← get
  if v.deferDepth ≠ 0 then set { v with inodeBitmapDirty := true }
  else do
    writeBlock 3 v.inodeBitmap
    modify fun v => { v with inodeBitmapDirty := false }

def bitmapWriteDeferBegin : M Unit :=
  modify fun v => { v with deferDepth := v.deferDepth + 1 }

def bitmapWriteDeferEnd : M Unit := do
  let v ← get
  if v.deferDepth = 0 then pure ()
  else do
    set { v with deferDepth := v.deferDepth - 1 }
    if v.deferDepth - 1 ≠ 0 then pure ()
    else do
      if v.blockBitmapDirty then writeBlock 2 v.blockBitmap
      modify fun v => { v with blockBitmapDirty := false }
      if v.inodeBitmapDirty then writeBlock 3 v.inodeBitmap
      modify fun v => { v with inodeBitmapDirty := false }

/-- The driver ends the deferral on every way out of the section it brackets. -/
def deferred {α : Type} (body : M α) : M α := do
  bitmapWriteDeferBegin
  let a ← tryCatch body fun e => do
    bitmapWriteDeferEnd
    throw e
  bitmapWriteDeferEnd
  pure a

def decodeInode (b : Buf) (off : Nat) : Inode where
  mode := readU16 b off
  uid := readU16 b (off + 2)
  size := readU32 b (off + 4)
  atime := readU32 b (off + 8)
  ctime := readU32 b (off + 12)
  mtime := readU32 b (off + 16)
  gid := readU16 b (off + 24)
  linksCount := readU16 b (off + 26)
  blocks512 := readU32 b (off + 28)
  block := fun i => if i < 15 then readU32 b (off + 40 + 4 * i) else 0

def encodeInode (b : Buf) (off : Nat) (nd : Inode) : Buf :=
  let b := writeU16 b off nd.mode
  let b := writeU16 b (off + 2) nd.uid
  let b := writeU32 b (off + 4) nd.size
  let b := writeU32 b (off + 8) nd.atime
  let b := writeU32 b (off + 12) nd.ctime
  let b := writeU32 b (off + 16) nd.mtime
  let b := writeU32 b (off + 20) 0
  let b := writeU16 b (off + 24) nd.gid
  let b := writeU16 b (off + 26) nd.linksCount
  let b := writeU32 b (off + 28) nd.blocks512
  let b := writeU32 b (off + 32) 0
  writeU32s b (off + 40) nd.block 15

def inodeBlock (ino : Nat) : Nat := 4 + (ino - 1) * 128 / 4096

def inodeOffset (ino : Nat) : Nat := (ino - 1) * 128 % 4096

def readInode (v : Vol) (ino : Nat) : Option Inode :=
  if ino = 0 ∨ 1024 < ino then none
  else (readBlock v (inodeBlock ino)).map (decodeInode · (inodeOffset ino))

def writeInode (ino : Nat) (nd : Inode) : M Unit :=
  if ino = 0 ∨ 1024 < ino then throw .refused
  else do
    let buf ← query (readBlock · (inodeBlock ino)) Fail.device
    writeBlock (inodeBlock ino) (encodeInode buf (inodeOffset ino) nd)

def fileType (mode : Nat) : Nat := mode &&& 0xF000

def inodeIsDir (nd : Inode) : Bool := fileType nd.mode == 0x4000

def inodeIsFile (nd : Inode) : Bool := fileType nd.mode == 0x8000

def inodeIsSymlink (nd : Inode) : Bool := fileType nd.mode == 0xA000

def inodeIsSpecial (nd : Inode) : Bool :=
  fileType nd.mode == 0x2000 || fileType nd.mode == 0x6000 ||
    fileType nd.mode == 0x1000 || fileType nd.mode == 0xC000

def dirTypeForMode (mode : Nat) : Nat :=
  if fileType mode = 0x4000 then 2
  else if fileType mode = 0x2000 then 3
  else if fileType mode = 0x6000 then 4
  else if fileType mode = 0x1000 then 5
  else if fileType mode = 0xC000 then 6
  else if fileType mode = 0xA000 then 7
  else 1

end SmallOS.Ext2
