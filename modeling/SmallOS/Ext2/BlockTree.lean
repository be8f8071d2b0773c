import SmallOS.Ext2.Alloc

/-! The block tree of an inode: twelve direct blocks, one single-indirect block at index 12 and one
double-indirect block at index 13. `inode_get_data_block_ex` is split by its constant `create`
argument: `inodeFindDataBlock` is the lookup, `inodeGetDataBlockEx` allocates. -/

namespace SmallOS.Ext2
open Bytes Prog

def Inode.setBlock (nd : Inode) (k b : Nat) : Inode :=
  { nd with block := Function.update nd.block k b }

def Inode.chargeBlocks (nd : Inode) (n : Nat) : Inode :=
  { nd with blocks512 := (nd.blocks512 + 8 * n) % 4294967296 }

def Inode.refundBlock (nd : Inode) : Inode :=
  { nd with blocks512 := if 8 ≤ nd.blocks512 then nd.blocks512 - 8 else nd.blocks512 }

def ptrBlockEntry (v : Vol) (block index : Nat) : Nat :=
  if block = 0 ∨ 1024 ≤ index then 0
  else match readBlock v block with
    | none => 0
    | some buf => readU32 buf (4 * index)

def setPtrBlockEntry (block index value : Nat) : M Unit :=
  if block = 0 ∨ 1024 ≤ index then throw .refused
  else do
    let buf ← query (readBlock · block) Fail.device
    writeBlock block (writeU32 buf (4 * index) value)

def inodeBlockCount (nd : Inode) : Nat := (nd.size + 4095) % 4294967296 / 4096

def inodeFindDataBlock (v : Vol) (nd : Inode) (logical : Nat) : Option Nat :=
  if logical < 12 then some (nd.block logical)
  else if logical - 12 < 1024 then
    if nd.block 12 = 0 then some 0
    else some (ptrBlockEntry v (nd.block 12) (logical - 12))
  else
    let outer := (logical - 12 - 1024) / 1024
    let inner := (logical - 12 - 1024) % 1024
    if 1024 ≤ outer then none
    else if nd.block 13 = 0 then some 0
    else
      let indirect := ptrBlockEntry v (nd.block 13) outer
      if indirect = 0 then some 0 else some (ptrBlockEntry v indirect inner)

def ensureRootBlock (nd : Inode) (k : Nat) : M Inode :=
  if nd.block k = 0 then do
    let b ← allocBlock
    pure ((nd.setBlock k b).chargeBlocks 1)
  else pure nd

def ensurePtrEntry (nd : Inode) (parent index : Nat) (zero : Bool) : M (Inode × Nat) := do
  let v ← get
  let block := ptrBlockEntry v parent index
  if block = 0 then do
    let b ← allocBlockWithZero zero
    setPtrBlockEntry parent index b
    pure (nd.chargeBlocks 1, b)
  else pure (nd, block)

def inodeGetDataBlockEx (nd : Inode) (logical : Nat) (zeroNewData : Bool) : M (Inode × Nat) :=
  if logical < 12 then
    if nd.block logical = 0 then do
      let b ← allocBlockWithZero zeroNewData
      pure ((nd.setBlock logical b).chargeBlocks 1, b)
    else pure (nd, nd.block logical)
  else if logical - 12 < 1024 then do
    let nd ← ensureRootBlock nd 12
    ensurePtrEntry nd (nd.block 12) (logical - 12) zeroNewData
  else if 1024 ≤ (logical - 12 - 1024) / 1024 then throw .refused
  else do
    let nd ← ensureRootBlock nd 13
    let (nd, indirect) ← ensurePtrEntry nd (nd.block 13) ((logical - 12 - 1024) / 1024) true
    ensurePtrEntry nd indirect ((logical - 12 - 1024) % 1024) zeroNewData

def inodeGetDataBlock (nd : Inode) (logical : Nat) : M (Inode × Nat) :=
  inodeGetDataBlockEx nd logical true

/-- A freshly allocated pointer block is kept as a zeroed buffer and reaches the
device only when its entries are written. -/
def loadRootBlock (nd : Inode) (k : Nat) : M (Inode × Buf) :=
  if nd.block k = 0 then do
    let b ← allocBlockUninit
    pure ((nd.setBlock k b).chargeBlocks 1, zeros)
  else do
    let buf ← query (readBlock · (nd.block k)) Fail.device
    pure (nd, buf)

def fillEntries (nd : Inode) (parent : Nat) (buf : Buf) (index blocks : Nat) :
    M (Inode × Option (Nat × Nat)) :=
  if (List.range blocks).any (fun i => readU32 buf (4 * (index + i)) != 0) then pure (nd, none)
  else do
    let first ← allocBlockRun blocks
    writeBlock parent (writeU32s buf (4 * index) (fun i => first + i) blocks)
    pure (nd.chargeBlocks blocks, some (first, blocks))

/-- `-1` is a failure, `0` is `none`, and `1` returns the first block and the count. -/
def inodePrepareFreshBlocks (nd : Inode) (logical maxBlocks : Nat) :
    M (Inode × Option (Nat × Nat)) :=
  if maxBlocks = 0 then throw .refused
  else if logical < 12 then
    let blocks := min (12 - logical) maxBlocks
    if (List.range blocks).any (fun i => nd.block (logical + i) != 0) then pure (nd, none)
    else do
      let first ← allocBlockRun blocks
      let nd := { nd with block := fun k =>
        if logical ≤ k ∧ k < logical + blocks then first + (k - logical) else nd.block k }
      pure (nd.chargeBlocks blocks, some (first, blocks))
  else if logical - 12 < 1024 then do
    let (nd, buf) ← loadRootBlock nd 12
    fillEntries nd (nd.block 12) buf (logical - 12) (min (1024 - (logical - 12)) maxBlocks)
  else
    let outer := (logical - 12 - 1024) / 1024
    let inner := (logical - 12 - 1024) % 1024
    if 1024 ≤ outer then throw .refused
    else do
      let (nd, buf) ← loadRootBlock nd 13
      let indirect := readU32 buf (4 * outer)
      if indirect = 0 then do
        let indirect ← allocBlockUninit
        let nd := nd.chargeBlocks 1
        writeBlock (nd.block 13) (writeU32 buf (4 * outer) indirect)
        fillEntries nd indirect zeros inner (min (1024 - inner) maxBlocks)
      else do
        let buf ← query (readBlock · indirect) Fail.device
        fillEntries nd indirect buf inner (min (1024 - inner) maxBlocks)

def freeEntries (buf : Buf) : M Unit :=
  steps (fun i (_ : Unit) =>
    if readU32 buf (4 * i) = 0 then pure () else freeBlock (readU32 buf (4 * i))) 1024 0 ()

def freeDirect (nd : Inode) : M Unit :=
  steps (fun i (_ : Unit) => if nd.block i = 0 then pure () else freeBlock (nd.block i)) 12 0 ()

def freeIndirect (nd : Inode) : M Unit :=
  if nd.block 12 = 0 then pure ()
  else do
    let buf ← query (readBlock · (nd.block 12)) Fail.device
    freeEntries buf
    freeBlock (nd.block 12)

def freeDoubleIndirect (nd : Inode) : M Unit :=
  if nd.block 13 = 0 then pure ()
  else do
    let buf ← query (readBlock · (nd.block 13)) Fail.device
    steps (fun i (_ : Unit) =>
      if readU32 buf (4 * i) = 0 then pure ()
      else do
        let inner ← query (readBlock · (readU32 buf (4 * i))) Fail.device
        freeEntries inner
        freeBlock (readU32 buf (4 * i))) 1024 0 ()
    freeBlock (nd.block 13)

def freeInodeBlocks (nd : Inode) : M Inode := do
  freeDirect nd
  freeIndirect nd
  freeDoubleIndirect nd
  pure { nd with
    block := fun i => if i < 15 then 0 else nd.block i
    size := 0
    blocks512 := 0 }

def freePtrEntry (nd : Inode) (parent index : Nat) : M Inode := do
  let buf ← query (readBlock · parent) Fail.device
  let block := readU32 buf (4 * index)
  if block = 0 then pure nd
  else do
    freeBlock block
    writeBlock parent (writeU32 buf (4 * index) 0)
    pure nd.refundBlock

def freeLogicalBlock (nd : Inode) (logical : Nat) : M Inode :=
  if logical < 12 then
    if nd.block logical = 0 then pure nd
    else do
      freeBlock (nd.block logical)
      pure (nd.setBlock logical 0).refundBlock
  else if logical - 12 < 1024 then
    if nd.block 12 = 0 then pure nd else freePtrEntry nd (nd.block 12) (logical - 12)
  else
    let outer := (logical - 12 - 1024) / 1024
    let inner := (logical - 12 - 1024) % 1024
    if 1024 ≤ outer ∨ nd.block 13 = 0 then pure nd
    else do
      let buf ← query (readBlock · (nd.block 13)) Fail.device
      let indirect := readU32 buf (4 * outer)
      if indirect = 0 then pure nd else freePtrEntry nd indirect inner

def ptrBlockEmpty (v : Vol) (block : Nat) : Bool :=
  if block = 0 then true
  else match readBlock v block with
    | none => false
    | some buf => (List.range 1024).all fun i => readU32 buf (4 * i) == 0

def freeEmptyRoot (nd : Inode) (k : Nat) : M Inode := do
  let v ← get
  if nd.block k ≠ 0 ∧ ptrBlockEmpty v (nd.block k) then do
    freeBlock (nd.block k)
    pure (nd.setBlock k 0).refundBlock
  else pure nd

/-- One turn of the loop over the double-indirect entries. `anyOuter` stays set
once an entry is kept. -/
def freeEmptyOuter (i : Nat) (acc : Inode × Buf × Bool) : M (Inode × Buf × Bool) := do
  let (nd, buf, anyOuter) := acc
  let v ← get
  let indirect := readU32 buf (4 * i)
  if indirect = 0 then pure (nd, buf, anyOuter)
  else if ptrBlockEmpty v indirect then do
    freeBlock indirect
    pure (nd.refundBlock, writeU32 buf (4 * i) 0, anyOuter)
  else pure (nd, buf, true)

def freeEmptyIndirectBlocks (nd : Inode) : M Inode := do
  let nd ← freeEmptyRoot nd 12
  if nd.block 13 = 0 then pure nd
  else do
    let buf ← query (readBlock · (nd.block 13)) Fail.device
    let (nd, buf, anyOuter) ← steps freeEmptyOuter 1024 0 (nd, buf, false)
    writeBlock (nd.block 13) buf
    if anyOuter then pure nd else freeEmptyRoot nd 13

end SmallOS.Ext2
