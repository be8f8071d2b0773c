import SmallOS.Ext2.Volume

/-! Block and inode allocation over the cached bitmaps. The block search starts
at the hint left by the last allocation or free and wraps round once. -/

namespace SmallOS.Ext2
open Bytes Prog

def firstClear (bits : Buf) : (n start : Nat) → Option Nat
  | 0, _ => none
  | n + 1, start => if bitTest bits start then firstClear bits n (start + 1) else some start

def findFreeBlock (bits : Buf) (hint : Nat) : Option Nat :=
  match firstClear bits (8192 - hint) hint with
  | some b => some b
  | none => firstClear bits (hint - 36) 36

def resetHint (v : Vol) : Vol :=
  if v.nextAllocBlock < 36 ∨ 8192 ≤ v.nextAllocBlock then { v with nextAllocBlock := 36 } else v

def advanceHint (next : Nat) (v : Vol) : Vol :=
  { v with nextAllocBlock := if 8192 ≤ next then 36 else next }

def allocBlockWithZero (zero : Bool) : M Nat := do
  readBitmaps
  modify resetHint
  let v ← get
  match findFreeBlock v.blockBitmap v.nextAllocBlock with
  | none => throw .noBlock
  | some block => do
    set { v with blockBitmap := bitSet v.blockBitmap block }
    writeBlockBitmap
    if zero then writeBlock block zeros
    modify (advanceHint (block + 1))
    pure block

def allocBlock : M Nat := allocBlockWithZero true

def allocBlockUninit : M Nat := allocBlockWithZero false

def allocInode : M Nat := do
  readBitmaps
  let v ← get
  match firstClear v.inodeBitmap 1014 10 with
  | none => throw .noInode
  | some i => do
    set { v with inodeBitmap := bitSet v.inodeBitmap i }
    writeInodeBitmap
    pure (i + 1)

def freeBlock (block : Nat) : M Unit :=
  if block = 0 ∨ 8192 ≤ block then pure ()
  else do
    readBitmaps
    modify fun v => { v with
      blockBitmap := bitClear v.blockBitmap block
      nextAllocBlock := if block < v.nextAllocBlock then block else v.nextAllocBlock }
    writeBlockBitmap

def freeInode (ino : Nat) : M Unit :=
  if ino = 0 ∨ 1024 < ino then pure ()
  else do
    readBitmaps
    modify fun v => { v with inodeBitmap := bitClear v.inodeBitmap (ino - 1) }
    writeInodeBitmap

/-- Scan `n` blocks from `block` on for `count` clear bits in a row; `runFirst` and
`runCount` describe the run that ends just before `block`. -/
def findRun (bits : Buf) (count : Nat) : (n block runFirst runCount : Nat) → Option Nat
  | 0, _, _, _ => none
  | n + 1, block, runFirst, runCount =>
    if bitTest bits block then findRun bits count n (block + 1) runFirst 0
    else
      let first := if runCount = 0 then block else runFirst
      if runCount + 1 = count then some first
      else findRun bits count n (block + 1) first (runCount + 1)

def findFreeRun (bits : Buf) (count hint : Nat) : Option Nat :=
  match findRun bits count (8192 - hint) hint 0 0 with
  | some b => some b
  | none => findRun bits count (hint - 36) 36 0 0

def allocBlockRun (count : Nat) : M Nat :=
  if count = 0 then throw .refused
  else do
    readBitmaps
    modify resetHint
    let v ← get
    match findFreeRun v.blockBitmap count v.nextAllocBlock with
    | none => throw .noBlock
    | some first => do
      set { v with blockBitmap := bitSetRun v.blockBitmap first count }
      writeBlockBitmap
      modify (advanceHint (first + count))
      pure first

end SmallOS.Ext2
