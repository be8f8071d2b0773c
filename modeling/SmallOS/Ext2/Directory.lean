import SmallOS.Ext2.BlockTree

/-! Directory blocks. A block is read as a chain of records, each with its own
length; a record with inode 0 is free. Four loops of the driver walk such a
chain: they are instances of `scanDirents` inside a block and of `overBlocks`
across the blocks of a directory. -/

namespace SmallOS.Ext2
open Bytes Prog

abbrev Name := List UInt8

/-- `raw` is the name as a pointer into the block, so it does not end with the name. -/
structure Dirent where
  inode : Nat
  recLen : Nat
  nameLen : Nat
  fileType : Nat
  raw : Buf

def dirRecLen (nameLen : Nat) : Nat := (8 + nameLen + 3) / 4 * 4

def parseDirent (buf : Buf) (off : Nat) : Option Dirent :=
  if 4096 < off + 8 then none
  else
    let de : Dirent :=
      { inode := readU32 buf off
        recLen := readU16 buf (off + 4)
        nameLen := (buf (off + 6)).toNat
        fileType := (buf (off + 7)).toNat
        raw := buf.shift (off + 8) }
    if de.recLen < 8 ∨ 4096 < off + de.recLen ∨ de.recLen - 8 < de.nameLen then none
    else some de

def nameEquals (de : Dirent) (name : Name) : Bool :=
  de.nameLen == name.length % 256 &&
    (List.range name.length).all fun i => de.raw i == name.getD i 0

/-- Walk the records from `off` on. `visit` may stop the walk with a result and `bad` is the result
at a record that does not parse. A record is at least 8 bytes long, so 512 turns reach the end of
the block. -/
def scanDirents {β : Type} (buf : Buf) (bad : Nat → β) (visit : Nat → Dirent → Option β) :
    (fuel off : Nat) → Option β
  | 0, _ => none
  | fuel + 1, off =>
    if off < 4096 then
      match parseDirent buf off with
      | none => some (bad off)
      | some de =>
        match visit off de with
        | some r => some r
        | none => scanDirents buf bad visit fuel (off + de.recLen)
    else none

/-- Visit the mapped blocks `logical`, ..., `logical + n - 1` of a directory in order. -/
def overBlocks {β : Type} (v : Vol) (nd : Inode) (failed ended : β)
    (visit : Nat → Buf → Option β) : (n logical : Nat) → β
  | 0, _ => ended
  | n + 1, logical =>
    match inodeFindDataBlock v nd logical with
    | none => failed
    | some block =>
      if block = 0 then overBlocks v nd failed ended visit n (logical + 1)
      else match readBlock v block with
        | none => failed
        | some buf =>
          match visit block buf with
          | some r => r
          | none => overBlocks v nd failed ended visit n (logical + 1)

def dirFindInBlock (name : Name) (buf : Buf) : Option (Option (Nat × Nat)) :=
  scanDirents buf (fun _ => none)
    (fun _ de => if de.inode ≠ 0 ∧ nameEquals de name then some (some (de.inode, de.fileType))
      else none) 512 0

def dirFindEntry (v : Vol) (dir : Inode) (name : Name) : Option (Nat × Nat) :=
  if inodeIsDir dir then
    overBlocks v dir none none (fun _ buf => dirFindInBlock name buf) (inodeBlockCount dir) 0
  else none

def dirWriteEntry (buf : Buf) (off ino recLen : Nat) (name : Name) (type : Nat) : Option Buf :=
  if 255 < name.length ∨ recLen < dirRecLen name.length ∨ 4096 < off + recLen then none
  else
    let buf := writeU32 buf off ino
    let buf := writeU16 buf (off + 4) recLen
    let buf := buf.set (off + 6) (UInt8.ofNat name.length)
    let buf := buf.set (off + 7) (UInt8.ofNat type)
    some (copy buf (off + 8) name.length (ofList name))

/-- Where `dir_add_entry` puts a record: over a block or block tail that does not
parse, over a free record, or into the slack of a live one. -/
inductive DirSlot
  | whole
  | tail (off : Nat)
  | reuse (off recLen : Nat)
  | split (off recLen actual : Nat)
  | broken

def dirSlotInBlock (need : Nat) (buf : Buf) : Option DirSlot :=
  scanDirents buf
    (fun off => if off = 0 then .whole else if need ≤ 4096 - off then .tail off else .broken)
    (fun off de =>
      if de.inode = 0 ∧ need ≤ de.recLen then some (.reuse off de.recLen)
      else if de.inode ≠ 0 ∧ dirRecLen de.nameLen + need ≤ de.recLen then
        some (.split off de.recLen (dirRecLen de.nameLen))
      else none) 512 0

def dirPlace (buf : Buf) (ino : Nat) (name : Name) (type : Nat) : DirSlot → Option Buf
  | .whole => dirWriteEntry buf 0 ino 4096 name type
  | .tail off => dirWriteEntry buf off ino (4096 - off) name type
  | .reuse off recLen => dirWriteEntry buf off ino recLen name type
  | .split off recLen actual =>
    dirWriteEntry (writeU16 buf (off + 4) actual) (off + actual) ino (recLen - actual) name type
  | .broken => none

def growTo (dir : Inode) (logical : Nat) : DirSlot → Inode
  | .whole => if dir.size < (logical + 1) * 4096 then { dir with size := (logical + 1) * 4096 } else dir
  | _ => dir

def dirAddInBlocks (dirIno : Nat) (name : Name) (child type : Nat) :
    (n logical : Nat) → Inode → M (Inode × Bool)
  | 0, _, dir => pure (dir, false)
  | n + 1, logical, dir => do
    let (dir, block) ← inodeGetDataBlock dir logical
    let buf ← query (readBlock · block) Fail.device
    match dirSlotInBlock (dirRecLen name.length) buf with
    | none => dirAddInBlocks dirIno name child type n (logical + 1) dir
    | some slot => do
      let placed ← query (fun _ => dirPlace buf child name type slot) Fail.refused
      let dir := growTo dir logical slot
      writeBlock block placed
      writeInode dirIno dir
      pure (dir, true)

def dirAddEntry (dirIno : Nat) (dir : Inode) (name : Name) (child type : Nat) : M Inode := do
  let v ← get
  if !inodeIsDir dir ∨ name = [] then throw .refused
  else if (dirFindEntry v dir name).isSome then throw .refused
  else do
    let blocks := if inodeBlockCount dir = 0 then 1 else inodeBlockCount dir
    let (dir, done) ← dirAddInBlocks dirIno name child type blocks 0 dir
    if done then pure dir
    else if 12 ≤ blocks then throw .noSlot
    else do
      let (dir, block) ← inodeGetDataBlock dir blocks
      let placed ← query (fun _ => dirWriteEntry zeros 0 child 4096 name type) Fail.refused
      let dir := { dir with size := (blocks + 1) * 4096 }
      writeBlock block placed
      writeInode dirIno dir
      pure dir

def dirLocateInBlock (name : Name) (block : Nat) (buf : Buf) : Option (Option (Nat × Nat)) :=
  scanDirents buf (fun _ => none)
    (fun off de => if de.inode ≠ 0 ∧ nameEquals de name then some (some (block, off)) else none)
    512 0

def dirLocate (v : Vol) (dir : Inode) (name : Name) : Option (Nat × Nat) :=
  if inodeIsDir dir then
    overBlocks v dir none none (dirLocateInBlock name) (inodeBlockCount dir) 0
  else none

def dirRemoveEntry (dirIno : Nat) (dir : Inode) (name : Name) : M Unit := do
  let (block, off) ← query (dirLocate · dir name) Fail.refused
  let buf ← query (readBlock · block) Fail.device
  writeBlock block (writeU32 buf off 0)
  writeInode dirIno dir

def isDots (de : Dirent) : Bool :=
  (de.nameLen == 1 && de.raw 0 == 46) || (de.nameLen == 2 && de.raw 0 == 46 && de.raw 1 == 46)

def dirIsEmpty (v : Vol) (dir : Inode) : Bool :=
  overBlocks v dir false true
    (fun _ buf => scanDirents buf (fun _ => false)
      (fun _ de => if de.inode ≠ 0 ∧ !isDots de then some false else none) 512 0)
    (inodeBlockCount dir) 0

end SmallOS.Ext2
