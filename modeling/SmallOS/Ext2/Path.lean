import SmallOS.Ext2.File
import Mathlib.Data.List.DropRight

/-! Paths and their resolution. A path is a C string, so a list of bytes; the
buffers of the resolver hold 255 of them. -/

namespace SmallOS.Ext2
open Bytes Prog

abbrev Path := List UInt8

def isSep (c : UInt8) : Bool := c == 47 || c == 92

inductive NextComponent
  | bad
  | done
  | component (name rest : Path) (isLast : Bool)

def pathNextComponent (path : Path) : NextComponent :=
  let p := path.dropWhile isSep
  if p = [] then .done
  else
    let name := p.takeWhile (fun c => !isSep c)
    if 256 ≤ name.length then .bad
    else
      let rest := (p.dropWhile (fun c => !isSep c)).dropWhile isSep
      .component name rest rest.isEmpty

def pathAppendPart (out part : Path) : Option Path :=
  if part = [] then some out
  else
    let sep := match out.getLast? with
      | none => false
      | some c => !isSep c
    if sep && decide (256 ≤ out.length + 1) then none
    else
      let out := if sep then out ++ [47] else out
      if 256 ≤ out.length + part.length then none else some (out ++ part)

def pathParentPop (path : Path) : Path :=
  ((path.rdropWhile isSep).rdropWhile (fun c => !isSep c)).rdropWhile isSep

def pathDirJoin (dir name tail : Path) : Option Path := do
  let out ←
    if name.head? = some 47 then pathAppendPart [] name
    else do
      let out ← if dir = [] then some [] else pathAppendPart [] dir
      pathAppendPart out name
  if tail = [] then some out else pathAppendPart out tail

def cString (bytes : List UInt8) : Path := bytes.takeWhile (· != 0)

structure Resolved where
  parentIno : Nat
  ino : Nat
  inode : Inode

def dotName : Name := [46]

def dotDotName : Name := [46, 46]

/-- The loop of `resolve_path_ex`, standing in the directory `curIno`; `dirPath` is the text that
led there. A symbolic link hands the rewritten path to `redirect`. -/
def walk (v : Vol) (followFinal : Bool) (redirect : Path → Option Resolved) :
    (fuel : Nat) → (cursor dirPath : Path) → (curIno : Nat) → (cur : Inode) → Option Resolved
  | 0, _, _, _, _ => none
  | fuel + 1, cursor, dirPath, curIno, cur =>
    match pathNextComponent cursor with
    | .bad => none
    | .done => some ⟨0, curIno, cur⟩
    | .component name rest isLast =>
      if name = dotName then
        if isLast then some ⟨0, curIno, cur⟩
        else walk v followFinal redirect fuel rest dirPath curIno cur
      else
        match dirFindEntry v cur name with
        | none => none
        | some (nextIno, _) =>
          match readInode v nextIno with
          | none => none
          | some next =>
            if inodeIsSymlink next ∧ (!isLast ∨ followFinal) then
              match readSymlinkInode v next 256 with
              | none => none
              | some target =>
                match pathDirJoin dirPath (cString target) rest with
                | none => none
                | some redirected => redirect redirected
            else if isLast then some ⟨curIno, nextIno, next⟩
            else if !inodeIsDir next then none
            else if name = dotDotName then
              walk v followFinal redirect fuel rest (pathParentPop dirPath) nextIno next
            else
              match pathAppendPart dirPath name with
              | none => none
              | some dirPath => walk v followFinal redirect fuel rest dirPath nextIno next

/-- `levels` is 9 at depth 0: a path may be rewritten eight times. Every turn of the
loop uses up a byte of the path. -/
def resolvePathEx (v : Vol) (followFinal : Bool) : (levels : Nat) → Path → Option Resolved
  | 0, _ => none
  | levels + 1, path =>
    match readInode v 2 with
    | none => none
    | some root =>
      if path = [] ∨ path = [47] then some ⟨0, 2, root⟩
      else walk v followFinal (resolvePathEx v followFinal levels) (path.length + 1) path [] 2 root

def resolvePath (v : Vol) (path : Path) : Option Resolved := resolvePathEx v true 9 path

/-- The fields of `ext2_stat_info_t` that the kernel reads. -/
structure StatInfo where
  ino : Nat
  mode : Nat
  uid : Nat
  gid : Nat
  size : Nat
  mtime : Nat
  ctime : Nat
  isDir : Bool

def statInfoFromResolved (r : Resolved) : Option StatInfo :=
  if !inodeIsFile r.inode && !inodeIsDir r.inode && !inodeIsSymlink r.inode &&
      !inodeIsSpecial r.inode then none
  else some ⟨r.ino, r.inode.mode, r.inode.uid, r.inode.gid, r.inode.size, r.inode.mtime,
    r.inode.ctime, inodeIsDir r.inode⟩

def ext2StatInfo (v : Vol) (path : Path) : Option StatInfo :=
  if !v.initialised then none
  else (resolvePath v (if path.isEmpty then [47] else path)).bind statInfoFromResolved

structure CreatePath where
  parentIno : Nat
  parent : Inode
  leaf : Name

def createLeaf (path : Path) : Name :=
  (path.rdropWhile isSep).rtakeWhile (fun c => !isSep c)

def createParent (path : Path) : Path :=
  ((path.rdropWhile isSep).rdropWhile (fun c => !isSep c)).rdropWhile isSep

def resolveCreatePath (v : Vol) (path : Path) : Option CreatePath :=
  let leaf := createLeaf path
  if leaf = [] ∨ 256 ≤ leaf.length ∨ leaf = dotName ∨ leaf = dotDotName then none
  else if 256 ≤ (createParent path).length then none
  else match resolvePath v (createParent path) with
    | none => none
    | some parent => if inodeIsDir parent.inode then some ⟨parent.ino, parent.inode, leaf⟩ else none

end SmallOS.Ext2
