import SmallOS.Lib.Bytes
import SmallOS.Lib.Prog
import SmallOS.Lib.Ranges

/-! The area list of a process: which parts of user memory it may use, how, and which file they come
from. `kcalloc` may fail to enlarge it, so an operation can stop between its steps. -/

namespace SmallOS.Vm
open Bytes Prog Ranges

def pageSize : Nat := 4096
def userCodeBase : Nat := 0x400000
def userMmapBase : Nat := 0x04000000
def userInterpBase : Nat := 0x08000000
def userHeapBase : Nat := 0x10000000
def userStackTop : Nat := 0xC0000000
def userStackSize : Nat := 64 * pageSize
def areaInitial : Nat := 32
def areaMax : Nat := 512
def fdNameMax : Nat := 128

abbrev Path := List UInt8

abbrev Prot := BitVec 32

def protRead : Prot := 1
def protWrite : Prot := 2
def protExec : Prot := 4
def protAll : Prot := protRead ||| protWrite ||| protExec

def Prot.within (prot maxProt : Prot) : Prop := prot &&& ~~~maxProt = 0

instance (prot maxProt : Prot) : Decidable (Prot.within prot maxProt) :=
  inferInstanceAs (Decidable (_ = _))

def Prot.writable (prot : Prot) : Bool := prot &&& protWrite != 0

inductive Kind
  | anon | heap | stack | filePrivate | elf
  deriving DecidableEq

def Kind.backed : Kind → Bool
  | .filePrivate | .elf => true
  | _ => false

/-- `process_vm_area_t`; `stop` is its `end`. -/
structure Area where
  start : Nat
  stop : Nat
  prot : Prot
  maxProt : Prot
  kind : Kind
  flags : BitVec 32
  fileStart : Nat
  fileEnd : Nat
  fileOffset : Nat
  fileSize : Nat
  path : Path
  deriving DecidableEq

instance : Ranged Area := ⟨Area.start, Area.stop⟩

@[simp] theorem Area.lo_eq (a : Area) : lo a = a.start := rfl
@[simp] theorem Area.hi_eq (a : Area) : hi a = a.stop := rfl

/-- A present page. `shared` says that its frame has a reference count above one. -/
structure Page where
  write : Bool
  cow : Bool
  sharedRo : Bool
  shared : Bool
  bytes : Buf

structure AreaArray where
  capacity : Nat
  areas : List Area

/-- The memory of a process: its area array once `kcalloc` has given one, the present
pages by address, and the answer to the `n`-th allocation. -/
structure Space where
  array : Option AreaArray
  pages : Nat → Option Page
  alloc : Nat → Bool
  allocs : Nat

def Space.areas (s : Space) : List Area :=
  match s.array with
  | none => []
  | some array => array.areas

def Space.capacity (s : Space) : Nat := (s.array.map AreaArray.capacity).getD 0

def Space.setAreas (s : Space) (areas : List Area) : Space :=
  { s with array := s.array.map ({ · with areas := areas }) }

abbrev M := EStateM Unit Space

def allocate : M Unit := fun s =>
  let s' := { s with allocs := s.allocs + 1 }
  if s.alloc s.allocs then .ok () s' else .error () s'

def wrap (n : Nat) : Nat := n % 2 ^ 32

def Area.nextOffset (a : Area) : Nat :=
  wrap (a.fileOffset + wrap (a.fileEnd + 2 ^ 32 - a.fileStart))

def processVmCompatible (a b : Area) : Bool :=
  a.stop == b.start && a.prot == b.prot && a.maxProt == b.maxProt && a.kind == b.kind &&
    a.flags == b.flags && a.fileSize == b.fileSize && a.path == b.path &&
    (!a.kind.backed || a.fileEnd == b.fileStart && a.nextOffset == b.fileOffset)

def Area.extend (a b : Area) : Area := { a with stop := b.stop, fileEnd := b.fileEnd }

/-- `process_vm_merge` from the area `cur` on: a merged area is compared again with
the one after it. -/
def mergeFrom (cur : Area) : List Area → List Area
  | [] => [cur]
  | next :: rest =>
    if processVmCompatible cur next then mergeFrom (cur.extend next) rest
    else cur :: mergeFrom next rest

def processVmMerge : List Area → List Area
  | [] => []
  | a :: rest => mergeFrom a rest

def processVmInit : M Unit := do
  if (← get).array.isNone then
    allocate
    modify ({ · with array := some ⟨areaInitial, []⟩ })

def processVmClear : M Unit :=
  tryCatch (do processVmInit; modify (·.setAreas [])) fun _ => pure ()

def growCapacity (needed : Nat) : (rounds capacity : Nat) → Nat
  | 0, capacity => capacity
  | n + 1, capacity =>
    if capacity < needed then
      if areaMax < capacity * 2 then areaMax else growCapacity needed n (capacity * 2)
    else capacity

def newCapacity (needed capacity : Nat) : Nat :=
  growCapacity needed needed (if capacity = 0 then areaInitial else capacity)

def processVmEnsureCapacity (needed : Nat) : M Unit := do
  processVmInit
  match (← get).array with
  | none => throw ()
  | some array =>
    if needed ≤ array.capacity then pure ()
    else if areaMax < needed then throw ()
    else if newCapacity needed array.capacity < needed then throw ()
    else
      allocate
      modify ({ · with array := some ⟨newCapacity needed array.capacity, array.areas⟩ })

def processVmClone (src : Space) : M Unit := do
  processVmInit
  processVmEnsureCapacity (match src.array with | none => 0 | some array => array.capacity)
  modify (·.setAreas src.areas)

def processVmInsertArea (area : Area) (merge : Bool) : M Unit := do
  if area.stop ≤ area.start then throw ()
  else
    processVmEnsureCapacity ((← get).areas.length + 1)
    let s ← get
    let before := s.areas.takeWhile (·.start < area.start)
    let after := s.areas.dropWhile (·.start < area.start)
    if before.getLast?.any (fun b => area.start < b.stop) then throw ()
    else if after.head?.any (fun b => b.start < area.stop) then throw ()
    else
      let areas := before ++ area :: after
      set (s.setAreas (if merge then processVmMerge areas else areas))

def processVmRangeFree (areas : List Area) (start stop : Nat) : Bool :=
  decide (start < stop) && areas.all fun a => !decide (start < a.stop ∧ a.start < stop)

def processVmAdd (area : Area) : M Unit := do
  if area.start % pageSize ≠ 0 ∨ area.stop % pageSize ≠ 0 then throw ()
  else if area.start < userCodeBase ∨ userStackTop < area.stop ∨ area.stop ≤ area.start then
    throw ()
  else if ¬Prot.within area.prot area.maxProt then throw ()
  else if ¬Prot.within area.maxProt protAll then throw ()
  else if !processVmRangeFree (← get).areas area.start area.stop then throw ()
  else processVmInsertArea { area with path := area.path.take (fdNameMax - 1) } true

def Area.leftOf (a : Area) (addr : Nat) : Area :=
  { a with
    stop := addr
    fileEnd := if a.kind.backed ∧ addr < a.fileEnd then addr else a.fileEnd }

def Area.rightOf (a : Area) (addr : Nat) : Area :=
  if a.kind.backed then
    if a.fileStart < addr ∧ addr < a.fileEnd then
      { a with
        start := addr
        fileOffset := wrap (a.fileOffset + (addr - a.start))
        fileStart := addr }
    else if a.fileEnd ≤ addr then { a with start := addr, fileStart := addr, fileEnd := addr }
    else { a with start := addr }
  else { a with start := addr }

/-- The parts of the area over `addr`. When the array has `moved` since the pointer to the area was
taken, the end of the left part is written into the old array and the new one keeps it. -/
def splitAreas (addr : Nat) (moved : Bool) : List Area → List Area
  | [] => []
  | a :: rest =>
    if Covers a addr then (if moved then a else a.leftOf addr) :: a.rightOf addr :: rest
    else a :: splitAreas addr moved rest

def processVmSplitAt (addr : Nat) : M Unit := do
  let s ← get
  if s.array.isNone then throw ()
  else if addr % pageSize ≠ 0 then throw ()
  else match find s.areas addr with
    | none => pure ()
    | some a =>
      if addr = a.start ∨ addr = a.stop then pure ()
      else
        processVmEnsureCapacity (s.areas.length + 1)
        -- `kfree` leaves what the old array holds, so the right part is read as it was
        modify fun s' => s'.setAreas (splitAreas addr (s.capacity ≤ s.areas.length) s'.areas)

def processVmSplitNeeded (s : Space) (addr : Nat) : Bool :=
  if s.array.isNone ∨ addr % pageSize ≠ 0 then false
  else match find s.areas addr with
    | none => false
    | some a => addr != a.start && addr != a.stop

def Area.inside (start stop : Nat) (a : Area) : Bool := decide (start ≤ a.start ∧ a.stop ≤ stop)

def Area.outside (start stop : Nat) (a : Area) : Prop := a.stop ≤ start ∨ stop ≤ a.start

instance (start stop : Nat) (a : Area) : Decidable (a.outside start stop) :=
  inferInstanceAs (Decidable (_ ∨ _))

def unmapPages (pages : Nat → Option Page) (start stop : Nat) : Nat → Option Page := fun p =>
  if start ≤ p ∧ p < stop then none else pages p

def processVmRemoveRange (start stop : Nat) : M Unit := do
  if stop ≤ start then throw ()
  else if start % pageSize ≠ 0 ∨ stop % pageSize ≠ 0 then throw ()
  else if (← get).array.isNone then pure ()
  else
    processVmSplitAt start
    processVmSplitAt stop
    modify fun s =>
      { s.setAreas (processVmMerge (s.areas.filter fun a => !a.inside start stop)) with
        pages := unmapPages s.pages start stop }

/-- `process_vm_range_covered` from `pos` on. Each round passes an area, so `rounds` is
the number of areas and one more. -/
def coveredFrom (areas : List Area) (stop : Nat) : (rounds pos : Nat) → Bool
  | 0, _ => false
  | n + 1, pos =>
    if pos < stop then
      match find areas pos with
      | none => false
      | some a => coveredFrom areas stop n a.stop
    else true

def processVmRangeCovered (s : Space) (start stop : Nat) : Bool :=
  s.array.isSome && decide (start < stop) &&
    coveredFrom s.areas stop (s.areas.length + 1) start

def Page.protect (prot : Prot) (p : Page) : Page :=
  if prot.writable then
    if p.cow || p.sharedRo then p else { p with write := true }
  else { p with write := false }

def protectPages (areas : List Area) (start stop : Nat) (prot : Prot)
    (pages : Nat → Option Page) : Nat → Option Page := fun p =>
  if areas.any (fun a => !decide (a.outside start stop) && decide (Covers a p)) then
    (pages p).map (Page.protect prot)
  else pages p

def protectAreas (start stop : Nat) (prot : Prot) (areas : List Area) : List Area :=
  areas.map fun a => if a.outside start stop then a else { a with prot := prot }

def processVmProtect (start stop : Nat) (prot : Prot) : M Unit := do
  if stop ≤ start then throw ()
  else if start % pageSize ≠ 0 ∨ stop % pageSize ≠ 0 then throw ()
  else if ¬Prot.within prot protAll then throw ()
  else if !processVmRangeCovered (← get) start stop then throw ()
  else if (← get).areas.any (fun a =>
      !decide (a.outside start stop) && !decide (Prot.within prot a.maxProt)) then throw ()
  else
    processVmSplitAt start
    processVmSplitAt stop
    modify fun s =>
      { s.setAreas (processVmMerge (protectAreas start stop prot s.areas)) with
        pages := protectPages s.areas start stop prot s.pages }

inductive Errno
  | einval | enomem

def withErrno {α : Type} (e : Errno) (x : M α) : EStateM Errno Space α := fun s =>
  match x s with
  | .ok a s' => .ok a s'
  | .error _ s' => .error e s'

def Space.slotsFor (s : Space) (start stop : Nat) : Nat :=
  s.areas.length + (if processVmSplitNeeded s start then 1 else 0) +
    (if processVmSplitNeeded s stop then 1 else 0)

def processVmRemoveRangeErrno (start stop : Nat) : EStateM Errno Space Unit := do
  let s ← get
  if stop ≤ start then throw .einval
  else if start % pageSize ≠ 0 ∨ stop % pageSize ≠ 0 then throw .einval
  else if s.array.isNone then pure ()
  else
    withErrno .enomem (processVmEnsureCapacity (s.slotsFor start stop))
    withErrno .einval (processVmRemoveRange start stop)

def processVmProtectErrno (start stop : Nat) (prot : Prot) : EStateM Errno Space Unit := do
  let s ← get
  if stop ≤ start then throw .einval
  else if start % pageSize ≠ 0 ∨ stop % pageSize ≠ 0 then throw .einval
  else if ¬Prot.within prot protAll then throw .einval
  else if !processVmRangeCovered s start stop then throw .einval
  else
    withErrno .enomem (processVmEnsureCapacity (s.slotsFor start stop))
    withErrno .einval (processVmProtect start stop prot)

def pageAlign (n : Nat) : Nat := wrap (n + (pageSize - 1)) / pageSize * pageSize

def userVmRangeOk (start length : Nat) : Bool :=
  let stop := wrap (start + pageAlign length)
  decide (length ≠ 0 ∧ start % pageSize = 0 ∧ start ≤ stop ∧ userCodeBase ≤ start ∧
    stop ≤ userStackTop)

def sysMunmapImpl (addr length : Nat) : EStateM Errno Space Unit :=
  if length = 0 then throw .einval
  else if !userVmRangeOk addr (pageAlign length) then throw .einval
  else processVmRemoveRangeErrno addr (wrap (addr + pageAlign length))

def sysMprotectImpl (addr length : Nat) (prot : Prot) : EStateM Errno Space Unit :=
  if length = 0 then throw .einval
  else if !userVmRangeOk addr (pageAlign length) then throw .einval
  else if ¬Prot.within prot protAll then throw .einval
  else processVmProtectErrno addr (wrap (addr + pageAlign length)) prot

def heapArea (start stop : Nat) : Area where
  start := start
  stop := stop
  prot := protRead ||| protWrite
  maxProt := protAll
  kind := .heap
  flags := 0
  fileStart := 0
  fileEnd := 0
  fileOffset := 0
  fileSize := 0
  path := []

end SmallOS.Vm
