import SmallOS.Mem.Frames
import SmallOS.Lib.Prog

/-! The descriptor table of a process and the calls that make a pair of descriptors. The table
lies in frames of its own and moves to larger ones when it is full. A pointer to an entry is
a frame and a slot, and keeps its frame when the table moves. -/

namespace SmallOS.Fd
open Prog Function

def pageSize : Nat := 4096
def fdFirst : Nat := 3
def fdLimitHard : Nat := 256

def entryBytes : Nat := 208

inductive Kind
  | none | file | socket | console | epoll | timerfd | signalfd | pipe | ptyMaster | ptySlave
  | virtual
  deriving DecidableEq

/-- `fd_entry_t`; the handlers follow from the kind, and zero is an entry of no kind. -/
structure Entry where
  valid : Bool
  kind : Kind
  readable : Bool
  writable : Bool
  flags : BitVec 32
  fdFlags : BitVec 32
  socket : Nat
  auxFrame : Nat
  timerDeadline : BitVec 32
  timerInterval : BitVec 32
  name : List UInt8
  size : Nat
  offset : Nat
  deriving DecidableEq

def Entry.zero : Entry := ⟨false, .none, false, false, 0, 0, 0, 0, 0, 0, [], 0, 0⟩

/-- The part of a pipe or a PTY that its making fixes: the frames of its data and the number of
descriptors of each end. -/
structure Object where
  dataFrames : List Nat
  firstRefs : Nat
  secondRefs : Nat

structure State where
  pmm : Mem.State
  /-- The tables in memory, by the frame they begin in. -/
  tables : Nat → Nat → Entry
  objects : Nat → Option Object
  tableFrame : Nat
  tableFrames : Nat
  capacity : Nat
  limit : Nat

def State.ent (s : State) (fd : Nat) : Entry := s.tables s.tableFrame fd

structure Ptr where
  frame : Nat
  slot : Nat

/-- `hung` is no error of the source: it stands for a loop that has not ended. -/
inductive Errno
  | einval | enomem | enfile | hung
  deriving DecidableEq

abbrev M := EStateM Errno State

def store (p : Ptr) (e : Entry) : M Unit := modify fun s => { s with
  tables := update s.tables p.frame (update (s.tables p.frame) p.slot e) }

def pmmAllocFrame : M Nat := fun s =>
  let (frame, pmm) := Mem.pmmAllocFrame s.pmm
  if frame = 0 then .error .enomem { s with pmm := pmm } else .ok frame { s with pmm := pmm }

def pmmFreeFrame (frame : Nat) : M Unit := modify fun s =>
  { s with pmm := Mem.pmmReleaseFrame s.pmm frame }

def frameCount (capacity : Nat) : Nat := (capacity * entryBytes + (pageSize - 1)) / pageSize

def processFdTableAlloc (capacity : Nat) : M Nat := fun s =>
  if capacity = 0 ∨ fdLimitHard < capacity then .error .einval s
  else
    let (frame, pmm) := Mem.pmmAllocContiguousFrames s.pmm (frameCount capacity)
    if frame = 0 then .error .enomem { s with pmm := pmm }
    else .ok frame { s with
      pmm := pmm
      tables := update s.tables frame fun _ => Entry.zero }

def newCapacity (capacity limit minCapacity : Nat) : Nat :=
  min (if capacity * 2 < minCapacity then minCapacity else capacity * 2) limit

def State.moveTable (s : State) (frame capacity : Nat) : State := { s with
  tables := update s.tables frame fun fd =>
    if fd < s.capacity then s.ent fd else s.tables frame fd
  tableFrame := frame
  tableFrames := frameCount capacity
  capacity := capacity
  pmm := Mem.pmmFreeContiguousFrames s.pmm s.tableFrame s.tableFrames }

def processFdTableGrow (minCapacity : Nat) : M Unit := do
  let s ← get
  if minCapacity ≤ s.capacity then pure ()
  else if s.limit ≤ s.capacity then throw .enfile
  else if s.limit < minCapacity then throw .enfile
  else
    let capacity := newCapacity s.capacity s.limit minCapacity
    let frame ← processFdTableAlloc capacity
    modify (·.moveTable frame capacity)

def firstFree (s : State) : Option Nat :=
  (List.range' fdFirst (s.capacity - fdFirst)).find? fun fd => !(s.ent fd).valid

def allocEntry : (rounds : Nat) → M Nat
  | 0 => throw .hung
  | n + 1 => do
    let s ← get
    match firstFree s with
    | some fd => pure fd
    | none =>
      if s.limit ≤ s.capacity then throw .enfile
      else
        processFdTableGrow (s.capacity + 1)
        allocEntry n

def processFdAllocEntry : M Ptr := do
  if (← get).capacity ≤ fdFirst then throw .einval
  else
    let fd ← allocEntry ((← get).limit + 1)
    pure ⟨(← get).tableFrame, fd⟩

/-! Pipes and PTYs. The two calls differ in the number of frames and in the entries. -/

def freeFrames : List Nat → M Unit
  | [] => pure ()
  | frame :: rest => do
    freeFrames rest
    pmmFreeFrame frame

def allocFrames : Nat → M (List Nat)
  | 0 => pure []
  | n + 1 => do
    let frames ← allocFrames n
    let frame ← tryCatch pmmAllocFrame fun e => do
      freeFrames frames
      throw e
    pure (frames ++ [frame])

def finishPair (frames : List Nat) (ends : Entry × Entry) (first : Ptr) : M (Nat × Nat) := do
  let second ← tryCatch processFdAllocEntry fun e => do
    store first Entry.zero
    freeFrames frames
    throw e
  store first ends.1
  store second ends.2
  pure (first.slot, second.slot)

def makePair (count : Nat) (ends : Nat → Entry × Entry) : M (Nat × Nat) := do
  let frames ← allocFrames count
  let frame := frames.headD 0
  modify fun s => { s with objects := update s.objects frame (some ⟨frames.tail, 1, 1⟩) }
  let first ← tryCatch processFdAllocEntry fun e => do
    freeFrames frames
    throw e
  store first { (← get).tables first.frame first.slot with valid := true }
  finishPair frames (ends frame) first

def flagNonblock : BitVec 32 := 0x800
def flagCloexec : BitVec 32 := 0x80000

def pipeEnds (flags : BitVec 32) (frame : Nat) : Entry × Entry :=
  ({ Entry.zero with
      valid := true, kind := .pipe, readable := true, writable := false
      flags := flags &&& flagNonblock, fdFlags := flags &&& flagCloexec
      auxFrame := frame, name := "pipe:r".toUTF8.toList },
   { Entry.zero with
      valid := true, kind := .pipe, readable := false, writable := true
      flags := flags &&& flagNonblock, fdFlags := flags &&& flagCloexec
      auxFrame := frame, name := "pipe:w".toUTF8.toList })

def ptyEnds (flags : BitVec 32) (frame : Nat) : Entry × Entry :=
  ({ Entry.zero with
      valid := true, kind := .ptyMaster, readable := true, writable := true
      flags := flags &&& flagNonblock, fdFlags := flags &&& flagCloexec
      auxFrame := frame, name := "pty:master".toUTF8.toList },
   { Entry.zero with
      valid := true, kind := .ptySlave, readable := true, writable := true
      auxFrame := frame, name := "pty:slave".toUTF8.toList })

def makePairFlags (count : Nat) (ends : BitVec 32 → Nat → Entry × Entry) (flags : BitVec 32) :
    M (Nat × Nat) :=
  if flags &&& ~~~(flagNonblock ||| flagCloexec) ≠ 0 then throw .einval
  else makePair count (ends flags)

def processFdPipe (flags : BitVec 32) : M (Nat × Nat) := makePairFlags 2 pipeEnds flags

def processFdPty (flags : BitVec 32) : M (Nat × Nat) := makePairFlags 3 ptyEnds flags

end SmallOS.Fd
