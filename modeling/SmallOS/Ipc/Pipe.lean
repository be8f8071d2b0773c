import SmallOS.Lib.Bytes
import SmallOS.Lib.Ring

/-! Pipes: one ring of a page, the descriptors of its two ends, and the read and write calls under
way. System calls give the processor away only where they sleep, so a call is a sequence of atomic
turns, and the turns of all calls interleave in any order. -/

namespace SmallOS.Ipc
open Bytes

def pipeBufferSize : Nat := 4096

def sysPipeBuf : Nat := 4096

inductive Errno
  | badf | fault | again | pipe | noMem
deriving DecidableEq, Repr

structure Pipe where
  data : Buf
  readPos : Nat
  writePos : Nat
  count : Nat
  readRefs : Nat
  writeRefs : Nat

/-- A descriptor of the pipe; closing it clears the entry. The frames of the pipe are there as
long as a valid entry is, so the `-EIO` of a missing frame does not arise. -/
structure Handle where
  valid : Bool
  readable : Bool
  writable : Bool
  nonblock : Bool
deriving DecidableEq

def newPipe : Pipe := ⟨zeros, 0, 0, 0, 1, 1⟩

def newEnds (nonblock : Bool) : List Handle :=
  [⟨true, true, false, nonblock⟩, ⟨true, false, true, nonblock⟩]

def takeBytes (p : Pipe) : Nat → Pipe × List UInt8
  | 0 => (p, [])
  | n + 1 =>
    if p.count = 0 then (p, [])
    else
      let r := takeBytes
        { p with readPos := (p.readPos + 1) % pipeBufferSize, count := p.count - 1 } n
      (r.1, p.data p.readPos :: r.2)

def putBytes (p : Pipe) : List UInt8 → Pipe × Nat
  | [] => (p, 0)
  | x :: rest =>
    if p.count < pipeBufferSize then
      let r := putBytes { p with
        data := p.data.set p.writePos x
        writePos := (p.writePos + 1) % pipeBufferSize
        count := p.count + 1 } rest
      (r.1, r.2 + 1)
    else (p, 0)

def readChecks (ent : Handle) (buf : Bool) (len : Nat) : Option (Except Errno (List UInt8)) :=
  if !ent.valid || !ent.readable then some (.error .badf)
  else if !buf then some (.error .fault)
  else if len = 0 then some (.ok [])
  else none

/-- A turn of `process_handle_pipe_read`, from its wait loop on; no answer means that the call
sleeps. `waits` says that `wait_queue_add` has a node left for the process. -/
def readTurn (p : Pipe) (nonblock : Bool) (len : Nat) (waits : Bool) :
    Pipe × Option (Except Errno (List UInt8)) :=
  if p.count = 0 ∧ p.writeRefs ≠ 0 then
    if nonblock then (p, some (.error .again))
    else if !waits then (p, some (.error .noMem))
    else (p, none)
  else
    let r := takeBytes p len
    (r.1, some (.ok r.2))

def writeChecks (ent : Handle) (buf : Option (List UInt8)) : Option (Except Errno Nat) :=
  if !ent.valid || !ent.writable then some (.error .badf)
  else match buf with
    | none => some (.error .fault)
    | some bytes => if bytes.isEmpty then some (.ok 0) else none

/-- A turn of `process_handle_pipe_write` with `done` bytes written before it; each round of its
outer loop writes a byte or ends the turn. -/
def writeTurn (nonblock : Bool) (waits : Bool) (buf : List UInt8) :
    (fuel : Nat) → Pipe → (done : Nat) → Pipe × Nat × Option (Except Errno Nat)
  | 0, p, done => (p, done, some (.ok done))
  | fuel + 1, p, done =>
    let needed := if buf.length ≤ sysPipeBuf then buf.length else 1
    if buf.length ≤ done then (p, done, some (.ok done))
    else if p.readRefs = 0 then
      (p, done, some (if done ≠ 0 then .ok done else .error .pipe))
    else if pipeBufferSize - p.count < needed then
      if nonblock then (p, done, some (if done ≠ 0 then .ok done else .error .again))
      else if !waits then (p, done, some (if done ≠ 0 then .ok done else .error .noMem))
      else (p, done, none)
    else
      let r := putBytes p (buf.drop done)
      if nonblock then (r.1, done + r.2, some (.ok (done + r.2)))
      else writeTurn nonblock waits buf fuel r.1 (done + r.2)

def Pipe.ref (p : Pipe) (ent : Handle) : Pipe := { p with
  readRefs := p.readRefs + ent.readable.toNat
  writeRefs := p.writeRefs + ent.writable.toNat }

def Pipe.unref (p : Pipe) (ent : Handle) : Pipe := { p with
  readRefs := p.readRefs - ent.readable.toNat
  writeRefs := p.writeRefs - ent.writable.toNat }

def cleared : Handle := ⟨false, false, false, false⟩

structure ReadCall where
  fd : Nat
  len : Nat
  answer : Option (Except Errno (List UInt8))

structure WriteCall where
  fd : Nat
  buf : List UInt8
  done : Nat
  answer : Option (Except Errno Nat)

structure Chunk where
  call : Nat
  bytes : List UInt8

/-- The pipe, its descriptors and all calls so far. What was accepted, in order, and what was
returned is kept beside them. -/
structure State where
  pipe : Pipe
  ends : List Handle
  reads : List ReadCall
  writes : List WriteCall
  chunks : List Chunk
  returned : List UInt8

def State.accepted (s : State) : List UInt8 := s.chunks.flatMap Chunk.bytes

def State.pieces (s : State) (k : Nat) : List (List UInt8) :=
  (s.chunks.filter fun c => c.call == k).map Chunk.bytes

def addChunk (chunks : List Chunk) (k : Nat) (put : List UInt8) : List Chunk :=
  if put = [] then chunks else chunks ++ [⟨k, put⟩]

inductive Event
  | read (fd : Nat) (buf : Bool) (len : Nat) (waits : Bool)
  | write (fd : Nat) (buf : Option (List UInt8)) (waits : Bool)
  | wakeReader (call : Nat) (waits : Bool)
  | wakeWriter (call : Nat) (waits : Bool)
  | dup (fd : Nat)
  | setNonblock (fd : Nat) (nonblock : Bool)
  | close (fd : Nat)

inductive Answer
  | read (call len : Nat) (r : Except Errno (List UInt8))
  | write (call : Nat) (r : Except Errno Nat)

def bytesOf : Option (Except Errno (List UInt8)) → List UInt8
  | some (.ok bytes) => bytes
  | _ => []

/-- A turn of read call `k`. Who closes the descriptor of a call that sleeps has killed its
process, and the call never runs again. -/
def State.readOn (s : State) (k : Nat) (waits : Bool) : State × Option Answer :=
  match s.reads[k]? with
  | none => (s, none)
  | some c =>
    match s.ends[c.fd]? with
    | none => (s, none)
    | some ent =>
      if c.answer.isSome || !ent.valid then (s, none)
      else
        let r := readTurn s.pipe ent.nonblock c.len waits
        ({ s with
            pipe := r.1
            reads := s.reads.set k { c with answer := r.2 }
            returned := s.returned ++ bytesOf r.2 },
          r.2.map (.read k c.len))

def State.writeOn (s : State) (k : Nat) (waits : Bool) : State × Option Answer :=
  match s.writes[k]? with
  | none => (s, none)
  | some c =>
    match s.ends[c.fd]? with
    | none => (s, none)
    | some ent =>
      if c.answer.isSome || !ent.valid then (s, none)
      else
        let w := writeTurn ent.nonblock waits c.buf (c.buf.length - c.done) s.pipe c.done
        ({ s with
            pipe := w.1
            writes := s.writes.set k { c with done := w.2.1, answer := w.2.2 }
            chunks := addChunk s.chunks k ((c.buf.drop c.done).take (w.2.1 - c.done)) },
          w.2.2.map (.write k))

def step (s : State) : Event → State × Option Answer
  | .read fd buf len waits =>
    match s.ends[fd]? with
    | none => (s, none)
    | some ent =>
      let r := readChecks ent buf len
      let t := { s with reads := s.reads ++ [⟨fd, len, r⟩] }
      match r with
      | some r => (t, some (.read s.reads.length len r))
      | none => t.readOn s.reads.length waits
  | .write fd buf waits =>
    match s.ends[fd]? with
    | none => (s, none)
    | some ent =>
      let r := writeChecks ent buf
      let t := { s with writes := s.writes ++ [⟨fd, buf.getD [], 0, r⟩] }
      match r with
      | some r => (t, some (.write s.writes.length r))
      | none => t.writeOn s.writes.length waits
  | .wakeReader k waits => s.readOn k waits
  | .wakeWriter k waits => s.writeOn k waits
  | .dup fd =>
    match s.ends[fd]? with
    | none => (s, none)
    | some ent =>
      if ent.valid then ({ s with pipe := s.pipe.ref ent, ends := s.ends ++ [ent] }, none)
      else (s, none)
  | .setNonblock fd nonblock =>
    match s.ends[fd]? with
    | none => (s, none)
    | some ent =>
      if ent.valid then
        ({ s with ends := s.ends.set fd { ent with nonblock := nonblock } }, none)
      else (s, none)
  | .close fd =>
    match s.ends[fd]? with
    | none => (s, none)
    | some ent =>
      if ent.valid then
        ({ s with pipe := s.pipe.unref ent, ends := s.ends.set fd cleared }, none)
      else (s, none)

def start (nonblock : Bool) : State := ⟨newPipe, newEnds nonblock, [], [], [], []⟩

def run (nonblock : Bool) (events : List Event) : State :=
  events.foldl (fun s e => (step s e).1) (start nonblock)

end SmallOS.Ipc
