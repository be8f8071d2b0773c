import SmallOS.Ipc.PipeFifo

/-! The output of a PTY. The slave writes into a ring from which the master reads, and a newline
that no carriage return precedes becomes two bytes. -/

namespace SmallOS.Ipc

open Bytes List

inductive PtyErrno
  | again | noMem | io
  deriving DecidableEq

/-- A turn of `pty_buffer_write` with `done` bytes written before it. A `pty_buffer_t` is a ring
like that of a pipe, with `readRefs` readers. -/
def ptyBufferWrite (nonblock waits : Bool) (buf : List UInt8) :
    (fuel : Nat) → Pipe → (done : Nat) → Pipe × Nat × Option (Except PtyErrno Nat)
  | 0, p, done => (p, done, some (.ok done))
  | fuel + 1, p, done =>
    if buf.length ≤ done then (p, done, some (.ok done))
    else if p.readRefs = 0 then (p, done, some (if done ≠ 0 then .ok done else .error .io))
    else if pipeBufferSize ≤ p.count then
      if nonblock then (p, done, some (if done ≠ 0 then .ok done else .error .again))
      else if !waits then (p, done, some (if done ≠ 0 then .ok done else .error .noMem))
      else (p, done, none)
    else
      let r := putBytes p (buf.drop done)
      if nonblock then (r.1, done + r.2, some (.ok (done + r.2)))
      else ptyBufferWrite nonblock waits buf fuel r.1 (done + r.2)

structure Out where
  ring : Pipe
  prevCr : Bool

def piece (prevCr : Bool) (b : UInt8) : List UInt8 :=
  if b = 10 ∧ prevCr = false then [13, 10] else [b]

/-- A turn of `pty_buffer_write_output` with `OPOST` and `ONLCR`: `done` bytes of the buffer were
written before it, and `part` bytes of what the next one becomes. -/
def ptyBufferWriteOutput (nonblock waits : Bool) :
    List UInt8 → (done part : Nat) → Out → Out × Nat × Nat × Option (Except PtyErrno Nat)
  | [], done, _, o => (o, done, 0, some (.ok done))
  | b :: rest, done, part, o =>
    let bytes := piece o.prevCr b
    let w := ptyBufferWrite nonblock waits bytes (bytes.length - part) o.ring part
    match w.2.2 with
    | none => ({ o with ring := w.1 }, done, w.2.1, none)
    | some (.error e) =>
      ({ o with ring := w.1 }, done, 0, some (if done ≠ 0 then .ok done else .error e))
    | some (.ok 0) => ({ o with ring := w.1 }, done, 0, some (.ok done))
    | some (.ok _) =>
      if nonblock then (⟨w.1, b == 13⟩, done + 1, 0, some (.ok (done + 1)))
      else ptyBufferWriteOutput nonblock waits rest (done + 1) 0 ⟨w.1, b == 13⟩

/-- The translation of a stream; `prevCr` says that a carriage return precedes it. -/
def translate (prevCr : Bool) : List UInt8 → List UInt8
  | [] => []
  | b :: rest => piece prevCr b ++ translate (b == 13) rest

def endsCr (prevCr : Bool) (bytes : List UInt8) : Bool := bytes.foldl (fun _ b => b == 13) prevCr

structure OutCall where
  buf : List UInt8
  done : Nat
  part : Nat

/-- The output of a PTY and the write under way, what the master has read and what the writes
have reported as written. -/
structure OutState where
  out : Out
  call : Option OutCall
  read : List UInt8
  reported : List UInt8

def OutState.turn (s : OutState) (nonblock waits : Bool) (c : OutCall) : OutState :=
  let w := ptyBufferWriteOutput nonblock waits (c.buf.drop c.done) c.done c.part s.out
  match w.2.2.2 with
  | none => { s with out := w.1, call := some ⟨c.buf, w.2.1, w.2.2.1⟩ }
  | some (.ok n) => { s with out := w.1, call := none, reported := s.reported ++ c.buf.take n }
  | some (.error _) => { s with out := w.1, call := none }

inductive OutAct
  | write (buf : List UInt8) (nonblock waits : Bool)
  | wake (waits : Bool)
  | read (len : Nat) (nonblock waits : Bool)

/-- The slave's writes come one after the other. A turn of `pty_buffer_read` is one of a pipe. -/
def OutState.step (s : OutState) : OutAct → OutState
  | .write buf nonblock waits =>
    match s.call with
    | none => s.turn nonblock waits ⟨buf, 0, 0⟩
    | some _ => s
  | .wake waits =>
    match s.call with
    | none => s
    | some c => s.turn false waits c
  | .read len nonblock waits =>
    let r := readTurn s.out.ring nonblock len waits
    { s with out := { s.out with ring := r.1 }, read := s.read ++ bytesOf r.2 }

/-- A non-blocking write does not start with a newline that needs two bytes where one is free, and
a blocking one finds a wait node. -/
def OutState.Orderly (s : OutState) : OutAct → Prop
  | .write buf true _ =>
    s.out.ring.count + 1 = pipeBufferSize → buf.head? = some 10 → s.out.prevCr = true
  | .write _ false waits | .wake waits => waits = true
  | .read .. => True

def newOut (masters slaves : Nat) : OutState :=
  ⟨⟨⟨zeros, 0, 0, 0, masters, slaves⟩, false⟩, none, [], []⟩

inductive OutState.Run (masters slaves : Nat) : OutState → Prop
  | start : Run masters slaves (newOut masters slaves)
  | step {s : OutState} {a : OutAct} :
    Run masters slaves s → s.Orderly a → Run masters slaves (s.step a)

variable {nonblock waits : Bool} {buf rest base got : List UInt8} {done part now n : Nat} {p q : Pipe}
  {r : Option (Except PtyErrno Nat)} {o : Out} {s : OutState}

structure Queued (p q : Pipe) (buf : List UInt8) (done now : Nat)
    (r : Option (Except PtyErrno Nat)) : Prop where
  ring : Becomes p q (p.contents ++ (buf.drop done).take (now - done))
  le : done ≤ now
  ok : ∀ n, r = some (.ok n) → n = now
  error : ∀ e, r = some (.error e) → now = 0

theorem Pipe.Sound.queued_none (h : p.Sound) (ok : ∀ n, r = some (.ok n) → n = done)
    (error : ∀ e, r = some (.error e) → done = 0) : Queued p p buf done done r :=
  ⟨by simpa using h.refl, le_rfl, ok, error⟩

theorem Becomes.queued {mid : Pipe} (put : Becomes p mid (p.contents ++ (buf.drop done).take n))
    (later : Queued mid q buf (done + n) now r) : Queued p q buf done now r := by
  have le := later.le
  refine ⟨⟨later.ring.sound, ?_, later.ring.readRefs.trans put.readRefs,
    later.ring.writeRefs.trans put.writeRefs⟩, by omega, later.ok, later.error⟩
  rw [later.ring.contents, put.contents, append_assoc, ← drop_drop,
    show now - done = n + (now - (done + n)) by omega, take_add]

theorem ptyBufferWrite_queued (nonblock waits : Bool) (buf : List UInt8) (done fuel : Nat)
    (h : p.Sound) : Queued p (ptyBufferWrite nonblock waits buf fuel p done).1 buf done
      (ptyBufferWrite nonblock waits buf fuel p done).2.1
      (ptyBufferWrite nonblock waits buf fuel p done).2.2 := by
  induction fuel generalizing p done with
  | zero => exact h.queued_none (by simp [ptyBufferWrite]) (by simp [ptyBufferWrite])
  | succ fuel ih =>
    unfold ptyBufferWrite
    extract_lets r
    split_ifs with full closed tight once node once
    · exact h.queued_none (by simp) (by simp)
    all_goals first | exact h.queued_none (by simp_all) (by simp_all) | skip
    all_goals
      obtain ⟨put, -⟩ := putBytes_spec h (buf.drop done)
      change Becomes p r.1 (p.contents ++ (buf.drop done).take r.2) at put
    · exact put.queued (put.sound.queued_none (by simp) (by simp))
    · exact put.queued (ih _ put.sound)

theorem ptyBufferWrite_whole {fuel : Nat} (h : p.Sound) (opened : p.readRefs ≠ 0)
    (enough : buf.length ≤ done + fuel) (fine : if nonblock then
      buf.length + p.count ≤ done + pipeBufferSize ∨ (done = 0 ∧ pipeBufferSize ≤ p.count)
      else waits = true) (ok : (ptyBufferWrite nonblock waits buf fuel p done).2.2 = some (.ok n)) :
    buf.length ≤ n := by
  induction fuel generalizing p done with
  | zero =>
    obtain rfl : done = n := by simpa [ptyBufferWrite] using ok
    exact enough
  | succ fuel ih =>
    unfold ptyBufferWrite at ok
    extract_lets r at ok
    by_cases full : buf.length ≤ done
    · rw [if_pos full] at ok
      obtain rfl : done = n := by simpa using ok
      exact full
    rw [if_neg full, if_neg opened] at ok
    obtain ⟨put, count⟩ := putBytes_spec h (buf.drop done)
    change r.2 = _ at count
    rw [length_drop] at count
    cases nonblock with
    | true =>
      by_cases tight : pipeBufferSize ≤ p.count
      · have zero : done = 0 := (fine.resolve_left (by omega)).1
        simp [tight, zero] at ok
      · obtain rfl : done + r.2 = n := by simpa [tight] using ok
        have room := fine.resolve_right fun both => tight both.2
        omega
    | false =>
      by_cases tight : pipeBufferSize ≤ p.count
      · simp [tight, show waits = true from fine] at ok
      · rw [if_neg tight] at ok
        exact ih put.sound (put.readRefs.trans_ne opened) (by omega) fine ok

theorem translate_append (cr : Bool) (l m : List UInt8) :
    translate cr (l ++ m) = translate cr l ++ translate (endsCr cr l) m := by
  induction l generalizing cr with
  | nil => rfl
  | cons b l ih => simp [translate, ih, endsCr]

def started (cr : Bool) (rest : List UInt8) (part : Nat) : List UInt8 :=
  match rest with
  | [] => []
  | b :: _ => (piece cr b).take part

theorem started_zero (cr : Bool) (rest : List UInt8) : started cr rest 0 = [] := by
  cases rest <;> rfl

theorem started_begins (cr : Bool) (rest : List UInt8) (part : Nat) :
    started cr rest part <+: translate cr rest := by
  cases rest with
  | nil => exact nil_prefix
  | cons b rest => exact (List.take_prefix _ _).trans (prefix_append _ _)

/-- What a turn of a write has done to the output. What was read, `got`, and the ring held `base`
and the start of the next byte. -/
structure Sent (got base rest : List UInt8) (done : Nat) (o o' : Out) (k part : Nat)
    (r : Option (Except PtyErrno Nat)) : Prop where
  ring : o'.ring.Sound
  opened : o'.ring.readRefs ≠ 0
  cr : o'.prevCr = endsCr o.prevCr (rest.take k)
  contents : got ++ o'.ring.contents =
    base ++ translate o.prevCr (rest.take k) ++ started o'.prevCr (rest.drop k) part
  ended : r.isSome → part = 0
  ok : ∀ n, r = some (.ok n) → n = done + k
  error : ∀ e, r = some (.error e) → done + k = 0

/-- A non-blocking write finds room for the first byte or for nothing, a blocking one a node. -/
def Fine (nonblock waits : Bool) (rest : List UInt8) (part : Nat) (o : Out) : Prop :=
  if nonblock then part = 0 ∧
    (o.ring.count + 1 = pipeBufferSize → rest.head? = some 10 → o.prevCr = true)
  else waits = true

theorem piece_length (cr : Bool) (b : UInt8) :
    (piece cr b).length = if b = 10 ∧ cr = false then 2 else 1 := by
  unfold piece
  split_ifs <;> rfl

theorem exists_piece (cr : Bool) (b : UInt8) : ∃ x l, piece cr b = x :: l := by
  unfold piece
  split_ifs <;> exact ⟨_, _, rfl⟩

theorem pieceWrite {b : UInt8} (h : o.ring.Sound) (opened : o.ring.readRefs ≠ 0)
    (fine : Fine nonblock waits (b :: rest) part o)
    (queue : got ++ o.ring.contents = base ++ (piece o.prevCr b).take part)
    {w : Pipe × Nat × Option (Except PtyErrno Nat)}
    (run : ptyBufferWrite nonblock waits (piece o.prevCr b) ((piece o.prevCr b).length - part)
      o.ring part = w) : w.1.Sound ∧ w.1.readRefs ≠ 0 ∧
      got ++ w.1.contents = base ++ (piece o.prevCr b).take w.2.1 ∧
      (∀ e, w.2.2 = some (.error e) → w.2.1 = 0) ∧
      ∀ n, w.2.2 = some (.ok n) → n ≠ 0 ∧ got ++ w.1.contents = base ++ piece o.prevCr b := by
  have size := piece_length o.prevCr b
  have queued := ptyBufferWrite_queued nonblock waits (piece o.prevCr b) part
    ((piece o.prevCr b).length - part) h
  rw [run] at queued
  have contents : got ++ w.1.contents = base ++ (piece o.prevCr b).take w.2.1 := by
    have le := queued.le
    rw [queued.ring.contents, ← append_assoc, queue, append_assoc, ← take_add]
    congr 3
    omega
  refine ⟨queued.ring.sound, queued.ring.readRefs.trans_ne opened, contents, queued.error,
    fun n ok => ?_⟩
  have whole : (piece o.prevCr b).length ≤ n := by
    refine ptyBufferWrite_whole h opened (by omega) ?_ ((congrArg (·.2.2) run).trans ok)
    cases nonblock with
    | false => exact fine
    | true =>
      obtain ⟨rfl, newline⟩ := fine
      by_cases one : o.ring.count + 1 = pipeBufferSize
      · have single : (piece o.prevCr b).length = 1 := by
          rw [size, if_neg]
          rintro ⟨rfl, cr⟩
          cases cr.symm.trans (newline one rfl)
        exact .inl (by omega)
      · by_cases full : pipeBufferSize ≤ o.ring.count
        · exact .inr ⟨rfl, full⟩
        · have short : (piece o.prevCr b).length ≤ 2 := by split_ifs at size <;> omega
          exact .inl (by omega)
  have some_ : 1 ≤ (piece o.prevCr b).length := by split_ifs at size <;> omega
  refine ⟨by omega, ?_⟩
  rw [contents, ← queued.ok n ok, take_of_length_le whole]

theorem ptyBufferWriteOutput_sent (done : Nat) (h : o.ring.Sound) (opened : o.ring.readRefs ≠ 0)
    (fine : Fine nonblock waits rest part o)
    (queue : got ++ o.ring.contents = base ++ started o.prevCr rest part) :
    ∃ k, (ptyBufferWriteOutput nonblock waits rest done part o).2.1 = done + k ∧
      Sent got base rest done o (ptyBufferWriteOutput nonblock waits rest done part o).1 k
        (ptyBufferWriteOutput nonblock waits rest done part o).2.2.1
        (ptyBufferWriteOutput nonblock waits rest done part o).2.2.2 := by
  induction rest generalizing done part base o with
  | nil =>
    refine ⟨0, rfl, h, opened, rfl, ?_, fun _ => rfl, ?_, ?_⟩
    · simpa [started, translate, ptyBufferWriteOutput] using queue
    · simp [ptyBufferWriteOutput]
    · simp [ptyBufferWriteOutput]
  | cons b rest ih =>
    rw [ptyBufferWriteOutput]
    generalize run : ptyBufferWrite nonblock waits (piece o.prevCr b)
      ((piece o.prevCr b).length - part) o.ring part = w
    obtain ⟨ring, refs, contents, none_, whole⟩ := pieceWrite h opened fine queue run
    obtain ⟨p, now, answer⟩ := w
    match answer with
    | none =>
      exact ⟨0, rfl, ring, refs, rfl, by simpa [translate, started] using contents, nofun, nofun,
        nofun⟩
    | some (.error e) =>
      obtain rfl : now = 0 := none_ e rfl
      refine ⟨0, rfl, ring, refs, rfl, ?_, fun _ => rfl, fun n ok => ?_, fun e' bad => ?_⟩
      · simpa [translate, started] using contents
      · by_cases zero : done = 0 <;> simp [zero] at ok
        exact ok.symm
      · by_cases zero : done = 0
        · exact zero
        · simp [zero] at bad
    | some (.ok 0) => exact absurd rfl (whole 0 rfl).1
    | some (.ok (n + 1)) =>
      have all := (whole (n + 1) rfl).2
      cases nonblock with
      | true =>
        refine ⟨1, rfl, ring, refs, rfl, ?_, fun _ => rfl, by simp, by simp⟩
        simpa [translate, started_zero] using all
      | false =>
        obtain ⟨k, count, sent⟩ := @ih (base ++ piece o.prevCr b) 0 ⟨p, b == 13⟩ (done + 1)
          ring refs fine (by simpa [started_zero] using all)
        refine ⟨k + 1, count.trans (by omega), sent.ring, sent.opened, sent.cr, ?_, sent.ended,
          fun n ok => (sent.ok n ok).trans (by omega), fun e bad => ?_⟩
        · simpa [translate] using sent.contents
        · have := sent.error e bad
          omega

structure OutState.Writes (s : OutState) (c : OutCall) : Prop where
  ring : s.out.ring.Sound
  opened : s.out.ring.readRefs ≠ 0
  cr : s.out.prevCr = endsCr false (s.reported ++ c.buf.take c.done)
  queue : s.read ++ s.out.ring.contents = translate false (s.reported ++ c.buf.take c.done) ++
    started s.out.prevCr (c.buf.drop c.done) c.part

def OutState.Sound (s : OutState) : Prop := s.Writes (s.call.getD ⟨[], 0, 0⟩)

theorem OutState.Writes.fresh (h : s.Writes ⟨[], 0, 0⟩) (buf : List UInt8) : s.Writes ⟨buf, 0, 0⟩ :=
  ⟨h.ring, h.opened, h.cr, by simpa [started_zero] using h.queue⟩

theorem endsCr_append (cr : Bool) (l m : List UInt8) :
    endsCr cr (l ++ m) = endsCr (endsCr cr l) m :=
  foldl_append

theorem OutState.Writes.turn {c : OutCall} (h : s.Writes c)
    (fine : Fine nonblock waits (c.buf.drop c.done) c.part s.out) :
    (s.turn nonblock waits c).Sound := by
  obtain ⟨k, count, sent⟩ := ptyBufferWriteOutput_sent c.done h.ring h.opened fine h.queue
  have took : s.reported ++ c.buf.take (c.done + k) =
      s.reported ++ c.buf.take c.done ++ (c.buf.drop c.done).take k := by
    rw [append_assoc, take_add]
  have cr := sent.cr.trans (by rw [h.cr, ← endsCr_append, ← took])
  have queue := sent.contents
  rw [h.cr, ← translate_append, ← took, drop_drop] at queue
  unfold OutState.turn
  generalize ptyBufferWriteOutput nonblock waits (c.buf.drop c.done) c.done c.part s.out = w
    at count sent cr queue
  obtain ⟨o, _, part, answer⟩ := w
  obtain rfl := count
  match answer with
  | none => exact ⟨sent.ring, sent.opened, cr, queue⟩
  | some (.ok n) =>
    obtain rfl := sent.ok n rfl
    obtain rfl : part = 0 := sent.ended rfl
    rw [started_zero, append_nil] at queue
    exact ⟨sent.ring, sent.opened, by simpa using cr, by simpa [started] using queue⟩
  | some (.error e) =>
    have none_ := sent.error e rfl
    obtain rfl : part = 0 := sent.ended rfl
    rw [none_] at cr
    rw [none_, started_zero, append_nil] at queue
    exact ⟨sent.ring, sent.opened, by simpa using cr, by simpa [started] using queue⟩

theorem OutState.Sound.step (h : s.Sound) {a : OutAct} (ok : s.Orderly a) : (s.step a).Sound := by
  cases a with
  | write buf nonblock waits =>
    rw [OutState.step]
    split
    · next idle =>
      have under : s.Writes ⟨[], 0, 0⟩ := by simpa [OutState.Sound, idle] using h
      refine (under.fresh buf).turn ?_
      cases nonblock with
      | true => exact ⟨rfl, ok⟩
      | false => exact ok
    · exact h
  | wake waits =>
    rw [OutState.step]
    split
    · exact h
    · next c sleeping =>
      have under : s.Writes c := by simpa [OutState.Sound, sleeping] using h
      exact under.turn ok
  | read len nonblock waits =>
    rw [OutState.step]
    obtain ⟨rest, left, front⟩ := readTurn_split h.ring nonblock len waits
    refine ⟨left.sound, left.readRefs.trans_ne h.opened, h.cr, ?_⟩
    rw [append_assoc, left.contents, front]
    exact h.queue

theorem OutState.Run.sound {masters slaves : Nat} (opened : masters ≠ 0)
    (run : Run masters slaves s) : s.Sound := by
  induction run with
  | start =>
    have ring : Pipe.Sound ⟨zeros, 0, 0, 0, masters, slaves⟩ := ⟨size_pos, Nat.zero_le _, rfl⟩
    exact ⟨ring, opened, rfl, rfl⟩
  | step _ ok ih => exact ih.step ok

theorem output_translated {masters slaves : Nat} (opened : masters ≠ 0)
    (run : OutState.Run masters slaves s) :
    (s.call = none → s.read ++ s.out.ring.contents = translate false s.reported) ∧
    s.read <+: translate false (s.reported ++ (s.call.map OutCall.buf).getD []) := by
  have h := run.sound opened
  refine ⟨fun idle => ?_, ?_⟩
  · have queue := h.queue
    simpa [idle, started] using queue
  · have all : (s.call.getD ⟨[], 0, 0⟩).buf = (s.call.map OutCall.buf).getD [] := by
      cases s.call <;> rfl
    rw [← all, ← take_append_drop (s.call.getD ⟨[], 0, 0⟩).done
      (s.call.getD ⟨[], 0, 0⟩).buf, ← append_assoc, translate_append, ← h.cr]
    refine (prefix_append s.read s.out.ring.contents).trans ?_
    rw [h.queue]
    exact prefix_append_right_inj _ |>.mpr (started_begins ..)

theorem output_translated_line :
    let s := (newOut 1 1).step (.write [97, 10] false true)
    s.call = none ∧ s.read ++ s.out.ring.contents = translate false s.reported := by
  intro s
  have idle : s.call = none := by decide
  have run : OutState.Run 1 1 s := .step .start (show true = true from rfl)
  exact ⟨idle, (output_translated (by decide) run).1 idle⟩

theorem write_one (opened : o.ring.readRefs ≠ 0) (room : o.ring.count < pipeBufferSize)
    (b : UInt8) : ptyBufferWriteOutput true true [b] 0 0 o =
      (⟨(putBytes o.ring (piece o.prevCr b)).1, b == 13⟩, 1, 0, some (.ok 1)) := by
  obtain ⟨x, l, bytes⟩ := exists_piece o.prevCr b
  simp [ptyBufferWriteOutput, ptyBufferWrite, bytes, putBytes, room, opened, not_le.mpr room]

theorem step_one (idle : s.call = none) (opened : s.out.ring.readRefs ≠ 0)
    (room : s.out.ring.count < pipeBufferSize) (b : UInt8) :
    s.step (.write [b] true true) = { s with
      out := ⟨(putBytes s.out.ring (piece s.out.prevCr b)).1, b == 13⟩
      reported := s.reported ++ [b] } := by
  simp [OutState.step, OutState.turn, idle, write_one opened room]

theorem exists_filled {n : Nat} (lt : n < pipeBufferSize) :
    ∃ s, OutState.Run 1 1 s ∧ s.call = none ∧ s.out.ring.count = n ∧ s.out.prevCr = false := by
  induction n with
  | zero => exact ⟨_, .start, rfl, rfl, rfl⟩
  | succ n ih =>
    obtain ⟨s, run, idle, count, cr⟩ := ih (by omega)
    have room : s.out.ring.count < pipeBufferSize := by omega
    refine ⟨_, .step (a := .write [97] true true) run fun _ => by simp, ?_⟩
    rw [step_one idle (run.sound (by decide)).opened room]
    refine ⟨idle, ?_, rfl⟩
    simp [cr, piece, putBytes, count, Nat.lt_of_succ_lt lt]

theorem output_loses_newline :
    ∃ s, OutState.Run 1 1 s ∧ (s.step (.write [10] true true)).call = none ∧
      (s.step (.write [10] true true)).read ++ (s.step (.write [10] true true)).out.ring.contents ≠
        translate false (s.step (.write [10] true true)).reported := by
  obtain ⟨s, run, idle, count, cr⟩ := exists_filled (n := 4095) (by decide)
  have h := run.sound (by decide)
  have room : s.out.ring.count < pipeBufferSize := by rw [count]; decide
  have before : s.read ++ s.out.ring.contents = translate false s.reported := by
    simpa [idle, started] using h.queue
  have ends : endsCr false s.reported = false := by simpa [idle, cr] using h.cr.symm
  have put : (putBytes s.out.ring [13, 10]).2 = 1 := by
    rw [(putBytes_spec h.ring _).2, count]
    decide
  have after := (putBytes_spec h.ring [13, 10]).1.contents
  rw [put] at after
  refine ⟨s, run, ?_⟩
  rw [step_one idle h.opened room]
  refine ⟨idle, fun eq => ?_⟩
  have := congrArg List.length eq
  simp [cr, piece, translate_append, ends, translate, ← before, after] at this

end SmallOS.Ipc
