import SmallOS.Ipc.Pipe

/-! A pipe is a queue: what reads return is the front of what writes put in, whatever the
interleaving, and a write of at most `SYS_PIPE_BUF` bytes goes in as one piece. -/

namespace SmallOS.Ipc

open Bytes List Option Nat

variable {waits : Bool} {e : Event} {ent : Handle} {buf : List UInt8} {done fd j len n now : Nat}
  {r : Option (Except Errno Nat)} {p q : Pipe} {s t : State} {k : Nat}

structure Pipe.Sound (p : Pipe) : Prop where
  readPos : p.readPos < pipeBufferSize
  count : p.count ≤ pipeBufferSize
  writePos : p.writePos = (p.readPos + p.count) % pipeBufferSize

def Pipe.contents (p : Pipe) : List UInt8 :=
  Ring.items pipeBufferSize p.data p.readPos p.count

@[simp] theorem Pipe.length_contents (p : Pipe) : p.contents.length = p.count := by
  simp [Pipe.contents]

theorem size_pos : 0 < pipeBufferSize := by decide

structure Becomes (p q : Pipe) (new : List UInt8) : Prop where
  sound : q.Sound
  contents : q.contents = new
  readRefs : q.readRefs = p.readRefs
  writeRefs : q.writeRefs = p.writeRefs

section

variable (h : p.Sound)
include h

theorem Pipe.Sound.refl : Becomes p p p.contents := ⟨h, rfl, rfl, rfl⟩

theorem Pipe.Sound.take_one (some : p.count ≠ 0) :
    Becomes p { p with readPos := (p.readPos + 1) % pipeBufferSize, count := p.count - 1 }
      p.contents.tail := by
  refine ⟨⟨mod_lt _ size_pos, (sub_le _ _).trans h.count, ?_⟩, ?_, rfl, rfl⟩
  · simp only [mod_add_mod]
    rw [h.writePos]
    congr 1
    omega
  · rw [← drop_one]
    simp only [Pipe.contents, Ring.items_mod]
    exact (Ring.items_drop (by omega)).symm

theorem Pipe.Sound.head (some : p.count ≠ 0) :
    p.contents = p.data p.readPos :: p.contents.tail := by
  have hcount : p.count = 1 + (p.count - 1) := by omega
  have hcontents : p.contents = p.data p.readPos ::
      Ring.items pipeBufferSize p.data (p.readPos + 1) (p.count - 1) := by
    rw [Pipe.contents, hcount, Ring.items_add, Ring.items_one, mod_eq_of_lt h.readPos]
    simp
  rw [hcontents, tail_cons]

theorem takeBytes_spec (n : Nat) :
    Becomes p (takeBytes p n).1 (p.contents.drop n) ∧ (takeBytes p n).2 = p.contents.take n := by
  induction n generalizing p with
  | zero => exact ⟨h.refl, rfl⟩
  | succ n ih =>
    unfold takeBytes
    by_cases empty : p.count = 0
    · have hnil : p.contents = [] :=
        eq_nil_of_length_eq_zero (p.length_contents.trans empty)
      rw [if_pos empty, hnil]
      exact ⟨by simpa [hnil] using h.refl, rfl⟩
    · rw [if_neg empty, h.head empty]
      have one := h.take_one empty
      obtain ⟨rest, bytes⟩ := ih one.sound
      rw [one.contents] at rest bytes
      exact ⟨⟨rest.sound, rest.contents, rest.readRefs, rest.writeRefs⟩, by simp [bytes]⟩

theorem Pipe.Sound.put_one (room : p.count < pipeBufferSize) (x : UInt8) : Becomes p { p with
      data := p.data.set p.writePos x
      writePos := (p.writePos + 1) % pipeBufferSize
      count := p.count + 1 } (p.contents ++ [x]) := by
  refine ⟨⟨h.readPos, room, ?_⟩, ?_, rfl, rfl⟩
  · simp only [h.writePos, mod_add_mod, Nat.add_assoc]
  · have stored : Ring.Stored pipeBufferSize p.data.get _ (p.readPos + p.count) [x] := .one _ x
    rw [← h.writePos] at stored
    exact stored.queue room

theorem putBytes_spec (bytes : List UInt8) :
    Becomes p (putBytes p bytes).1 (p.contents ++ bytes.take (putBytes p bytes).2) ∧
      (putBytes p bytes).2 = min bytes.length (pipeBufferSize - p.count) := by
  induction bytes generalizing p with
  | nil => exact ⟨by simpa [putBytes] using h.refl, by simp [putBytes]⟩
  | cons x rest ih =>
    unfold putBytes
    by_cases room : p.count < pipeBufferSize
    · rw [if_pos room]
      have one := h.put_one room x
      obtain ⟨more, count⟩ := ih one.sound
      rw [one.contents] at more
      refine ⟨⟨more.sound, ?_, more.readRefs, more.writeRefs⟩, ?_⟩
      · simpa using more.contents
      · simp only [length_cons, count]
        omega
    · rw [if_neg room]
      refine ⟨by simpa using h.refl, ?_⟩
      omega

theorem readTurn_cases (nonblock : Bool) (len : Nat) (waits : Bool) :
    ((readTurn p nonblock len waits).1 = p ∧
      ∀ bytes, (readTurn p nonblock len waits).2 ≠ some (.ok bytes)) ∨
    ((readTurn p nonblock len waits).2 = some (.ok (p.contents.take len)) ∧
      Becomes p (readTurn p nonblock len waits).1 (p.contents.drop len) ∧
      (p.count ≠ 0 ∨ p.writeRefs = 0)) := by
  unfold readTurn
  by_cases sleeps : p.count = 0 ∧ p.writeRefs ≠ 0
  · left
    rw [if_pos sleeps]
    split_ifs <;> exact ⟨rfl, by simp⟩
  · right
    rw [if_neg sleeps]
    obtain ⟨rest, bytes⟩ := takeBytes_spec h len
    exact ⟨by simp [bytes], rest, by tauto⟩

theorem readTurn_split (nonblock : Bool) (len : Nat) (waits : Bool) :
    ∃ rest, Becomes p (readTurn p nonblock len waits).1 rest ∧
      bytesOf (readTurn p nonblock len waits).2 ++ rest = p.contents := by
  obtain ⟨same, none⟩ | ⟨bytes, rest, -⟩ := readTurn_cases h nonblock len waits
  · refine ⟨p.contents, same.symm ▸ h.refl, ?_⟩
    unfold bytesOf
    split
    · next bytes eq => exact absurd eq (none bytes)
    · rfl
  · exact ⟨_, rest, by rw [bytes, bytesOf, take_append_drop]⟩

end

/-- What a turn of a write leaves: `done` bytes were written before it, `now` after it. -/
structure Wrote (p q : Pipe) (buf : List UInt8) (done now : Nat) (r : Option (Except Errno Nat)) :
    Prop where
  ring : Becomes p q (p.contents ++ (buf.drop done).take (now - done))
  le : done ≤ now
  all : now ≤ buf.length
  ok : ∀ n, r = some (.ok n) → n = now
  epipe : r = some (.error .pipe) → p.readRefs = 0
  whole : buf.length ≤ sysPipeBuf → done = 0 → now = 0 ∨ now = buf.length

theorem Pipe.Sound.wrote_none (h : p.Sound)
    (all : done ≤ buf.length) (ok : ∀ n, r = some (.ok n) → n = done)
    (epipe : r = some (.error .pipe) → p.readRefs = 0) : Wrote p p buf done done r :=
  ⟨by simpa using h.refl, le_rfl, all, ok, epipe, fun _ zero => .inl zero⟩

theorem stopped_ok {e : Errno}
    (h : some (if done ≠ 0 then Except.ok done else .error e) = some (.ok n)) : n = done := by
  by_cases hdone : done ≠ 0
  · rw [if_pos hdone] at h
    simpa using h.symm
  · rw [if_neg hdone] at h
    simp at h

theorem Becomes.wrote {mid : Pipe} (put : Becomes p mid (p.contents ++ (buf.drop done).take n))
    (atomic : buf.length ≤ sysPipeBuf → done = 0 → done + n = buf.length)
    (rest : Wrote mid q buf (done + n) now r) : Wrote p q buf done now r := by
  have le := rest.le
  have all := rest.all
  refine ⟨⟨rest.ring.sound, ?_, rest.ring.readRefs.trans put.readRefs,
    rest.ring.writeRefs.trans put.writeRefs⟩, by omega, all, rest.ok,
    fun e => put.readRefs.symm.trans (rest.epipe e), fun small zero => .inr ?_⟩
  · rw [rest.ring.contents, put.contents, append_assoc, ← drop_drop,
      show now - done = n + (now - (done + n)) by omega, take_add]
  · have := atomic small zero
    omega

theorem writeTurn_wrote (nonblock waits : Bool) (buf : List UInt8) (fuel : Nat)
    (h : p.Sound) (all : done ≤ buf.length) (enough : buf.length ≤ done + fuel) :
    Wrote p (writeTurn nonblock waits buf fuel p done).1 buf done
      (writeTurn nonblock waits buf fuel p done).2.1
      (writeTurn nonblock waits buf fuel p done).2.2 := by
  induction fuel generalizing p done with
  | zero => exact h.wrote_none all (by simp [writeTurn]) (by simp [writeTurn])
  | succ fuel ih =>
    unfold writeTurn
    extract_lets needed r
    by_cases full : buf.length ≤ done
    · rw [if_pos full]
      exact h.wrote_none all (by simp) (by simp)
    rw [if_neg full]
    by_cases closed : p.readRefs = 0
    · rw [if_pos closed]
      exact h.wrote_none all (fun n => stopped_ok) fun _ => closed
    rw [if_neg closed]
    by_cases room : pipeBufferSize - p.count < needed
    · rw [if_pos room]
      split_ifs <;> exact h.wrote_none all (by simp_all) (by simp_all)
    rw [if_neg room]
    obtain ⟨put, count⟩ := putBytes_spec h (buf.drop done)
    change Becomes p r.1 (p.contents ++ (buf.drop done).take r.2) at put
    change r.2 = min (buf.drop done).length (pipeBufferSize - p.count) at count
    rw [length_drop] at count
    have some : 1 ≤ needed := by
      simp only [needed]
      split_ifs <;> omega
    have atomic : buf.length ≤ sysPipeBuf → done = 0 → done + r.2 = buf.length := by
      intro small zero
      simp only [needed, if_pos small] at room
      omega
    by_cases once : nonblock
    · rw [if_pos once]
      exact put.wrote atomic (put.sound.wrote_none (by omega) (by simp) (by simp))
    · rw [if_neg once]
      exact put.wrote atomic (ih put.sound (by omega) (by omega))

theorem accepted_addChunk (cs : List Chunk) (k : Nat) (put : List UInt8) :
    (addChunk cs k put).flatMap Chunk.bytes = cs.flatMap Chunk.bytes ++ put := by
  unfold addChunk
  split_ifs with empty <;> simp [*]

theorem pieces_addChunk {cs : List Chunk} {put : List UInt8} (s : State) (j : Nat)
    (h : s.chunks = addChunk cs k put) (t : State) (ht : t.chunks = cs) :
    s.pieces j = if j = k ∧ put ≠ [] then t.pieces j ++ [put] else t.pieces j := by
  unfold State.pieces
  rw [h, ht]
  unfold addChunk
  by_cases empty : put = []
  · simp [empty]
  · by_cases same : j = k
    · simp [empty, same]
    · simp [empty, same, Ne.symm same]

def Handle.reads (e : Handle) : Bool := e.valid && e.readable

def Handle.writes (e : Handle) : Bool := e.valid && e.writable

structure WriteCall.Split (c : WriteCall) (ps : List (List UInt8)) : Prop where
  done : c.done ≤ c.buf.length
  bytes : ps.flatten = c.buf.take c.done
  one : c.buf.length ≤ sysPipeBuf → (ps = [] ∧ c.done = 0) ∨ (ps = [c.buf] ∧ c.done = c.buf.length)

structure State.Sound (s : State) : Prop where
  ring : s.pipe.Sound
  queue : s.returned ++ s.pipe.contents = s.accepted
  readers : s.pipe.readRefs = s.ends.countP Handle.reads
  writers : s.pipe.writeRefs = s.ends.countP Handle.writes
  split : ∀ k (c : WriteCall), s.writes[k]? = some c → c.Split (s.pieces k)
  later : ∀ k, s.writes.length ≤ k → s.pieces k = []

theorem WriteCall.Split.turn {c : WriteCall} {ps : List (List UInt8)} (h : c.Split ps)
    (w : Wrote p q c.buf c.done now r) : ({ c with done := now, answer := r } : WriteCall).Split
      (if (c.buf.drop c.done).take (now - c.done) ≠ [] then
        ps ++ [(c.buf.drop c.done).take (now - c.done)] else ps) := by
  have le := w.le
  have all := w.all
  have hbytes : c.buf.take now = ps.flatten ++ (c.buf.drop c.done).take (now - c.done) := by
    rw [h.bytes, ← take_add]
    congr 1
    omega
  refine ⟨all, ?_, fun small => ?_⟩
  · rw [hbytes]
    split_ifs with put
    · simp
    · simp [not_not.mp put]
  · obtain ⟨none, zero⟩ | ⟨whole, full⟩ := h.one small
    · obtain hnow | hnow := w.whole small zero
      · exact .inl ⟨by simp [hnow, none], hnow⟩
      · by_cases empty : c.buf = []
        · exact .inl ⟨by simp [empty, none], by simpa [empty] using hnow⟩
        · exact .inr ⟨by simp [hnow, zero, none, empty], hnow⟩
    · exact .inr ⟨by simp [full, whole], by simp only; omega⟩

theorem State.Sound.writeOn (h : s.Sound) (k : Nat) (waits : Bool) : (s.writeOn k waits).1.Sound := by
  unfold State.writeOn
  split
  · exact h
  rename_i c hc
  split
  · exact h
  rename_i ent _
  split_ifs
  · exact h
  extract_lets w
  have hsplit := h.split k c hc
  have wrote : Wrote s.pipe w.1 c.buf c.done w.2.1 w.2.2 :=
    writeTurn_wrote ent.nonblock waits c.buf _ h.ring hsplit.done (by omega)
  have hlt : k < s.writes.length := (List.getElem?_eq_some_iff.mp hc).1
  refine ⟨wrote.ring.sound, ?_, ?_, ?_, fun j d hd => ?_, fun j hj => ?_⟩
  · rw [wrote.ring.contents, ← append_assoc, h.queue]
    exact (accepted_addChunk _ _ _).symm
  · exact wrote.ring.readRefs.trans h.readers
  · exact wrote.ring.writeRefs.trans h.writers
  · rw [pieces_addChunk _ j rfl s rfl]
    by_cases same : j = k
    · rw [same] at hd ⊢
      rw [getElem?_set_self hlt, some_inj] at hd
      simpa [← hd] using hsplit.turn wrote
    · rw [if_neg (by tauto)]
      rw [getElem?_set_ne (Ne.symm same)] at hd
      exact h.split j d hd
  · rw [length_set] at hj
    rw [pieces_addChunk _ j rfl s rfl, if_neg (by omega)]
    exact h.later j hj

theorem State.Sound.readOn (h : s.Sound) (k : Nat) (waits : Bool) : (s.readOn k waits).1.Sound := by
  unfold State.readOn
  split
  · exact h
  split
  · exact h
  rename_i c _ _ ent _
  split_ifs
  · exact h
  extract_lets r
  obtain ⟨rest, left, front⟩ := readTurn_split h.ring ent.nonblock c.len waits
  refine ⟨left.sound, ?_, left.readRefs.trans h.readers, left.writeRefs.trans h.writers,
    h.split, h.later⟩
  rw [append_assoc, show r.1.contents = rest from left.contents, front]
  exact h.queue

theorem State.Sound.addWrite (h : s.Sound) (fd : Nat) (buf : List UInt8)
    (r : Option (Except Errno Nat)) :
    State.Sound { s with writes := s.writes ++ [⟨fd, buf, 0, r⟩] } := by
  refine ⟨h.ring, h.queue, h.readers, h.writers, fun k c hc => ?_, fun k hk => h.later k ?_⟩
  · by_cases old : k < s.writes.length
    · rw [getElem?_append_left old] at hc
      exact h.split k c hc
    · rw [getElem?_append_right (by omega), getElem?_singleton] at hc
      obtain ⟨-, hnew⟩ := ite_none_right_eq_some.mp hc
      have none : s.pieces k = [] := h.later k (by omega)
      rw [← some_inj.mp hnew]
      exact ⟨Nat.zero_le _, congrArg flatten none, fun _ => .inl ⟨none, rfl⟩⟩
  · simp only [length_append, length_singleton] at hk
    omega

theorem State.Sound.dup (h : s.Sound) (valid : ent.valid = true) :
    State.Sound { s with pipe := s.pipe.ref ent, ends := s.ends ++ [ent] } := by
  refine ⟨⟨h.ring.readPos, h.ring.count, h.ring.writePos⟩, h.queue, ?_, ?_, h.split, h.later⟩
  · cases reads : ent.readable <;> simp [Pipe.ref, h.readers, Handle.reads, valid, reads]
  · cases writes : ent.writable <;> simp [Pipe.ref, h.writers, Handle.writes, valid, writes]

theorem countP_set {ends : List Handle} (hent : ends[fd]? = some ent) (f : Handle → Bool)
    (e : Handle) : (ends.set fd e).countP f = ends.countP f - (f ent).toNat + (f e).toNat := by
  obtain ⟨hlt, heq⟩ := List.getElem?_eq_some_iff.mp hent
  rw [List.countP_set hlt, heq]
  cases f ent <;> cases f e <;> rfl

theorem State.Sound.close (h : s.Sound) (hent : s.ends[fd]? = some ent) (valid : ent.valid = true) :
    State.Sound { s with pipe := s.pipe.unref ent, ends := s.ends.set fd cleared } := by
  refine ⟨⟨h.ring.readPos, h.ring.count, h.ring.writePos⟩, h.queue, ?_, ?_, h.split, h.later⟩
  · simp [countP_set hent, Pipe.unref, h.readers, Handle.reads, valid, cleared]
  · simp [countP_set hent, Pipe.unref, h.writers, Handle.writes, valid, cleared]

theorem State.Sound.setNonblock (h : s.Sound) (hent : s.ends[fd]? = some ent) (nonblock : Bool) :
    State.Sound { s with ends := s.ends.set fd { ent with nonblock := nonblock } } := by
  have count (f : Handle → Bool) (same : f { ent with nonblock := nonblock } = f ent) :
      s.ends.countP f = (s.ends.set fd { ent with nonblock := nonblock }).countP f := by
    rw [countP_set hent, same]
    cases hf : f ent with
    | false => rfl
    | true =>
      have : 0 < s.ends.countP f := countP_pos_iff.mpr ⟨ent, mem_of_getElem? hent, hf⟩
      simp only [Bool.toNat_true]
      omega
  exact ⟨h.ring, h.queue, h.readers.trans (count _ rfl), h.writers.trans (count _ rfl), h.split,
    h.later⟩

theorem State.Sound.step (h : s.Sound) (e : Event) : (step s e).1.Sound := by
  cases e with
  | read fd buf len waits =>
    simp only [Ipc.step]
    split
    · exact h
    have added (r) : State.Sound { s with reads := s.reads ++ [⟨fd, len, r⟩] } :=
      ⟨h.ring, h.queue, h.readers, h.writers, h.split, h.later⟩
    split
    · exact added _
    · exact (added _).readOn _ waits
  | write fd buf waits =>
    simp only [Ipc.step]
    split
    · exact h
    split
    · exact h.addWrite fd _ _
    · exact (h.addWrite fd _ _).writeOn _ waits
  | wakeReader k waits => exact h.readOn k waits
  | wakeWriter k waits => exact h.writeOn k waits
  | dup fd =>
    simp only [Ipc.step]
    split
    · exact h
    split_ifs with valid
    · exact h.dup valid
    · exact h
  | setNonblock fd nonblock =>
    simp only [Ipc.step]
    split
    · exact h
    split_ifs with valid
    · exact h.setNonblock ‹_› nonblock
    · exact h
  | close fd =>
    simp only [Ipc.step]
    split
    · exact h
    split_ifs with valid
    · exact h.close ‹_› valid
    · exact h

theorem run_sound (nonblock : Bool) (events : List Event) : (run nonblock events).Sound := by
  have h : (start nonblock).Sound :=
    ⟨⟨size_pos, Nat.zero_le _, rfl⟩, rfl, by cases nonblock <;> decide,
      by cases nonblock <;> decide, by simp [start], fun _ _ => rfl⟩
  exact foldlRecOn events _ h fun s hs e _ => hs.step e

theorem State.Sound.readOn_empty (h : s.Sound)
    (answer : (s.readOn k waits).2 = some (.read j len (.ok []))) (any : len ≠ 0) :
    s.pipe.count = 0 ∧ s.pipe.writeRefs = 0 := by
  unfold State.readOn at answer
  split at answer
  · simp at answer
  rename_i c _
  split at answer
  · simp at answer
  rename_i ent _
  split_ifs at answer
  simp only [map_eq_some_iff, Answer.read.injEq] at answer
  obtain ⟨r, hr, -, rfl, rfl⟩ := answer
  obtain ⟨-, none⟩ | ⟨bytes, -, open_⟩ := readTurn_cases h.ring ent.nonblock c.len waits
  · exact absurd hr (none [])
  · have htake : s.pipe.contents.take c.len = [] := by simpa using bytes.symm.trans hr
    have hnil : s.pipe.contents = [] := by simpa [any] using htake
    have hzero : s.pipe.count = 0 := by simpa [hnil] using s.pipe.length_contents.symm
    exact ⟨hzero, open_.resolve_left (not_not.mpr hzero)⟩

theorem State.Sound.writeOn_answer (h : s.Sound) {r : Except Errno Nat}
    (answer : (s.writeOn k waits).2 = some (.write j r)) :
    (r = .error .pipe → s.pipe.readRefs = 0) ∧
      ∀ n, r = .ok n → ((s.writeOn k waits).1.pieces j).flatten.length = n := by
  have after := h.writeOn k waits
  unfold State.writeOn at answer after ⊢
  split at answer
  · simp at answer
  rename_i c hc
  simp only [hc] at after ⊢
  split at answer
  · simp at answer
  rename_i ent hent
  simp only [hent] at after ⊢
  split_ifs at answer after ⊢
  simp only [map_eq_some_iff, Answer.write.injEq] at answer
  obtain ⟨a, hr, rfl, rfl⟩ := answer
  have hsplit := h.split k c hc
  have wrote := writeTurn_wrote ent.nonblock waits c.buf (c.buf.length - c.done) h.ring hsplit.done
    (by omega)
  refine ⟨fun e => wrote.epipe (by rw [hr, e]), fun n hn => ?_⟩
  have hlt : k < s.writes.length := (List.getElem?_eq_some_iff.mp hc).1
  have now := after.split k _ (getElem?_set_self hlt)
  rw [now.bytes, wrote.ok n (by rw [hr, hn])]
  rw [length_take]
  exact Nat.min_eq_left wrote.all

theorem State.writeOn_ne_read (s : State)
    {r : Except Errno (List UInt8)} : (s.writeOn k waits).2 ≠ some (.read j len r) := by
  unfold State.writeOn
  split
  · simp
  split
  · simp
  split_ifs <;> simp

theorem State.readOn_ne_write (s : State) {r : Except Errno Nat} :
    (s.readOn k waits).2 ≠ some (.write j r) := by
  unfold State.readOn
  split
  · simp
  split
  · simp
  split_ifs <;> simp

theorem step_read_cases {r : Except Errno (List UInt8)}
    (answer : (step s e).2 = some (.read j len r)) : (∃ fd buf, readChecks fd buf len = some r) ∨
    ∃ reads k waits, ({ s with reads := reads } : State).readOn k waits = step s e := by
  cases e with
  | read fd buf n waits =>
    simp only [step] at answer ⊢
    split at answer
    · simp at answer
    rename_i ent hent
    split at answer
    · rename_i r' hr
      obtain ⟨-, rfl, rfl⟩ := answer
      exact .inl ⟨ent, buf, hr⟩
    · rename_i hr
      exact .inr ⟨_, _, _, rfl⟩
  | write fd buf waits =>
    simp only [step] at answer
    split at answer
    · simp at answer
    split at answer
    · simp at answer
    · exact absurd answer (State.writeOn_ne_read _)
  | wakeReader k waits => exact .inr ⟨s.reads, k, waits, rfl⟩
  | wakeWriter k waits => exact absurd answer (State.writeOn_ne_read _)
  | dup fd | setNonblock fd nonblock | close fd =>
    simp only [step] at answer
    split at answer
    · simp at answer
    split_ifs at answer

theorem step_write_cases {r : Except Errno Nat} (h : s.Sound)
    (answer : (step s e).2 = some (.write j r)) :
    (∃ fd buf, writeChecks fd buf = some r ∧ (step s e).1.pieces j = []) ∨
    ∃ t : State, t.Sound ∧ t.pipe = s.pipe ∧ t.ends = s.ends ∧
      ∃ k waits, t.writeOn k waits = step s e := by
  cases e with
  | read fd buf n waits =>
    simp only [step] at answer
    split at answer
    · simp at answer
    split at answer
    · simp at answer
    · exact absurd answer (State.readOn_ne_write _)
  | write fd buf waits =>
    simp only [step] at answer ⊢
    split at answer
    · simp at answer
    rename_i ent hent
    split at answer
    · rename_i r' hr
      obtain ⟨rfl, rfl⟩ := answer
      exact .inl ⟨ent, buf, hr, h.later _ le_rfl⟩
    · rename_i hr
      exact .inr ⟨_, h.addWrite fd _ _, rfl, rfl, _, _, rfl⟩
  | wakeReader k waits => exact absurd answer (State.readOn_ne_write _)
  | wakeWriter k waits => exact .inr ⟨s, h, rfl, rfl, k, waits, rfl⟩
  | dup fd | setNonblock fd nonblock | close fd =>
    simp only [step] at answer
    split at answer
    · simp at answer
    split_ifs at answer

theorem State.Sound.step_empty (h : s.Sound)
    (answer : (Ipc.step s e).2 = some (.read j len (.ok []))) (any : len ≠ 0) :
    s.pipe.count = 0 ∧ ∀ ent ∈ s.ends, ent.writes = false := by
  obtain ⟨ent, buf, checks⟩ | ⟨reads, k, waits, same⟩ := step_read_cases answer
  · simp only [readChecks, if_neg any] at checks
    split_ifs at checks <;> simp at checks
  · have sound : State.Sound { s with reads := reads } :=
      ⟨h.ring, h.queue, h.readers, h.writers, h.split, h.later⟩
    rw [← same] at answer
    obtain ⟨zero, none⟩ := sound.readOn_empty answer any
    exact ⟨zero, by simpa using countP_eq_zero.mp (h.writers.symm.trans none)⟩

theorem State.Sound.step_epipe (h : s.Sound)
    (answer : (Ipc.step s e).2 = some (.write j (.error .pipe))) :
    ∀ ent ∈ s.ends, ent.reads = false := by
  obtain ⟨ent, buf, checks, -⟩ | ⟨t, sound, pipe, -, k, waits, same⟩ := step_write_cases h answer
  · unfold writeChecks at checks
    split at checks
    · simp at checks
    split at checks
    · simp at checks
    · split_ifs at checks
      simp at checks
  · rw [← same] at answer
    have none := (sound.writeOn_answer answer).1 rfl
    simpa using countP_eq_zero.mp (h.readers.symm.trans (pipe ▸ none))

theorem State.Sound.step_wrote (h : s.Sound) (answer : (Ipc.step s e).2 = some (.write j (.ok n))) :
    ((Ipc.step s e).1.pieces j).flatten.length = n := by
  obtain ⟨ent, buf, checks, none⟩ | ⟨t, sound, -, -, k, waits, same⟩ := step_write_cases h answer
  · unfold writeChecks at checks
    split at checks
    · simp at checks
    split at checks
    · simp at checks
    · split_ifs at checks
      simp only [some_inj, Except.ok.injEq] at checks
      simp [none, checks]
  · rw [← same] at answer ⊢
    exact (sound.writeOn_answer answer).2 n rfl

/-- In every state that any interleaving of calls on a new pipe reaches: reads have returned the
front of what writes put in, the ring holds the rest, and writes of at most `SYS_PIPE_BUF` bytes
went in as one piece or not at all. -/
theorem pipe_is_fifo (nonblock : Bool) (events : List Event) :
    let s := run nonblock events
    s.returned <+: s.accepted ∧
    s.pipe.readPos < pipeBufferSize ∧ s.pipe.writePos < pipeBufferSize ∧
    s.pipe.count = s.accepted.length - s.returned.length ∧ s.pipe.count ≤ pipeBufferSize ∧
    (∀ k (c : WriteCall), s.writes[k]? = some c → (s.pieces k).flatten = c.buf.take c.done ∧
      (c.buf.length ≤ sysPipeBuf → s.pieces k = [] ∨ s.pieces k = [c.buf])) ∧
    ∀ e, (∀ j len, (step s e).2 = some (.read j len (.ok [])) → len ≠ 0 →
        s.pipe.count = 0 ∧ ∀ ent ∈ s.ends, ent.writes = false) ∧
      (∀ j, (step s e).2 = some (.write j (.error .pipe)) → ∀ ent ∈ s.ends, ent.reads = false) ∧
      ∀ j n, (step s e).2 = some (.write j (.ok n)) →
        ((step s e).1.pieces j).flatten.length = n := by
  intro s
  have h : s.Sound := run_sound nonblock events
  refine ⟨⟨_, h.queue⟩, h.ring.readPos, ?_, ?_, h.ring.count, fun k c hc => ?_, fun e => ?_⟩
  · rw [h.ring.writePos]
    exact mod_lt _ size_pos
  · rw [← h.queue, length_append, Pipe.length_contents]
    omega
  · have split := h.split k c hc
    exact ⟨split.bytes, fun small => (split.one small).imp And.left And.left⟩
  · exact ⟨fun j len answer any => h.step_empty answer any, fun j answer => h.step_epipe answer,
      fun j n answer => h.step_wrote answer⟩

/-- A read of no bytes returns none from a pipe that has some. -/
theorem empty_read_of_full_pipe :
    ¬∀ (nonblock : Bool) (events : List Event) (e : Event) (j len : Nat),
      (step (run nonblock events) e).2 = some (.read j len (.ok [])) →
        (run nonblock events).pipe.count = 0 ∧
          ∀ ent ∈ (run nonblock events).ends, ent.writes = false := by
  intro all
  have answer := all false [.write 1 (some [7]) true] (.read 0 true 0 true) 0 0 rfl
  exact absurd answer.1 (by decide)

end SmallOS.Ipc
