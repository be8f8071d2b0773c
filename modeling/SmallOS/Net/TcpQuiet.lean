import SmallOS.Net.TcpStream

/-! Two copies of the implementation, joined by a channel that neither loses nor reorders. Once the
applications make no more calls, the exchange stops when nothing is in flight by then, or an end is
closed. -/

namespace SmallOS.Net

open Function List Work

/-- The two ends, the segments on their way to each, and how many have been exchanged. -/
structure Link where
  conn : Bool → Conn
  inbox : Bool → List Segment
  sent : Nat

def Sent.arrives (c : Conn) (s : Sent) : Segment :=
  ⟨[], c.localIp, c.localPort, c.remotePort, s.seq, s.ack, s.kind = .finAck,
    s.kind = .syn ∨ s.kind = .synAck, false, s.kind ≠ .syn, s.window, s.payload⟩

namespace Link

def done (l : Link) (side : Bool) (w : Work) : Link where
  conn s := if s = side then w.conn else l.conn s
  inbox s := if s = side then l.inbox s
    else l.inbox s ++ w.out.map (Sent.arrives (l.conn side))
  sent := l.sent + w.out.length

def call (l : Link) (side : Bool) (io : Io) (c : Call) : Link :=
  l.done side (c.run io (l.conn side)).toWork

def deliver (l : Link) (side : Bool) (io : Io) (slot : Bool) : Link :=
  match l.inbox side with
  | [] => l
  | seg :: rest =>
    { l with inbox := update l.inbox side rest : Link }.done side
      ((Work.start (l.conn side)).input io slot seg)

inductive Runs (l : Link) : Link → Prop
  | start : Runs l l
  | deliver {m : Link} (r : Runs l m) (side : Bool) (io : Io) (slot : Bool) :
    Runs l (m.deliver side io slot)
  | service {m : Link} (r : Runs l m) (side : Bool) (io : Io) :
    Runs l (m.done side ((Work.start (m.conn side)).maybeRetransmit io))

def Ends (l : Link) : Prop := ∃ n, ∀ m, l.Runs m → m.sent ≤ n

end Link

structure Conn.Rest (c : Conn) : Prop where
  txLen : c.txLen = 0
  shaken : c.state ≠ .synSent ∧ c.state ≠ .synRcvd
  finAcked : c.state = .finWait → c.localFinAcked = true

structure Conn.Idle (c : Conn) : Prop extends c.Rest where
  opened : c.state ≠ .closed

def Segment.Plain (seg : Segment) : Prop :=
  seg.rst = false ∧ seg.fin = false ∧ seg.payload.length ≤ tcpMaxPayload

structure Link.Quiet (l : Link) : Prop where
  rest : ∀ side, (l.conn side).Rest
  plain : ∀ side, ∀ seg ∈ l.inbox side, seg.Plain

variable {w : Work} {io : Io} {slot : Bool} {seg : Segment} {l m : Link} {side : Bool}

structure Work.Answers (w v : Work) : Prop where
  idle : v.conn.Idle
  out : ∃ s, v.out = w.out ++ [s] ∧ s.kind = .ack ∧ s.payload = []

theorem Conn.Idle.processRxPayload (h : w.conn.Idle) (payload : List UInt8) (seq : UInt32) :
    w.Answers (w.processRxPayload io payload seq false) := by
  unfold Work.processRxPayload
  split_ifs with expected
  · exact ⟨h, _, rfl, rfl, rfl⟩
  · simp only [Bool.not_false, or_true, if_true]
    obtain ⟨_, _, _, _, ring⟩ := rxTake_onlyRing io (w.conn.touch io) payload
    rw [ring]
    exact ⟨⟨⟨h.txLen, h.shaken, h.finAcked⟩, h.opened⟩, _, rfl, rfl, rfl⟩

theorem Conn.Rest.acked (h : w.conn.Rest) (ack : UInt32) : (w.txAck io ack).finAck ack = w := by
  have data : w.txAck io ack = w := by simp [txAck, h.txLen]
  rw [data, finAck]
  by_cases fin : w.conn.state = .finWait
  · simp [h.finAcked fin]
  · simp [fin]

theorem Conn.Idle.input (h : w.conn.Idle) (p : seg.Plain) : w.Answers (w.input io slot seg) := by
  obtain ⟨rst, fin, short⟩ := p
  have h' : (w.setWindow seg.window).conn.Idle := ⟨⟨h.txLen, h.shaken, h.finAcked⟩, h.opened⟩
  have data : w.Answers ((w.setWindow seg.window).inputData io seg seg.seq) := by
    rw [Work.inputData, if_neg (by omega), fin]
    exact ⟨(h'.processRxPayload seg.payload seg.seq).idle,
      (h'.processRxPayload seg.payload seg.seq).out⟩
  rw [Work.input, if_neg h.opened, rst, if_neg (by decide), if_neg h.shaken.1, Work.inputAck,
    h'.acked, ite_self, Work.inputRest]
  cases at_ : (w.setWindow seg.window).conn.state with
  | closed => exact absurd at_ h.opened
  | synSent => exact absurd at_ h.shaken.1
  | synRcvd => exact absurd at_ h.shaken.2
  | established => exact data
  | finWait => exact data

theorem Conn.Rest.service (h : w.conn.Rest) (io : Io) :
    (w.maybeRetransmit io).out = w.out ∧ (w.maybeRetransmit io).conn.Rest := by
  have reset : w.reset.out = w.out ∧ w.reset.conn.Rest := ⟨rfl, rfl, ⟨nofun, nofun⟩, nofun⟩
  unfold maybeRetransmit
  cases at_ : w.conn.state with
  | closed => exact ⟨rfl, h⟩
  | synSent => exact absurd at_ h.shaken.1
  | synRcvd => exact absurd at_ h.shaken.2
  | established =>
    have none : w.txFlush io = w := by simp [txFlush, h.txLen]
    simpa [none, h.txLen] using h
  | finWait =>
    simp only [h.finAcked at_, Bool.true_and, Bool.not_true, Bool.false_and, Bool.false_eq_true,
      if_false]
    split_ifs
    · exact reset
    · exact ⟨rfl, h⟩
    · exact reset
    · exact ⟨rfl, h⟩

theorem Link.done_rest (rest : ∀ side, (l.conn side).Rest) (h : w.conn.Rest) (s : Bool) :
    ((l.done side w).conn s).Rest := by
  by_cases hs : s = side
  · simpa [done, hs] using h
  · simpa [done, hs] using rest s

theorem Link.done_silent (out : w.out = []) :
    (l.done side w).inbox = l.inbox ∧ (l.done side w).sent = l.sent :=
  ⟨by simp [done, out], by simp [done, out]⟩

theorem Link.Runs.silent (r : l.Runs m) (rest : ∀ side, (l.conn side).Rest)
    (none : ∀ side, l.inbox side = []) :
    m.sent = l.sent ∧ (∀ side, (m.conn side).Rest) ∧ ∀ side, m.inbox side = [] := by
  induction r with
  | start => exact ⟨rfl, rest, none⟩
  | deliver r side io slot ih =>
    rw [Link.deliver, ih.2.2 side]
    exact ih
  | service r side io ih =>
    obtain ⟨sent, rest, none⟩ := ih
    obtain ⟨out, rest'⟩ := Conn.Rest.service (w := .start _) (rest side) io
    obtain ⟨inbox, sent'⟩ := done_silent out
    rw [inbox, sent']
    exact ⟨sent, done_rest rest rest', none⟩

theorem Link.deliver_closed (closed : (l.conn side).state = .closed) :
    l.deliver side io slot = { l with inbox := update l.inbox side (l.inbox side).tail } := by
  have same : ∀ m : Link, m.conn = l.conn → m.done side (start (l.conn side)) = m := by
    rintro ⟨conn, inbox, sent⟩ rfl
    have conn : ∀ s, (if s = side then l.conn side else l.conn s) = l.conn s := fun s => by
      split_ifs with hs
      · rw [hs]
      · rfl
    simp [done, start, conn]
  unfold Link.deliver
  cases cons : l.inbox side with
  | nil =>
    have kept : update l.inbox side [] = l.inbox := by rw [← cons, update_eq_self]
    simp only [tail_nil, kept]
  | cons seg rest =>
    have at_ : (start (l.conn side)).conn.state = .closed := closed
    simp only [input, at_, if_true]
    exact same _ rfl

structure Link.Echoed (l m : Link) (side : Bool) : Prop where
  idle : (m.conn side).Idle
  other : m.conn (!side) = l.conn (!side)
  sent : m.sent = l.sent + 1
  taken : m.inbox side = (l.inbox side).tail
  flies : ∃ seg : Segment, seg.Plain ∧ m.inbox (!side) = l.inbox (!side) ++ [seg]

theorem Link.Quiet.echoed (q : l.Quiet) (opened : (l.conn side).state ≠ .closed)
    (some : l.inbox side ≠ []) (io : Io) (slot : Bool) :
    l.Echoed (l.deliver side io slot) side := by
  obtain ⟨seg, rest, cons⟩ := exists_cons_of_ne_nil some
  have idle : (start (l.conn side)).conn.Idle := ⟨q.rest side, opened⟩
  obtain ⟨idle, s, out, kind, payload⟩ := idle.input (q.plain side seg (by simp [cons]))
  change _ = [s] at out
  have answer : (s.arrives (l.conn side)).Plain := by
    simp [Segment.Plain, Sent.arrives, kind, payload]
  have eq : l.deliver side io slot = { l with inbox := update l.inbox side rest : Link }.done side
      ((start (l.conn side)).input io slot seg) := by rw [Link.deliver, cons]
  rw [eq]
  exact ⟨by simpa [done] using idle, by simp [done], by simp [done, out], by simp [done, cons],
    _, answer, by simp [done, out]⟩

theorem Link.Quiet.deliver (q : l.Quiet) (side : Bool) (io : Io) (slot : Bool) :
    (l.deliver side io slot).Quiet := by
  have split : ∀ t, t = side ∨ t = !side := by cases side <;> decide
  by_cases some : l.inbox side = []
  · rwa [Link.deliver, some]
  have tail : ∀ seg ∈ (l.inbox side).tail, seg.Plain := fun seg mem =>
    q.plain side seg (mem_of_mem_tail mem)
  by_cases closed : (l.conn side).state = .closed
  · rw [deliver_closed closed]
    refine ⟨q.rest, fun t => ?_⟩
    obtain rfl | rfl := split t
    · simpa using tail
    · simpa using q.plain _
  · obtain ⟨idle, other, _, taken, seg, plain, flies⟩ := q.echoed closed some io slot
    refine ⟨fun t => ?_, fun t => ?_⟩ <;> obtain rfl | rfl := split t
    · exact idle.toRest
    · rw [other]
      exact q.rest _
    · rwa [taken]
    · rw [flies]
      intro seg' mem
      obtain old | rfl := by simpa using mem
      · exact q.plain _ seg' old
      · exact plain

theorem Link.Quiet.unbounded (q : l.Quiet) (opened : ∀ side, (l.conn side).state ≠ .closed)
    (some : l.inbox side ≠ []) (n : Nat) :
    ∃ m, l.Runs m ∧ m.sent = l.sent + n ∧ m.Quiet ∧ (∀ side, (m.conn side).state ≠ .closed) ∧
      ∃ side, m.inbox side ≠ [] := by
  induction n with
  | zero => exact ⟨l, .start, rfl, q, opened, side, some⟩
  | succ n ih =>
    obtain ⟨m, r, sent, quiet, opened, s, some⟩ := ih
    obtain ⟨idle, other, sent', _, seg, _, flies⟩ := quiet.echoed (opened s) some plainIo true
    refine ⟨_, r.deliver s plainIo true, by rw [sent', sent]; rfl, quiet.deliver s plainIo true,
      fun t => ?_, !s, by simp [flies]⟩
    by_cases ht : t = s
    · exact ht ▸ idle.opened
    · rw [Bool.eq_not_of_ne ht, other]
      exact opened _

theorem Link.Quiet.not_ends (q : l.Quiet) (opened : ∀ side, (l.conn side).state ≠ .closed)
    (some : l.inbox side ≠ []) : ¬l.Ends := by
  rintro ⟨n, bound⟩
  obtain ⟨m, r, sent, -⟩ := q.unbounded opened some (n + 1)
  have := bound m r
  omega

theorem Link.Runs.ending (r : l.Runs m) (q : l.Quiet) (closed : (l.conn side).state = .closed) :
    m.Quiet ∧ (m.conn side).state = .closed ∧
      m.sent + (m.inbox !side).length ≤ l.sent + (l.inbox !side).length := by
  induction r with
  | start => exact ⟨q, closed, le_refl _⟩
  | @deliver m r t io slot ih =>
    obtain ⟨quiet, dead, bound⟩ := ih
    refine ⟨quiet.deliver t io slot, ?_⟩
    by_cases shut : (m.conn t).state = .closed
    · rw [deliver_closed shut]
      refine ⟨dead, le_trans (Nat.add_le_add_left ?_ _) bound⟩
      by_cases ht : (!side) = t <;> simp [ht]
    by_cases some : m.inbox t = []
    · rw [Link.deliver, some]
      exact ⟨dead, bound⟩
    obtain rfl : t = !side := Bool.eq_not_of_ne fun ht => shut (ht ▸ dead)
    obtain ⟨_, other, sent, taken, _⟩ := quiet.echoed shut some io slot
    rw [Bool.not_not] at other
    have pos := length_pos_iff.mpr some
    rw [other, sent, taken, length_tail]
    exact ⟨dead, by omega⟩
  | @service m r t io ih =>
    obtain ⟨quiet, dead, bound⟩ := ih
    obtain ⟨out, rest⟩ := Conn.Rest.service (w := .start _) (quiet.rest t) io
    obtain ⟨inbox, sent⟩ := done_silent out
    rw [sent, inbox]
    refine ⟨⟨done_rest quiet.rest rest, by rw [inbox]; exact quiet.plain⟩, ?_, bound⟩
    by_cases ht : side = t
    · subst ht
      have idle : (Work.start (m.conn side)).maybeRetransmit io = .start (m.conn side) := by
        rw [maybeRetransmit, show (Work.start (m.conn side)).conn.state = .closed from dead]
      have dead : (Work.start (m.conn side)).conn.state = .closed := dead
      simpa [done, idle] using dead
    · simpa [done, ht] using dead

theorem quiet_exchange_ends_iff (l : Link) (q : l.Quiet) :
    (l.Ends ↔ (∃ side, (l.conn side).state = .closed) ∨ ∀ side, l.inbox side = []) ∧
    ∀ side io slot seg, seg.Plain →
      (((Work.start (l.conn side)).input io slot seg).out = [] ↔ (l.conn side).state = .closed) := by
  refine ⟨⟨fun ends => ?_, ?_⟩, fun side io slot seg plain => ⟨fun silent => ?_, fun closed => ?_⟩⟩
  · by_contra both
    obtain ⟨opened, some⟩ := not_or.mp both
    obtain ⟨side, some⟩ := not_forall.mp some
    exact q.not_ends (fun side closed => opened ⟨side, closed⟩) some ends
  · rintro (⟨side, closed⟩ | none)
    · exact ⟨_, fun m r => (Nat.le_add_right _ _).trans (r.ending q closed).2.2⟩
    · exact ⟨l.sent, fun m r => (r.silent q.rest none).1.le⟩
  · by_contra opened
    have idle : (Work.start (l.conn side)).conn.Idle := ⟨q.rest side, opened⟩
    obtain ⟨s, answer, _⟩ := (idle.input plain).out
    exact append_ne_nil_of_right_ne_nil _ (cons_ne_nil s []) (answer.symm.trans silent)
  · have closed : (Work.start (l.conn side)).conn.state = .closed := closed
    rw [Work.input, if_pos closed]
    rfl

def Link.opening : Link :=
  let syn := connectSyn plainIo 1 0 49152 [] 2 80
  let synAck := acceptSyn plainIo 2 0 { dataSegment syn.conn.localSeqNext [] with syn := true }
  ⟨fun side => if side then syn.conn else synAck.conn,
    fun side => if side then synAck.out.map (Sent.arrives synAck.conn) else [], 2⟩

def Link.opened : Link := (opening.deliver true plainIo false).deliver false plainIo true

def Link.byteSent : Link :=
  ((opened.call true plainIo (.send [7])).deliver false plainIo true).deliver true plainIo false

theorem Link.opened_quiet : Link.opened.Quiet where
  rest side := by cases side <;> exact ⟨rfl, by decide, nofun⟩
  plain side := by cases side <;> exact nofun

theorem quiet_exchange_ends_opened : Link.opened.Ends :=
  (quiet_exchange_ends_iff Link.opened Link.opened_quiet).1.mpr
    (.inr fun side => by cases side <;> rfl)

theorem Link.byteSent_quiet : Link.byteSent.Quiet where
  rest side := by cases side <;> exact ⟨rfl, by decide, nofun⟩
  plain side := by
    cases side with
    | false =>
      intro seg mem
      obtain rfl := mem_singleton.mp mem
      exact ⟨rfl, rfl, by decide⟩
    | true => exact nofun

theorem byteSent_never_ends : (∀ side, (Link.byteSent.conn side).txLen = 0 ∧
      (Link.byteSent.conn side).localSeqNext = (Link.byteSent.conn !side).remoteSeqNext) ∧
    ¬Link.byteSent.Ends := by
  have flies : Link.byteSent.inbox false ≠ [] := nofun
  refine ⟨fun side => ?_, Link.byteSent_quiet.not_ends (fun side => ?_) flies⟩
  · cases side <;> exact ⟨rfl, rfl⟩
  · cases side <;> decide

end SmallOS.Net
