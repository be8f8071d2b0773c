import SmallOS.Net.TcpTransmit

/-! The end of a connection whose socket is closed. From then on only the peer's segments and the
service, once a tick, work on it, and the service gives it up after a time without activity. -/

namespace SmallOS.Net

open Bytes Serial List Work

variable {c : Conn} {w : Work}

/-- A tick with a run of the service, or a segment between two ticks; what the machine has for
either is in `io`. -/
inductive CloseEvent
  | tick (io : Io)
  | segment (io : Io) (slot : Bool) (seg : Segment)

structure Closing where
  now : UInt32
  conn : Conn

def Closing.step (s : Closing) : CloseEvent → Closing
  | .tick io =>
    let io := { io with now := s.now + 1 }
    ⟨s.now + 1, (Call.service.run io s.conn).conn⟩
  | .segment io slot seg =>
    ⟨s.now, ((Call.segment slot seg).run { io with now := s.now } s.conn).conn⟩

def Closing.run (s : Closing) (events : List CloseEvent) : Closing := events.foldl Closing.step s

def closeAt (io : Io) (c : Conn) : Closing := ⟨io.now, (Call.close.run io c).conn⟩

def ticks : List CloseEvent → Nat
  | [] => 0
  | .tick _ :: rest => ticks rest + 1
  | .segment .. :: rest => ticks rest

/-- No segment has the sequence number that is expected when it arrives. -/
def Unheard : Closing → List CloseEvent → Prop
  | _, [] => True
  | s, .tick io :: rest => Unheard (s.step (.tick io)) rest
  | s, .segment io slot seg :: rest =>
    seg.seq ≠ s.conn.remoteSeqNext ∧ Unheard (s.step (.segment io slot seg)) rest

structure Lingers (c : Conn) : Prop where
  state : c.state = .finWait
  empty : c.txLen = 0

theorem Lingers.service (h : Lingers c) (io : Io) : (Call.service.run io c).conn = .zero ∨
      (Lingers (Call.service.run io c).conn ∧
        (Call.service.run io c).conn.lastActivity = c.lastActivity ∧
        (io.now - c.lastActivity).toNat ≤ tcpFinWaitTicks) := by
  obtain ⟨gone, -⟩ | ⟨early, -, _, _, conn⟩ := service_finWait h.state io
  · exact .inl gone
  · have state := congrArg Conn.state conn
    have len := congrArg Conn.txLen conn
    have active := congrArg Conn.lastActivity conn
    exact .inr ⟨⟨state.trans h.state, len.trans h.empty⟩, active, early⟩

/-- The connection is over, or it lingers and only data in order counted as activity. -/
def LingersOn (c d : Conn) (io : Io) (order : Prop) : Prop :=
  d = .zero ∨ (Lingers d ∧ (d.lastActivity = c.lastActivity ∨ (order ∧ d.lastActivity = io.now)))

theorem Lingers.processRxPayload (h : Lingers w.conn) (io : Io) (payload : List UInt8) (seq : UInt32)
    (fin : Bool) :
    LingersOn w.conn (w.processRxPayload io payload seq fin).conn io (seq = w.conn.remoteSeqNext) := by
  unfold Work.processRxPayload
  by_cases order : seq = w.conn.remoteSeqNext
  · rw [if_neg (not_not.mpr order)]
    extract_lets r
    have ring : OnlyRing (w.conn.touch io) r.1 := rxTake_onlyRing io _ payload
    have state : r.1.state = .finWait := ring.state.trans h.state
    have len : r.1.txLen = 0 := (congrArg TxView.txLen ring.tx).trans h.empty
    have active : r.1.lastActivity = io.now := congrArg CloseView.lastActivity ring.closing
    split_ifs
    · exact .inr ⟨⟨state, len⟩, .inr ⟨order, active⟩⟩
    · unfold tookFin
      dsimp only
      split_ifs
      · exact .inl rfl
      · exact .inr ⟨⟨state, len⟩, .inr ⟨order, active⟩⟩
  · rw [if_pos order]
    exact .inr ⟨h, .inl rfl⟩

theorem Lingers.inputRest (h : Lingers w.conn) (io : Io) (slot : Bool) (seg : Segment)
    (seq : UInt32) :
    LingersOn w.conn (w.inputRest io slot seg seq).conn io (seq = w.conn.remoteSeqNext) := by
  unfold Work.inputRest
  simp only [h.state]
  unfold inputData
  split_ifs
  · exact .inr ⟨h, .inl rfl⟩
  · exact h.processRxPayload io _ _ _

theorem Lingers.finAck (h : Lingers w.conn) (ack : UInt32) :
    (w.finAck ack).conn = .zero ∨ (Lingers (w.finAck ack).conn ∧
      (w.finAck ack).conn.lastActivity = w.conn.lastActivity ∧
      (w.finAck ack).conn.remoteSeqNext = w.conn.remoteSeqNext) := by
  unfold Work.finAck
  dsimp only
  split_ifs
  · exact .inr ⟨h, rfl, rfl⟩
  · exact .inl rfl
  · exact .inr ⟨⟨h.state, h.empty⟩, rfl, rfl⟩

theorem Lingers.inputAck (h : Lingers w.conn) (io : Io) (slot : Bool) (seg : Segment)
    (seq : UInt32) :
    LingersOn w.conn (w.inputAck io slot seg seq).conn io (seq = w.conn.remoteSeqNext) := by
  have same : w.txAck io seg.ackNo = w := by simp [Work.txAck, h.empty]
  unfold Work.inputAck
  rw [same]
  split_ifs
  · obtain gone | ⟨still, active, next⟩ := h.finAck seg.ackNo
    · have ended : (w.finAck seg.ackNo).inputRest io slot seg seq = w.finAck seg.ackNo := by
        simp [Work.inputRest, gone, Conn.zero]
      rw [ended]
      exact .inl gone
    · have rest := still.inputRest io slot seg seq
      rwa [LingersOn, active, next] at rest
  · exact h.inputRest io slot seg seq

theorem Lingers.segment (h : Lingers c) (io : Io) (slot : Bool) (seg : Segment) :
    LingersOn c ((Call.segment slot seg).run io c).conn io (seg.seq = c.remoteSeqNext) := by
  have window : Lingers ((start c).setWindow seg.window).conn := ⟨h.state, h.empty⟩
  change LingersOn c ((start c).input io slot seg).conn io _
  unfold input
  split_ifs with closed rst syn
  · exact .inr ⟨h, .inl rfl⟩
  · exact .inl rfl
  · cases h.state.symm.trans syn
  · exact window.inputAck io slot seg seg.seq

variable {s : Closing}

theorem Closing.step_zero (gone : s.conn = .zero) (e : CloseEvent) : (s.step e).conn = .zero := by
  have closed : s.conn.state = .closed := by rw [gone]; rfl
  cases e with
  | tick io => exact (congrArg Work.conn (call_closed closed _ .service).1).trans gone
  | segment io slot seg => exact (congrArg Work.conn (call_closed closed _ _).1).trans gone

theorem Closing.run_zero (gone : s.conn = .zero) (events : List CloseEvent) :
    (s.run events).conn = .zero := by
  induction events generalizing s with
  | nil => exact gone
  | cons e rest ih => exact ih (Closing.step_zero gone e)

def Closing.idle (s : Closing) : Nat := (s.now - s.conn.lastActivity).toNat

theorem idle_tick {now last : UInt32} (early : (now - last).toNat ≤ tcpFinWaitTicks) :
    (now + 1 - last).toNat = (now - last).toNat + 1 := by
  have hlimit : tcpFinWaitTicks = 18000 := rfl
  have hnow := Serial.eq_add_ofNat now last
  generalize (now - last).toNat = n at *
  rw [hnow, show (1 : UInt32) = UInt32.ofNat 1 from rfl, ← Serial.add_ofNat,
    Serial.toNat_add_sub _ (by omega)]

theorem Lingers.tick (h : Lingers s.conn) (early : s.idle ≤ tcpFinWaitTicks) (io : Io) :
    (s.step (.tick io)).conn = .zero ∨ (Lingers (s.step (.tick io)).conn ∧
      (s.step (.tick io)).idle = s.idle + 1 ∧ (s.step (.tick io)).idle ≤ tcpFinWaitTicks) := by
  have hidle : (s.now + 1 - s.conn.lastActivity).toNat = s.idle + 1 := idle_tick early
  obtain gone | ⟨still, active, early'⟩ := h.service { io with now := s.now + 1 }
  · exact .inl gone
  · have hstep : (s.step (.tick io)).idle = (s.now + 1 - s.conn.lastActivity).toNat := by
      rw [← active]
      rfl
    exact .inr ⟨still, hstep.trans hidle, hstep.trans_le early'⟩

theorem Lingers.hears (h : Lingers s.conn) (io : Io) (slot : Bool) (seg : Segment) :
    (s.step (.segment io slot seg)).conn = .zero ∨ (Lingers (s.step (.segment io slot seg)).conn ∧
      ((s.step (.segment io slot seg)).idle = s.idle ∨
        (seg.seq = s.conn.remoteSeqNext ∧ (s.step (.segment io slot seg)).idle = 0))) := by
  obtain gone | ⟨still, active⟩ := h.segment { io with now := s.now } slot seg
  · exact .inl gone
  · refine .inr ⟨still, active.imp (fun same => ?_) fun ⟨order, now⟩ => ⟨order, ?_⟩⟩
    · exact congrArg (fun last => (s.now - last).toNat) same
    · refine (congrArg (fun last => (s.now - last).toNat) now).trans ?_
      simp

theorem Lingers.keeps (h : Lingers s.conn) (early : s.idle ≤ tcpFinWaitTicks)
    (events : List CloseEvent) : (s.run events).conn = .zero ∨
      (Lingers (s.run events).conn ∧ (s.run events).idle ≤ tcpFinWaitTicks) := by
  induction events generalizing s with
  | nil => exact .inr ⟨h, early⟩
  | cons e rest ih =>
    cases e with
    | tick io =>
      obtain gone | ⟨still, -, early⟩ := h.tick early io
      · exact .inl (Closing.run_zero gone rest)
      · exact ih still early
    | segment io slot seg =>
      obtain gone | ⟨still, idle⟩ := h.hears io slot seg
      · exact .inl (Closing.run_zero gone rest)
      · exact ih still (by omega)

theorem Lingers.unheard (h : Lingers s.conn) (early : s.idle ≤ tcpFinWaitTicks)
    {events : List CloseEvent} (quiet : Unheard s events)
    (long : tcpFinWaitTicks + 1 ≤ ticks events + s.idle) : (s.run events).conn = .zero := by
  induction events generalizing s with
  | nil =>
    simp only [ticks] at long
    omega
  | cons e rest ih =>
    cases e with
    | tick io =>
      obtain gone | ⟨still, idle, early⟩ := h.tick early io
      · exact Closing.run_zero gone rest
      · simp only [ticks] at long
        exact ih still early quiet (by omega)
    | segment io slot seg =>
      obtain gone | ⟨still, same | ⟨inOrder, -⟩⟩ := h.hears io slot seg
      · exact Closing.run_zero gone rest
      · exact ih still (same ▸ early) quiet.2 (same ▸ long)
      · exact absurd inOrder quiet.1

theorem service_established (est : c.state = .established) (io : Io) :
    (Call.service.run io c).conn.state = .established := by
  have flushed : ((start c).txFlush io).conn.state = .established :=
    (txFlush_onlySent io _).state.trans est
  simp only [Call.run]
  unfold maybeRetransmit
  simp only [show (start c).conn.state = .established from est]
  split_ifs
  · exact (txRetransmit_flushes io _).sent.state.trans flushed
  · exact flushed

theorem closeAt_conn (est : c.state = .established) (io : Io) :
    (closeAt io c).conn = ((Work.start c).beginClose io).conn := by
  have close := beginClose_closing io (.start c) est
  have other : ¬(((start c).beginClose io).conn.state = .finWait ∧
      ((start c).beginClose io).conn.peerClosed = true ∧
      ((start c).beginClose io).conn.localFinAcked = true) := by
    rintro ⟨wait, -, acked⟩
    split_ifs at close
    · cases wait.symm.trans ((congrArg CloseView.state close).trans est)
    · cases acked.symm.trans (congrArg CloseView.localFinAcked close)
  simp only [closeAt, Call.run]
  unfold closeConnection
  simp only [show (start c).conn.state = .established from est]
  rw [if_neg other]

theorem closeAt_lingers (est : c.state = .established) (empty : c.txLen = 0) (io : Io) :
    Lingers (closeAt io c).conn ∧ (closeAt io c).idle ≤ tcpFinWaitTicks := by
  have sent : (closeAt io c).conn = Conn.finSent io { c with localWriteClosed := true } := by
    have other : ¬0 < (start c).conn.txLen := by simp [start, empty]
    rw [closeAt_conn est io, beginClose, if_neg (fun ne => ne est), if_neg other]
    rfl
  have idle : (closeAt io c).idle = (io.now - io.now).toNat := by
    rw [Closing.idle, sent]
    rfl
  rw [sent, idle, sub_self]
  exact ⟨⟨rfl, empty⟩, by decide⟩

theorem Closing.run_established (est : s.conn.state = .established) (io : Io)
    (n : Nat) : (s.run (List.replicate n (.tick io))).conn.state = .established := by
  induction n generalizing s with
  | zero => exact est
  | succ n ih => exact ih (service_established est _)

theorem ticks_append (l l' : List CloseEvent) : ticks (l ++ l') = ticks l + ticks l' := by
  induction l with
  | nil => exact (Nat.zero_add _).symm
  | cons e rest ih =>
    cases e with
    | tick => simp only [cons_append, ticks, ih, Nat.add_right_comm]
    | segment => exact ih

theorem ticks_replicate (io : Io) (n : Nat) : ticks (List.replicate n (.tick io)) = n := by
  induction n with
  | zero => rfl
  | succ n ih => rw [replicate_succ, ticks, ih]

theorem unheard_replicate (io : Io) (n : Nat) (s : Closing) :
    Unheard s (List.replicate n (.tick io)) := by
  induction n generalizing s with
  | zero => trivial
  | succ n ih => exact ih _

/-- Peers that send nothing in order any more once a FIN wait has passed. The record is free after
two of them just if nothing was queued at the close. -/
theorem closed_connection_released_iff (c : Conn) (est : c.state = .established) (io : Io) :
    (∀ early late, ticks early ≤ tcpFinWaitTicks + 1 → Unheard ((closeAt io c).run early) late →
      2 * (tcpFinWaitTicks + 1) ≤ ticks (early ++ late) →
      ((closeAt io c).run (early ++ late)).conn = .zero) ↔ c.txLen = 0 := by
  constructor
  · intro released
    by_contra queued
    have close := beginClose_closing io (.start c) est
    rw [if_pos (show 0 < (start c).conn.txLen from Nat.pos_of_ne_zero queued)] at close
    have still := Closing.run_established (s := closeAt io c)
      ((congrArg Conn.state (closeAt_conn est io)).trans ((congrArg CloseView.state close).trans est))
      io (2 * (tcpFinWaitTicks + 1))
    rw [← nil_append (replicate _ _), released [] _ (Nat.zero_le _) (unheard_replicate _ _ _)
      (ticks_replicate _ _).ge] at still
    cases still
  · intro empty early late soon quiet long
    obtain ⟨lingers, fresh⟩ := closeAt_lingers est empty io
    have split : (closeAt io c).run (early ++ late) = ((closeAt io c).run early).run late :=
      foldl_append
    rw [split]
    rw [ticks_append] at long
    obtain gone | ⟨still, idle⟩ := lingers.keeps fresh early
    · exact Closing.run_zero gone late
    · exact still.unheard idle quiet (by omega)

theorem closed_connection_released_silent :
    ((closeAt plainIo (openConn 1)).run (List.replicate 36002 (.tick plainIo))).conn = .zero := by
  have released (n : Nat) (long : 36002 ≤ n) :
      ((closeAt plainIo (openConn 1)).run (replicate n (.tick plainIo))).conn = .zero := by
    have released := (closed_connection_released_iff (openConn 1) rfl plainIo).mpr rfl
    refine released [] _ (Nat.zero_le _) (unheard_replicate _ _ _) ?_
    rw [nil_append, ticks_replicate]
    exact long
  exact released 36002 le_rfl

/-- The peer has acknowledged the FIN and not sent its own. -/
structure HalfClosed (s : Closing) : Prop where
  lingers : Lingers s.conn
  acked : s.conn.localFinAcked = true
  peer : s.conn.peerClosed = false
  next : s.conn.remoteSeqNext = 1

def heard : CloseEvent :=
  .segment plainIo true { dataSegment 1 [] with ack := true, ackNo := 0x534D414E }

theorem HalfClosed.hears (h : HalfClosed s) : HalfClosed (s.step heard) ∧ (s.step heard).idle = 0 := by
  have conn : (s.step heard).conn = { s.conn with remoteWindow := 0, lastActivity := s.now } := by
    simp [heard, Closing.step, Call.run, input, setWindow, inputAck, txAck, finAck, Work.inputRest,
      inputData, Work.processRxPayload, dataSegment, start, h.lingers.state, h.lingers.empty, h.acked,
      h.next, took, emitAck, emit, Conn.touch, Conn.rxTake]
  have idle : (s.step heard).idle = (s.now - s.now).toNat := by
    rw [Closing.idle, conn]
    rfl
  refine ⟨⟨?_, ?_, ?_, ?_⟩, idle.trans (by rw [sub_self]; rfl)⟩ <;> rw [conn]
  · exact ⟨h.lingers.state, h.lingers.empty⟩
  · exact h.acked
  · exact h.peer
  · exact h.next

theorem HalfClosed.tick (h : HalfClosed s) (idle : s.idle = 0) :
    HalfClosed (s.step (.tick plainIo)) := by
  obtain ⟨-, -, -, ⟨-, closed⟩ | ⟨unacked, -⟩ | late⟩ | ⟨-, -, _, _, conn⟩ :=
    service_finWait h.lingers.state { plainIo with now := s.now + 1 }
  · cases h.peer.symm.trans closed
  · cases h.acked.symm.trans unacked
  · have one := idle_tick (idle.trans_le (Nat.zero_le tcpFinWaitTicks))
    rw [one, show (s.now - s.conn.lastActivity).toNat = 0 from idle] at late
    exact absurd late (by decide)
  · change (s.step (.tick plainIo)).conn = _ at conn
    refine ⟨?_, ?_, ?_, ?_⟩ <;> rw [conn]
    · exact ⟨h.lingers.state, h.lingers.empty⟩
    · exact h.acked
    · exact h.peer
    · exact h.next

theorem HalfClosed.stays (h : HalfClosed s) (idle : s.idle = 0) (n : Nat) :
    HalfClosed (s.run (replicate n [.tick plainIo, heard]).flatten) := by
  induction n generalizing s with
  | zero => exact h
  | succ n ih =>
    obtain ⟨next, idle⟩ := (h.tick idle).hears
    exact ih next idle

theorem ticks_heard (n : Nat) :
    ticks (heard :: (replicate n [.tick plainIo, heard]).flatten) = n := by
  induction n with
  | zero => rfl
  | succ n ih => exact congrArg (· + 1) ih

/-- Data in the ring and a silent peer, or a peer that is heard once a tick: the connection is never
released. -/
theorem closed_connection_stays :
    (¬∃ limit : Nat, ∀ (isn : UInt32) (h : Hist), Reaches isn (fun _ _ _ => True) h →
      h.conn.state = .established → ∀ (io : Io) (events : List CloseEvent),
        Unheard (closeAt io h.conn) events → limit ≤ ticks events →
        ((closeAt io h.conn).run events).conn = .zero) ∧
    ¬∃ limit : Nat, ∀ (isn : UInt32) (h : Hist), Reaches isn (fun _ _ _ => True) h →
      h.conn.state = .established → h.conn.txLen = 0 → ∀ (io : Io) (events : List CloseEvent),
        limit ≤ ticks events → ((closeAt io h.conn).run events).conn = .zero := by
  constructor
  · rintro ⟨limit, released⟩
    have gone := released 0 _ reaches_sentTwo (by decide) plainIo
      (replicate limit (.tick plainIo)) (unheard_replicate _ _ _) (ticks_replicate _ _).ge
    have est : (closeAt plainIo Hist.sentTwo.conn).conn.state = .established := by decide
    have still := Closing.run_established est plainIo limit
    rw [gone] at still
    cases still
  · rintro ⟨limit, released⟩
    have gone := released 0 _ (reaches_opened trivial) (by decide) (by decide) plainIo _
      (ticks_heard limit).ge
    have half : HalfClosed ((closeAt plainIo (Hist.opened 1 []).conn).step heard) :=
      ⟨⟨by decide, by decide⟩, by decide, by decide, by decide⟩
    have still := (half.stays (by decide) limit).lingers.state
    rw [Closing.run, foldl_cons] at gone
    rw [Closing.run, gone] at still
    cases still

end SmallOS.Net
