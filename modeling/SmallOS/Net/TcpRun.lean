import SmallOS.Net.TcpReceive

/-! A connection from its SYN on, over any calls and any segments: what one call does to it, and
where it stands after all calls so far. -/

namespace SmallOS.Net

open Bytes Serial List Option Work

variable {call : Call} {seg : Segment} {base : UInt32} {w : Work} {c : Conn} {io : Io}

/-- A connection with the number of the first byte it sends, what it took from its peer, bytes and
FINs, what it gave to the application and what it took from there. -/
structure Hist where
  conn : Conn
  first : UInt32
  accepted : List UInt8
  fins : Nat
  returned : List UInt8
  queued : List UInt8

def Hist.start (c : Conn) : Hist := ⟨c, c.localSeqNext + 1, [], 0, [], []⟩

def Hist.count (h : Hist) : Nat := h.accepted.length + h.fins

def Hist.step (io : Io) (h : Hist) (call : Call) : Hist :=
  let d := call.run io h.conn
  ⟨d.conn, h.first, h.accepted ++ d.taken, h.fins + d.fin.toNat, h.returned ++ d.returned,
    h.queued ++ d.queued⟩

theorem Hist.count_step (io : Io) (h : Hist) (call : Call) :
    (h.step io call).count = h.count + (call.run io h.conn).count := by
  simp only [Hist.count, Hist.step, Work.count, length_append]
  omega

structure Left (c : Conn) (base : UInt32) (d : Done) : Prop where
  synced : d.conn.state.synced = true
  sound : d.conn.RxSound
  next : d.conn.remoteSeqNext = base + UInt32.ofNat d.count
  pending : d.conn.localReadClosed = false →
    c.localReadClosed = false ∧ d.returned ++ d.conn.unread = c.unread ++ d.taken

structure CallOk (c : Conn) (base : UInt32) (d : Done) : Prop where
  acks : Acks base d.out
  after : d.conn = .zero ∨ Left c base d
  returned : d.returned = [] ∨ (c.localReadClosed = false ∧ d.returned <+: c.unread)

theorem RxAfter.callOk (h : RxAfter base c.pending w)
    (queued : List UInt8) : CallOk c base ⟨w, [], queued⟩ := by
  refine ⟨h.acks, ?_, .inl rfl⟩
  obtain ok | gone := h
  · refine .inr ⟨ok.synced, ok.sound, ok.next, fun reads => ?_⟩
    obtain ⟨o, ho, found⟩ := map_eq_some_iff.mp (ok.unread reads)
    unfold Conn.pending at ho
    split_ifs at ho with shut
    exact ⟨by simpa using shut, by rw [nil_append, ← found, some_inj.mp ho]⟩
  · exact .inl gone.1

theorem Reads.callOk {bytes : List UInt8} (r : Reads c w bytes)
    (synced : c.state.synced = true) (shut : c.localReadClosed = true → bytes = []) :
    CallOk c c.remoteSeqNext ⟨w, bytes, []⟩ := by
  have hcount : w.count = 0 := by simp [Work.count, r.fresh.taken, r.fresh.fin]
  refine ⟨r.acks, .inr ⟨?_, r.sound, ?_, fun reads => ⟨?_, ?_⟩⟩, ?_⟩
  · exact (congrArg TcpState.synced r.ring.state).trans synced
  · change w.conn.remoteSeqNext = _ + UInt32.ofNat w.count
    rw [hcount, r.ring.remoteSeqNext]
    simp
  · exact r.ring.localReadClosed.symm.trans reads
  · change bytes ++ w.conn.unread = c.unread ++ w.taken
    rw [r.bytes, r.fresh.taken, append_nil]
  · cases hshut : c.localReadClosed with
    | true => exact .inl (shut hshut)
    | false => exact .inr ⟨rfl, w.conn.unread, r.bytes⟩

theorem recv_shut (shut : c.localReadClosed = true) (len : Nat) :
    ((Work.start c).recv len).2.toOption.getD [] = [] := by
  unfold recv
  dsimp only
  split_ifs
  · rfl
  · rfl
  all_goals exact absurd shut (by assumption)

theorem call_ok (h : c.RxSound) (synced : c.state.synced = true) (io : Io) (call : Call) :
    CallOk c c.remoteSeqNext (call.run io c) := by
  have start : RxOk c.remoteSeqNext c.pending (.start c) := .start h synced
  cases call with
  | segment slot seg => exact (input_synced h synced io slot seg).1.callOk []
  | service => exact (start.maybeRetransmit io).1.callOk []
  | recv len => exact (recv_reads h len).callOk synced fun shut => recv_shut shut len
  | send data => exact (Transmits.keeps (send_transmits io _ data) start).1.callOk _
  | shutdown how => exact (start.shutdown io how).1.callOk []
  | close => exact (start.closeConnection io).1.callOk []

theorem call_fresh (h : c.RxSound) (synced : c.state.synced = true) (io : Io)
    (other : ∀ slot seg, call ≠ .segment slot seg) : Fresh (call.run io c).toWork := by
  have start : RxOk c.remoteSeqNext c.pending (.start c) := .start h synced
  have fresh : Fresh (.start c) := ⟨rfl, rfl⟩
  cases call with
  | segment slot seg => exact absurd rfl (other slot seg)
  | service => exact fresh.keeps (start.maybeRetransmit io)
  | recv len => exact (recv_reads h len).fresh
  | send data => exact fresh.keeps (Transmits.keeps (send_transmits io _ data) start)
  | shutdown how => exact fresh.keeps (start.shutdown io how)
  | close => exact fresh.keeps (start.closeConnection io)

theorem send_refused (other : w.conn.state ≠ .established) (io : Io)
    (data : List UInt8) : (w.send io data).1 = w := by
  unfold send
  split_ifs <;> rfl

theorem recv_empty (empty : c.rxLen = 0) (len : Nat) : ((Work.start c).recv len).1 = .start c ∧
      ((Work.start c).recv len).2.toOption.getD [] = [] := by
  unfold recv
  dsimp only
  split_ifs
  · exact ⟨rfl, rfl⟩
  · exact ⟨rfl, rfl⟩
  · exact ⟨rfl, rfl⟩
  · exact ⟨rfl, rfl⟩
  all_goals exact absurd empty (by assumption)

theorem call_closed (closed : c.state = .closed) (io : Io) (call : Call) :
    (call.run io c).toWork = .start c ∧ (call.run io c).returned = [] := by
  have ended : (start c).conn.state = .closed := closed
  cases call with
  | segment slot seg => simp [Call.run, input, ended]
  | service => simp [Call.run, maybeRetransmit, ended]
  | recv len =>
    simp only [Call.run, Work.recv, ended, if_true]
    exact ⟨trivial, rfl⟩
  | send data => exact ⟨send_refused (by rw [ended]; decide) io data, rfl⟩
  | shutdown how => simp [Call.run, Work.shutdown, ended]
  | close => simp [Call.run, closeConnection, ended]

structure Waits (c : Conn) (d : Done) : Prop where
  fresh : Fresh d.toWork
  conn : d.conn = .zero ∨
    (d.conn.rx = c.rx ∧ d.conn.state = .synSent ∧ d.conn.closeRequested = c.closeRequested)
  out : ∀ s ∈ d.out, s.kind = .syn
  returned : d.returned = []

theorem call_synSent (h : c.RxSound) (syn : c.state = .synSent) (empty : c.rxBuf = none) (io : Io)
    (call : Call) :
    Waits c (call.run io c) ∨ ∃ slot seg, call = .segment slot seg ∧ seg.rst = false ∧ seg.syn = true ∧
      CallOk c (seg.seq + 1) (call.run io c) ∧
        Taken (seg.seq + 1) (seg.seq + 1) seg (call.run io c).toWork := by
  have state : (start c).conn.state = .synSent := syn
  have idle : Waits c ⟨.start c, [], []⟩ :=
    ⟨⟨rfl, rfl⟩, .inr ⟨rfl, syn, rfl⟩, by simp [start], rfl⟩
  cases call with
  | segment slot seg =>
    obtain ⟨fresh, out, conn⟩ | ⟨rst, hsyn, after, taken⟩ := input_synSent h syn io slot seg
    · refine .inl ⟨fresh, conn, ?_, rfl⟩
      intro s hs
      change s ∈ ((start c).input io slot seg).out at hs
      rw [out] at hs
      cases hs
    · exact .inr ⟨slot, seg, rfl, rst, hsyn, after.callOk [], taken⟩
  | service =>
    left
    simp only [Call.run, maybeRetransmit, state]
    split_ifs
    · exact idle
    · unfold retry
      split_ifs
      · exact ⟨⟨rfl, rfl⟩, .inl rfl, by simp [reset, start], rfl⟩
      · exact ⟨⟨rfl, rfl⟩, .inr ⟨rfl, syn, rfl⟩, by simp [emit, start], rfl⟩
  | recv len =>
    left
    obtain ⟨same, none⟩ := recv_empty (h.bare empty) len
    simp only [Call.run, same, none]
    exact idle
  | send data =>
    left
    simp only [Call.run, send_refused (show (start c).conn.state ≠ .established by
      rw [state]; decide)]
    exact ⟨⟨rfl, rfl⟩, .inr ⟨rfl, syn, rfl⟩, by simp [start], rfl⟩
  | shutdown how =>
    left
    simpa [Call.run, Work.shutdown, state] using idle
  | close =>
    left
    simp only [Call.run, closeConnection, state]
    exact ⟨⟨rfl, rfl⟩, .inl rfl, by simp [reset, start], rfl⟩

/-- The histories of connections whose calls satisfy `ok`: from a SYN of the peer with the number
`isn` on, or from our own. -/
inductive Reaches (isn : UInt32) (ok : Io → Hist → Call → Prop) : Hist → Prop
  | accept (io : Io) (ip id : Nat) (seg : Segment) (seq : seg.seq = isn) :
    Reaches isn ok (.start (acceptSyn io ip id seg).conn)
  | connect (io : Io) (ip id port : Nat) (mac : List UInt8) (remote remotePort : Nat) :
    Reaches isn ok (.start (connectSyn io ip id port mac remote remotePort).conn)
  | call {h : Hist} (r : Reaches isn ok h) (io : Io) (call : Call) (heard : ok io h call) :
    Reaches isn ok (h.step io call)

def Answers (isn : UInt32) (h : Hist) (call : Call) : Prop :=
  ∀ slot seg, call = .segment slot seg → h.conn.state = .synSent → seg.rst = false →
    seg.syn = true → seg.seq = isn

inductive Stands (isn : UInt32) (h : Hist) : Prop
  | ended (closed : h.conn = .zero)
  | waiting (state : h.conn.state = .synSent) (sound : h.conn.RxSound) (none : h.conn.rxBuf = none)
    (request : h.conn.closeRequested = false) (accepted : h.accepted = []) (fins : h.fins = 0)
    (returned : h.returned = [])
  | synced (state : h.conn.state.synced = true) (sound : h.conn.RxSound)
    (next : h.conn.remoteSeqNext = isn + UInt32.ofNat (1 + h.count))
    (unread : h.conn.localReadClosed = false → h.returned ++ h.conn.unread = h.accepted)

section

variable {isn : UInt32} {h : Hist}

theorem Stands.accept (io : Io) (ip id : Nat) (seq : seg.seq = isn) :
    Stands isn (.start (acceptSyn io ip id seg).conn) := by
  refine .synced rfl ⟨fun _ => rfl, Nat.zero_le _, rxSize_pos⟩ ?_ fun _ => rfl
  rw [← seq]
  rfl

theorem Stands.connect (io : Io) (ip id port : Nat) (mac : List UInt8) (remote remotePort : Nat) :
    Stands isn (.start (connectSyn io ip id port mac remote remotePort).conn) :=
  .waiting rfl ⟨fun _ => rfl, Nat.zero_le _, rxSize_pos⟩ rfl rfl rfl rfl rfl

theorem CallOk.stands {io : Io} (ok : CallOk h.conn base (call.run io h.conn))
    (hbase : base = isn + UInt32.ofNat (1 + h.count))
    (unread : h.conn.localReadClosed = false → h.returned ++ h.conn.unread = h.accepted) :
    Stands isn (h.step io call) := by
  obtain gone | left := ok.after
  · exact .ended gone
  · refine .synced left.synced left.sound ?_ fun reads => ?_
    · rw [Hist.count_step, ← Nat.add_assoc, Serial.add_ofNat, ← hbase]
      exact left.next
    · obtain ⟨hreads, bytes⟩ := left.pending reads
      change h.returned ++ (call.run io h.conn).returned ++ (call.run io h.conn).conn.unread =
        h.accepted ++ (call.run io h.conn).taken
      rw [append_assoc, bytes, ← append_assoc, unread hreads]

theorem Stands.answered (seq : seg.seq = isn) (accepted : h.accepted = [])
    (fins : h.fins = 0) : seg.seq + 1 = isn + UInt32.ofNat (1 + h.count) := by
  simp [seq, Hist.count, accepted, fins]

theorem Stands.step (stands : Stands isn h) (io : Io) (answers : Answers isn h call) :
    Stands isn (h.step io call) := by
  cases stands with
  | ended closed =>
    refine .ended ?_
    change (call.run io h.conn).conn = _
    rw [(call_closed (congrArg Conn.state closed) io call).1]
    exact closed
  | waiting state sound none request accepted fins returned =>
    obtain waits | ⟨slot, seg, rfl, rst, syn, ok, -⟩ := call_synSent sound state none io call
    · obtain gone | ⟨rx, state', request'⟩ := waits.conn
      · exact .ended gone
      · refine .waiting state' (.of_rx rx sound) ((congrArg RxView.rxBuf rx).trans none)
          (request'.trans request) ?_ ?_ ?_
        · simp only [Hist.step, accepted, waits.fresh.taken, append_nil]
        · simp only [Hist.step, fins, waits.fresh.fin, Bool.toNat_false]
        · simp only [Hist.step, returned, waits.returned, append_nil]
    · refine ok.stands (answered (answers slot seg rfl state rst syn) accepted fins) fun _ => ?_
      simp [returned, accepted, Conn.unread, none]
  | synced state sound next unread => exact (call_ok sound state io call).stands next unread

theorem Stands.acks (stands : Stands isn h) (io : Io) (answers : Answers isn h call) :
    Acks (isn + UInt32.ofNat (1 + h.count)) (call.run io h.conn).out := by
  cases stands with
  | ended closed =>
    rw [(call_closed (congrArg Conn.state closed) io call).1]
    simp [Acks, start]
  | waiting state sound none request accepted fins returned =>
    obtain waits | ⟨slot, seg, rfl, rst, syn, ok, -⟩ := call_synSent sound state none io call
    · exact fun s hs other => absurd (waits.out s hs) other
    · rw [← answered (answers slot seg rfl state rst syn) accepted fins]
      exact ok.acks
  | synced state sound next unread =>
    rw [← next]
    exact (call_ok sound state io call).acks

theorem Reaches.stands {ok : Io → Hist → Call → Prop} (r : Reaches isn ok h)
    (answers : ∀ io h call, ok io h call → Answers isn h call) : Stands isn h := by
  induction r with
  | accept io ip id seg seq => exact .accept io ip id seq
  | connect io ip id port mac remote remotePort => exact .connect io ip id port mac remote remotePort
  | call r io call heard ih => exact ih.step io (answers io _ call heard)

end

end SmallOS.Net
