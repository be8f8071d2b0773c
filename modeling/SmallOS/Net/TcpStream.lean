import SmallOS.Net.TcpRun

/-! The bytes that the application reads are the front of the peer's stream, over any calls and
over any segments that are part of one stream. -/

namespace SmallOS.Net

open Bytes Serial List Work Conn Hist

variable {slot : Bool} {call : Call} {io : Io} {off : Nat} {seg : Segment} {base : UInt32}
  {w : Work}

/-- A segment of the stream `stream` that starts behind the sequence number `isn`, of a peer that
closes after `finAt` bytes, if it does: `off` is the distance of its own number from `isn`. -/
structure FromPeer (isn : UInt32) (stream : Nat → UInt8) (finAt : Option Nat) (seg : Segment)
    (off : Nat) : Prop where
  seq : seg.seq = isn + UInt32.ofNat off
  syn : seg.syn = true ↔ off = 0
  payload : seg.payload = (List.range seg.payload.length).map fun i => stream (off - 1 + i)
  fin : seg.fin = true → finAt = some (off - 1 + seg.payload.length)
  last : ∀ n, finAt = some n → seg.payload ≠ [] → off - 1 + seg.payload.length ≤ n

/-- A segment that arrives less than a round of the sequence numbers away from its place. -/
def InTime (h : Hist) (off : Nat) : Prop :=
  off < 1 + h.count + 4294967296 ∧ 1 + h.count < off + 4294967296

/-- Any call; a segment is a RST, or one of the stream and in time. -/
def Heard (isn : UInt32) (stream : Nat → UInt8) (finAt : Option Nat) (_ : Io) (h : Hist)
    (call : Call) : Prop :=
  ∀ slot seg, call = .segment slot seg →
    seg.rst = true ∨ ∃ off, FromPeer isn stream finAt seg off ∧ InTime h off

structure InStream (stream : Nat → UInt8) (finAt : Option Nat) (h : Hist) : Prop where
  accepted : h.accepted = (List.range h.accepted.length).map stream
  fins : 0 < h.fins → h.fins = 1 ∧ finAt = some h.accepted.length
  returned : h.returned <+: h.accepted

variable {stream : Nat → UInt8} {isn : UInt32}

theorem prefix_of_range {a b : List UInt8} (h : a = (List.range a.length).map stream)
    (h' : b = (List.range b.length).map fun i => stream (a.length + i)) :
    a ++ b = (List.range (a ++ b).length).map stream := by
  rw [length_append, range_add, map_append, ← h, map_map]
  congr 1

section

variable {isn : UInt32} {stream : Nat → UInt8} {finAt : Option Nat} {h : Hist}

theorem Heard.answers (heard : Heard isn stream finAt io h call) : Answers isn h call := by
  intro slot seg same state rst syn
  obtain hrst | ⟨off, peer, -⟩ := heard slot seg same
  · simp [rst] at hrst
  · rw [peer.seq, peer.syn.mp syn]
    simp

structure Grows (stream : Nat → UInt8) (finAt : Option Nat) (h : Hist) (w : Work) : Prop where
  accepted : h.accepted ++ w.taken = (List.range (h.accepted ++ w.taken).length).map stream
  fins : 0 < h.fins + w.fin.toNat →
    h.fins + w.fin.toNat = 1 ∧ finAt = some (h.accepted ++ w.taken).length

theorem InStream.grows_none (s : InStream stream finAt h) (f : Fresh w) :
    Grows stream finAt h w := by
  constructor
  · rw [f.taken, append_nil]
    exact s.accepted
  · rw [f.taken, f.fin, append_nil, Bool.toNat_false, Nat.add_zero]
    exact s.fins

theorem InStream.grows (s : InStream stream finAt h)
    {seq : UInt32} (peer : FromPeer isn stream finAt seg off)
    (taken : Taken base seq seg w) (place : seq = base → off - 1 = h.count) :
    Grows stream finAt h w := by
  by_cases some : w.taken ≠ [] ∨ w.fin = true
  · have hoff := place (taken.inOrder some)
    have nofin : h.fins = 0 := by
      by_contra hfin
      obtain ⟨one, hend⟩ := s.fins (Nat.pos_of_ne_zero hfin)
      have hcount : h.count = h.accepted.length + 1 := by rw [Hist.count, one]
      have hnone : seg.payload = [] := by
        by_contra hne
        have := peer.last _ hend hne
        omega
      obtain hne | hw := some
      · exact hne (prefix_nil.mp (hnone ▸ taken.payload))
      · have := (peer.fin (taken.fin hw).1).symm.trans hend
        simp only [Option.some_inj, hnone, length_nil] at this
        omega
    have hcount : h.count = h.accepted.length := by rw [Hist.count, nofin, Nat.add_zero]
    have hbytes : w.taken = (range w.taken.length).map fun i => stream (h.accepted.length + i) := by
      have hlen := taken.payload.length_le
      have htake := prefix_iff_eq_take.mp taken.payload
      rw [peer.payload, ← map_take, take_range, Nat.min_eq_left hlen, hoff, hcount] at htake
      exact htake
    refine ⟨prefix_of_range s.accepted hbytes, fun some => ?_⟩
    have fin : w.fin = true := by
      by_contra hfin
      simp [nofin, Bool.eq_false_iff.mpr hfin] at some
    obtain ⟨hseg, hall⟩ := taken.fin fin
    refine ⟨by rw [nofin, fin, Bool.toNat_true], ?_⟩
    rw [peer.fin hseg, length_append, hall, hoff, hcount]
  · simp only [not_or, not_not, Bool.not_eq_true] at some
    exact s.grows_none ⟨some.1, some.2⟩

theorem Grows.inStream (g : Grows stream finAt h (call.run io h.conn).toWork)
    (s : InStream stream finAt h) (ok : CallOk h.conn base (call.run io h.conn))
    (unread : h.conn.localReadClosed = false → h.returned ++ h.conn.unread = h.accepted) :
    InStream stream finAt (h.step io call) := by
  refine ⟨g.accepted, g.fins, ?_⟩
  change h.returned ++ (call.run io h.conn).returned <+: h.accepted ++ (call.run io h.conn).taken
  obtain none | ⟨reads, pre⟩ := ok.returned
  · rw [none, append_nil]
    exact s.returned.trans (prefix_append _ _)
  · rw [← unread reads, append_assoc]
    exact prefix_append_right_inj _ |>.mpr (pre.trans (prefix_append _ _))

theorem InTime.place (inTime : InTime h off) (peer : FromPeer isn stream finAt seg off)
    (next : h.conn.remoteSeqNext = isn + UInt32.ofNat (1 + h.count))
    (same : seg.seq = h.conn.remoteSeqNext) : off - 1 = h.count := by
  rw [peer.seq, next] at same
  have := Serial.eq_of_add_eq same (by have := inTime.2; omega) (by have := inTime.1; omega)
  omega

theorem Heard.grows_synced (heard : Heard isn stream finAt io h call)
    (s : InStream stream finAt h) (state : h.conn.state.synced = true) (sound : h.conn.RxSound)
    (next : h.conn.remoteSeqNext = isn + UInt32.ofNat (1 + h.count)) :
    Grows stream finAt h (call.run io h.conn).toWork := by
  by_cases segment : ∃ slot seg, call = .segment slot seg
  · obtain ⟨slot, seg, rfl⟩ := segment
    obtain rst | ⟨off, peer, inTime⟩ := heard slot seg rfl
    · refine s.grows_none (w := (Work.start h.conn).input io slot seg) ?_
      unfold input
      split_ifs <;> exact ⟨rfl, rfl⟩
    · exact s.grows peer (input_synced sound state io slot seg).2 (inTime.place peer next)
  · refine s.grows_none (call_fresh sound state io fun slot seg same => ?_)
    exact segment ⟨slot, seg, same⟩

theorem InStream.step (s : InStream stream finAt h) (stands : Stands isn h)
    (heard : Heard isn stream finAt io h call) : InStream stream finAt (h.step io call) := by
  cases stands with
  | ended closed =>
    obtain ⟨same, none⟩ := call_closed (congrArg Conn.state closed) io call
    have g : Grows stream finAt h (call.run io h.conn).toWork := s.grows_none (same ▸ ⟨rfl, rfl⟩)
    refine ⟨g.accepted, g.fins, ?_⟩
    change h.returned ++ (call.run io h.conn).returned <+: _
    rw [none, append_nil]
    exact s.returned.trans (prefix_append _ _)
  | waiting state sound none request accepted fins returned =>
    obtain waits | ⟨slot, seg, rfl, rst, syn, ok, taken⟩ := call_synSent sound state none io call
    · have g := s.grows_none waits.fresh
      refine ⟨g.accepted, g.fins, ?_⟩
      change h.returned ++ (call.run io h.conn).returned <+: _
      rw [returned, waits.returned]
      exact nil_prefix
    · obtain hrst | ⟨off, peer, -⟩ := heard slot seg rfl
      · simp [rst] at hrst
      have hcount : h.count = 0 := by simp [Hist.count, accepted, fins]
      have hoff : off = 0 := peer.syn.mp syn
      refine (s.grows peer taken fun _ => by omega).inStream s ok fun _ => ?_
      simp [returned, accepted, Conn.unread, none]
  | synced state sound next unread =>
    exact (heard.grows_synced s state sound next).inStream s (call_ok sound state io call) unread

theorem Reaches.inStream (r : Reaches isn (Heard isn stream finAt) h) : InStream stream finAt h := by
  induction r with
  | accept io ip id seg seq => exact ⟨rfl, by simp [Hist.start], prefix_rfl⟩
  | connect io ip id port mac remote remotePort =>
    exact ⟨rfl, by simp [Hist.start], prefix_rfl⟩
  | call r io call heard ih => exact ih.step (r.stands fun _ _ _ => Heard.answers) heard

end

/-- Whatever is lost, repeated, reordered or cut, and whenever there is no memory: the application
reads the front of the stream, and each acknowledgement counts what was accepted of it. -/
theorem received_front_of_stream {isn : UInt32} {stream : Nat → UInt8} {finAt : Option Nat}
    {h : Hist} (r : Reaches isn (Heard isn stream finAt) h) :
    h.returned = (List.range h.returned.length).map stream ∧
      (∀ io ip id seg, seg.seq = isn → ∀ s ∈ (acceptSyn io ip id seg).out, s.ack = isn + 1) ∧
      ∀ io call, Heard isn stream finAt io h call → ∀ s ∈ (call.run io h.conn).out, s.kind ≠ .syn →
          s.ack = isn + UInt32.ofNat (1 + h.count + s.taken) := by
  have s := r.inStream
  refine ⟨?_, ?_, ?_⟩
  · have hlen := s.returned.length_le
    have htake := prefix_iff_eq_take.mp s.returned
    rwa [s.accepted, ← map_take, take_range, Nat.min_eq_left hlen] at htake
  · intro io ip id seg seq s hs
    simp only [acceptSyn, emit, Work.start, nil_append, mem_singleton] at hs
    rw [hs, ← seq]
  · intro io call heard sent hsent other
    rw [Serial.add_ofNat]
    exact (r.stands fun _ _ _ => Heard.answers).acks io heard.answers sent hsent other

def plainIo : Io := ⟨0, fun _ => true, some zeros, some zeros⟩

def openConn (next : UInt32) : Conn := { Conn.zero with
  state := .established
  remoteSeqNext := next
  localSeqNext := 0x534D414D
  txSeqBase := 0x534D414D
  txNextSend := 0x534D414D
  retransmitAt := tcpRetryTicks }

def dataSegment (seq : UInt32) (payload : List UInt8) : Segment :=
  ⟨[], 0, 0, 0, seq, 0, false, false, false, false, 0, payload⟩

def openSegment : Segment := { dataSegment 1 [] with ack := true, ackNo := 0x534D414D }

theorem openConn_segment (next : UInt32) (x : UInt8) :
    let d := (Call.segment true (dataSegment next [x])).run plainIo (openConn next)
    d.taken = [x] ∧ d.fin = false ∧ d.returned = [] ∧
      d.conn = { openConn (next + 1) with rxBuf := some (storeRing zeros 0 [x]), rxLen := 1 } := by
  simp [Call.run, input, Work.start, openConn, dataSegment, setWindow, inputAck,
    inputRest, inputData, tcpMaxPayload, processRxPayload, touch, rxTake,
    rxPush, rxEnsure, plainIo, tcpRxBufferSize, Conn.zero, took, emitAck,
    emit]

theorem openConn_recv (next : UInt32) (x : UInt8) :
    let d := (Call.recv 1).run plainIo
      { openConn next with rxBuf := some (storeRing zeros 0 [x]), rxLen := 1 }
    d.taken = [] ∧ d.fin = false ∧ d.returned = [x] ∧ d.conn = openConn next := by
  simp [Call.run, Work.start, recv, openConn, Conn.zero, rxPop, rxRelease, loadRing,
    tcpRxBufferSize, emitAck, emit, storeRing, copy, ofList, Except.toOption]

def Hist.opened (next : UInt32) (returned : List UInt8) : Hist :=
  ⟨openConn next, 0x534D414D, returned, 0, returned, []⟩

theorem opened_step (next : UInt32) (returned : List UInt8) (x : UInt8) :
    ((Hist.opened next returned).step plainIo (.segment true (dataSegment next [x]))).step plainIo
      (.recv 1) = .opened (next + 1) (returned ++ [x]) := by
  obtain ⟨taken, fin, none, conn⟩ := openConn_segment next x
  obtain ⟨taken', fin', one, conn'⟩ := openConn_recv (next + 1) x
  simp only [step, opened, taken, fin, none, conn, taken', fin', one, conn']
  simp [Call.run]

section

variable {ok : Io → Hist → Call → Prop}

theorem reaches_opened (h : ok plainIo (.start (acceptSyn plainIo 0 0 (dataSegment 0 [])).conn)
    (.segment true openSegment)) : Reaches 0 ok (.opened 1 []) :=
  (Reaches.accept plainIo 0 0 (dataSegment 0 []) rfl).call plainIo (.segment true openSegment) h

theorem Reaches.opened_step {next : UInt32} {returned : List UInt8}
    (r : Reaches isn ok (.opened next returned)) {x : UInt8}
    (h : ok plainIo (.opened next returned) (.segment true (dataSegment next [x])))
    (h' : ∀ h, ok plainIo h (.recv 1)) : Reaches isn ok (.opened (next + 1) (returned ++ [x])) := by
  rw [← SmallOS.Net.opened_step]
  exact (r.call plainIo (.segment true (dataSegment next [x])) h).call plainIo (.recv 1) (h' _)

end

theorem fromPeer_openSegment (stream : Nat → UInt8) : FromPeer 0 stream none openSegment 1 :=
  ⟨rfl, by decide, rfl, by decide, by simp⟩

theorem fromPeer_dataSegment (stream : Nat → UInt8) (n : Nat) :
    FromPeer 0 stream none (dataSegment (UInt32.ofNat (n + 1)) [stream n]) (n + 1) :=
  ⟨by simp [dataSegment], by simp [dataSegment], by simp [dataSegment], by simp [dataSegment],
    by simp⟩

theorem heard_of_fromPeer {h : Hist} {finAt : Option Nat}
    (peer : FromPeer isn stream finAt seg off) (inTime : InTime h off) :
    Heard isn stream finAt io h (.segment slot seg) := by
  intro slot' seg' same
  cases same
  exact .inr ⟨off, peer, inTime⟩

theorem received_front_of_stream_one_byte : Reaches 0 (Heard 0 (fun _ => 7) none) (.opened 2 [7]) ∧
      (Hist.opened 2 [7]).returned = (List.range 1).map (fun _ => 7) ∧
      ∀ s ∈ ((Call.recv 5).run plainIo (openConn 2)).out, s.kind ≠ .syn →
        s.ack = 0 + UInt32.ofNat (1 + 1 + s.taken) := by
  have recv : ∀ h len, Heard 0 (fun _ => 7) none plainIo h (.recv len) :=
    fun h len slot seg same => by cases same
  have r : Reaches 0 (Heard 0 (fun _ => 7) none) (.opened 2 [7]) :=
    (reaches_opened (heard_of_fromPeer (fromPeer_openSegment _) ⟨by decide, by decide⟩)).opened_step
      (heard_of_fromPeer (fromPeer_dataSegment (fun _ => 7) 0) ⟨by decide, by decide⟩) (recv · 1)
  have front := received_front_of_stream r
  exact ⟨r, front.1, front.2.2 plainIo (.recv 5) (recv _ 5)⟩

/-- Any call; a segment is one of the stream, however old it is. -/
def HeardLate (isn : UInt32) (stream : Nat → UInt8) (finAt : Option Nat) (_ : Io) (_ : Hist)
    (call : Call) : Prop :=
  ∀ slot seg, call = .segment slot seg → ∃ off, FromPeer isn stream finAt seg off

theorem heardLate_of_fromPeer {h : Hist} {finAt : Option Nat}
    (peer : FromPeer isn stream finAt seg off) :
    HeardLate isn stream finAt io h (.segment slot seg) := by
  intro slot' seg' same
  cases same
  exact ⟨off, peer⟩

theorem reaches_round (stream : Nat → UInt8) (n : Nat) : Reaches 0 (HeardLate 0 stream none)
      (.opened (UInt32.ofNat (n + 1)) ((List.range n).map stream)) := by
  induction n with
  | zero => exact reaches_opened (heardLate_of_fromPeer (fromPeer_openSegment stream))
  | succ n ih =>
    have next := ih.opened_step (heardLate_of_fromPeer (fromPeer_dataSegment stream n))
      fun h slot seg same => by cases same
    rw [range_succ, map_append, map_singleton, UInt32.ofNat_add (n + 1)]
    exact next

/-- After all sequence numbers have been used, the first segment is taken again if it comes
again. -/
theorem late_segment_taken_again :
    ¬∀ (isn : UInt32) (stream : Nat → UInt8) (finAt : Option Nat) (h : Hist),
      Reaches isn (HeardLate isn stream finAt) h →
      h.returned = (List.range h.returned.length).map stream := by
  intro always
  let stream : Nat → UInt8 := fun i => if i < 4294967296 then 0 else 1
  have r := (reaches_round stream 4294967296).opened_step
    (heardLate_of_fromPeer (fromPeer_dataSegment stream 0)) fun h slot seg same => by cases same
  have last := congrArg (fun l : List UInt8 => l[4294967296]?) (always _ _ _ _ r)
  simp only [opened] at last
  rw [getElem?_append_right (by simp)] at last
  simp [stream] at last

end SmallOS.Net
