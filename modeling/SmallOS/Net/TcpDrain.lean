import SmallOS.Net.TcpStream

/-! What becomes of the data that a connection has acknowledged and nobody has read yet. It stays as
long as the connection does, so that the question is what ends one. -/

namespace SmallOS.Net

open Bytes Serial List Work Conn

variable {e : Conn} {seg : Segment} {base : UInt32} {c d : Conn} {w : Work} {io : Io}

structure CloseView where
  state : TcpState
  localSeqNext : UInt32
  lastActivity : UInt32
  retransmitAt : UInt32
  retries : Nat
  closeRequested : Bool
  peerClosed : Bool
  localReadClosed : Bool
  localFinAcked : Bool

def Conn.closing (c : Conn) : CloseView :=
  ⟨c.state, c.localSeqNext, c.lastActivity, c.retransmitAt, c.retries, c.closeRequested,
    c.peerClosed, c.localReadClosed, c.localFinAcked⟩

theorem OnlySent.closing (h : OnlySent c d) : d.closing = c.closing := by
  obtain ⟨_, _, _, rfl⟩ := h
  rfl

theorem txPop_closing (c : Conn) (len : Nat) : (c.txPop len).closing = c.closing := by
  unfold txPop txRelease
  dsimp only
  split_ifs <;> rfl

theorem OnlyRing.closing (h : OnlyRing c d) : d.closing = c.closing := by
  obtain ⟨_, _, _, _, rfl⟩ := h
  rfl

theorem beginClose_closing (io : Io) (w : Work) (est : w.conn.state = .established) :
    (w.beginClose io).conn.closing =
      if 0 < w.conn.txLen then { w.conn.closing with closeRequested := true }
      else (w.conn.finSent io).closing := by
  unfold beginClose
  rw [if_neg (not_not.mpr est)]
  split_ifs
  · exact (txFlush_onlySent io _).closing
  · rfl

def Conn.finEnd (c : Conn) : UInt32 :=
  if c.state = .finWait then c.localSeqNext else c.localSeqNext + 1

/-- Our FIN is out, or goes out as soon as the data before it is acknowledged. -/
def Conn.Closes (c : Conn) : Prop := c.state = .finWait ∨ c.closeRequested = true

def Conn.FinAcked (c : Conn) (seg : Segment) : Prop :=
  c.localFinAcked = true ∨ (seg.ack = true ∧ before seg.ackNo c.finEnd = false)

def Conn.PeerFin (c : Conn) (seg : Segment) : Prop :=
  c.peerClosed = true ∨ (seg.fin = true ∧ seg.seq = c.remoteSeqNext)

def Conn.Finishes (c : Conn) (seg : Segment) : Prop :=
  c.Closes ∧ c.FinAcked seg ∧ c.PeerFin seg

def Conn.Expires (io : Io) (c : Conn) : Prop :=
  c.state = .finWait ∧
    ((c.localFinAcked = true ∧ c.peerClosed = true) ∨
      (c.localFinAcked = false ∧ c.retransmitAt ≠ 0 ∧ c.retransmitAt ≤ io.now ∧
        tcpMaxRetries ≤ c.retries) ∨
      tcpFinWaitTicks < (io.now - c.lastActivity).toNat)

structure GoesOn (c d : Conn) : Prop where
  reads : d.localReadClosed = c.localReadClosed
  rcvd : d.state = .synRcvd → c.state = .synRcvd
  live : d.state = .closed → c.state = .closed

theorem GoesOn.of_state (reads : d.localReadClosed = c.localReadClosed) (state : d.state = c.state) :
    GoesOn c d :=
  ⟨reads, state.symm.trans, state.symm.trans⟩

theorem GoesOn.of_closing (h : d.closing = c.closing) : GoesOn c d :=
  .of_state (congrArg CloseView.localReadClosed h) (congrArg CloseView.state h)

theorem GoesOn.trans (h : GoesOn c d) (h' : GoesOn d e) : GoesOn c e :=
  ⟨h'.reads.trans h.reads, h.rcvd ∘ h'.rcvd, h.live ∘ h'.live⟩

theorem GoesOn.of_established (reads : d.localReadClosed = c.localReadClosed)
    (state : d.state = .established ∨ d.state = .finWait) : GoesOn c d := by
  refine ⟨reads, fun rcvd => ?_, fun closed => ?_⟩
  · simp [rcvd] at state
  · simp [closed] at state

structure AfterAck (c d : Conn) (acked : Prop) : Prop extends GoesOn c d where
  peer : d.peerClosed = c.peerClosed
  done : d.state = .finWait → d.localFinAcked = true → c.Closes ∧ acked
  closes : d.state = .finWait → c.Closes ∧ d.localSeqNext = c.finEnd

theorem AfterAck.of_closing (h : d.closing = c.closing) :
    AfterAck c d (c.localFinAcked = true) := by
  have state : d.state = c.state := congrArg CloseView.state h
  refine ⟨.of_closing h, congrArg CloseView.peerClosed h, fun wait fin => ?_, fun wait => ?_⟩
  · exact ⟨.inl (state.symm.trans wait), (congrArg CloseView.localFinAcked h).symm.trans fin⟩
  · have wait : c.state = .finWait := state.symm.trans wait
    refine ⟨.inl wait, ?_⟩
    rw [finEnd, if_pos wait]
    exact congrArg CloseView.localSeqNext h

theorem AfterAck.finSent (c : Conn) (io : Io) (hd : d.closing = (c.finSent io).closing)
    (est : c.state = .established) (request : c.closeRequested = true) :
    AfterAck c d (c.localFinAcked = true) := by
  have state : d.state = .finWait := congrArg CloseView.state hd
  have unacked : d.localFinAcked = false := congrArg CloseView.localFinAcked hd
  have next : d.localSeqNext = c.localSeqNext + 1 := congrArg CloseView.localSeqNext hd
  have reads : d.localReadClosed = c.localReadClosed := congrArg CloseView.localReadClosed hd
  refine ⟨.of_established reads (.inr state), congrArg CloseView.peerClosed hd, fun _ fin => ?_,
    fun _ => ?_⟩
  · rw [unacked] at fin
    cases fin
  · refine ⟨.inr request, ?_⟩
    rw [finEnd, est, if_neg (by decide), next]

def AckEnds (c d : Conn) (acked : Prop) : Prop :=
  AfterAck c d acked ∨ (d = .zero ∧ c.Closes ∧ acked ∧ c.peerClosed = true)

theorem AckEnds.mono {p q : Prop} (h : AckEnds c d p) (imp : p → q) : AckEnds c d q := by
  obtain on | ⟨gone, closes, acked, peer⟩ := h
  · exact .inl ⟨on.toGoesOn, on.peer, fun wait fin => (on.done wait fin).imp_right imp, on.closes⟩
  · exact .inr ⟨gone, closes, imp acked, peer⟩

theorem acked_ends (io : Io) (w : Work) :
    AckEnds w.conn (w.acked io).conn (w.conn.localFinAcked = true) := by
  unfold Work.acked
  split_ifs with left request
  · have armed : OnlySent w.conn ({ w.conn with txRetries := 0 }.txArm io) :=
      .trans ⟨_, _, _, rfl⟩ (txArm_onlySent io _)
    exact .inl (.of_closing (armed.trans (txFlush_onlySent io _)).closing)
  · dsimp only
    by_cases est : w.conn.state = .established
    · have close := beginClose_closing io w est
      rw [if_neg left] at close
      have unacked : (w.beginClose io).conn.localFinAcked = false :=
        congrArg CloseView.localFinAcked close
      rw [if_neg (by simp [unacked])]
      exact .inl (.finSent _ io close est request)
    · have same : w.beginClose io = w := by simp [beginClose, est]
      rw [same]
      split_ifs with ended
      · simp only [Bool.and_eq_true] at ended
        exact .inr ⟨rfl, .inr request, ended.2, ended.1⟩
      · exact .inl (.of_closing rfl)
  · exact .inl (.of_closing rfl)

theorem AckEnds.of_closing (h : e.closing = c.closing)
    (ends : AckEnds e d (e.localFinAcked = true)) : AckEnds c d (c.localFinAcked = true) := by
  have state : e.state = c.state := congrArg CloseView.state h
  have request : e.closeRequested = c.closeRequested := congrArg CloseView.closeRequested h
  have fin : e.localFinAcked = c.localFinAcked := congrArg CloseView.localFinAcked h
  have peer : e.peerClosed = c.peerClosed := congrArg CloseView.peerClosed h
  have next : e.localSeqNext = c.localSeqNext := congrArg CloseView.localSeqNext h
  have closes : e.Closes = c.Closes := by rw [Closes, Closes, state, request]
  have finEnd : e.finEnd = c.finEnd := by rw [Conn.finEnd, Conn.finEnd, state, next]
  obtain on | ended := ends
  · refine .inl ⟨(GoesOn.of_closing h).trans on.toGoesOn, on.peer.trans peer, ?_, ?_⟩
    · rw [← closes, ← fin]
      exact on.done
    · rw [← closes, ← finEnd]
      exact on.closes
  · rw [closes, fin, peer] at ended
    exact .inr ended

theorem txAck_ends (io : Io) (w : Work) (ack : UInt32) :
    AckEnds w.conn (w.txAck io ack).conn (w.conn.localFinAcked = true) := by
  unfold txAck
  extract_lets upTo n
  clear_value n
  split_ifs
  · exact .inl (.of_closing rfl)
  · exact .inl (.of_closing (txFlush_onlySent io w).closing)
  · exact .inl (.of_closing (txFlush_onlySent io w).closing)
  · exact .of_closing (txPop_closing w.conn n) (acked_ends io { w with conn := w.conn.txPop n })

theorem AfterAck.finAck {acked : Prop} (h : AfterAck c w.conn acked) (ack : UInt32) :
    AckEnds c (w.finAck ack).conn (acked ∨ before ack c.finEnd = false) := by
  unfold Work.finAck
  dsimp only
  split_ifs with skip peer
  · exact .inl ⟨h.toGoesOn, h.peer, fun wait fin => (h.done wait fin).imp_right .inl, h.closes⟩
  all_goals
    simp only [not_or, not_not, Bool.not_eq_true] at skip
    obtain ⟨closes, next⟩ := h.closes skip.1
    have covers : before ack c.finEnd = false := next ▸ skip.2.2
  · exact .inr ⟨rfl, closes, .inr covers, h.peer.symm.trans peer⟩
  · exact .inl ⟨⟨h.reads, h.rcvd, h.live⟩, h.peer, fun _ _ => ⟨closes, .inr covers⟩, h.closes⟩

theorem segmentAck_ends (io : Io) (seg : Segment) (w : Work) :
    AckEnds w.conn (if seg.ack then (w.txAck io seg.ackNo).finAck seg.ackNo else w).conn
      (w.conn.FinAcked seg) := by
  split_ifs with ack
  · obtain on | ⟨gone, closes, fin, peer⟩ := txAck_ends io w seg.ackNo
    · exact (on.finAck seg.ackNo).mono (Or.imp_right fun covers => ⟨ack, covers⟩)
    · have same : (w.txAck io seg.ackNo).finAck seg.ackNo = w.txAck io seg.ackNo := by
        simp [finAck, gone, Conn.zero]
      rw [same]
      exact .inr ⟨gone, closes, .inl fin, peer⟩
  · have same : AckEnds w.conn w.conn (w.conn.localFinAcked = true) := .inl (.of_closing rfl)
    exact same.mono .inl

def DataEnds (w w' : Work) : Prop :=
  (GoesOn w.conn w'.conn ∧ (w'.conn.state = .synRcvd → w'.taken = w.taken)) ∨
    (w'.conn = .zero ∧ w.conn.state = .finWait ∧ w.conn.localFinAcked = true ∧ w'.fin = true)

theorem tookFin_ends (w : Work) : DataEnds w w.tookFin := by
  unfold tookFin
  dsimp only
  split_ifs with ended
  · exact .inr ⟨rfl, ended.1, ended.2, rfl⟩
  · exact .inl ⟨.of_state rfl rfl, fun _ => rfl⟩

theorem processRxPayload_ends (io : Io) (w : Work) (payload : List UInt8) (seq : UInt32)
    (fin : Bool) (open_ : w.conn.state ≠ .synRcvd) :
    DataEnds w (w.processRxPayload io payload seq fin) := by
  unfold processRxPayload
  by_cases order : seq = w.conn.remoteSeqNext
  · rw [if_neg (not_not.mpr order)]
    extract_lets r
    have ring : r.1.closing = (w.conn.touch io).closing := (rxTake_onlyRing io _ payload).closing
    have state : (w.took r.1 payload r.2).conn.state = w.conn.state := congrArg CloseView.state ring
    have took : GoesOn w.conn (w.took r.1 payload r.2).conn :=
      .of_state (congrArg CloseView.localReadClosed ring) state
    split_ifs
    · exact .inl ⟨⟨took.reads, took.rcvd, took.live⟩, fun rcvd => absurd (took.rcvd rcvd) open_⟩
    · obtain ⟨on, -⟩ | ⟨gone, wait, acked, got⟩ := tookFin_ends (w.took r.1 payload r.2)
      · exact .inl ⟨took.trans on, fun rcvd => absurd ((took.trans on).rcvd rcvd) open_⟩
      · exact .inr ⟨gone, state.symm.trans wait,
          (congrArg CloseView.localFinAcked ring).symm.trans acked, got⟩
  · rw [if_pos order]
    exact .inl ⟨.of_state rfl rfl, fun _ => rfl⟩

theorem inputData_ends (io : Io) (seg : Segment) (w : Work) (seq : UInt32)
    (open_ : w.conn.state ≠ .synRcvd) : DataEnds w (w.inputData io seg seq) := by
  unfold inputData
  split_ifs
  · exact .inl ⟨.of_closing rfl, fun _ => rfl⟩
  · exact processRxPayload_ends io w seg.payload seq seg.fin open_

theorem inputRest_ends (io : Io) (slot : Bool) (seg : Segment) (w : Work) (seq : UInt32) :
    DataEnds w (w.inputRest io slot seg seq) := by
  have idle : DataEnds w w := .inl ⟨.of_closing rfl, fun _ => rfl⟩
  unfold inputRest
  split
  · exact idle
  · rename_i wait
    exact inputData_ends io seg w seq (by simp [wait])
  · rename_i rcvd
    have opened : GoesOn w.conn (w.conn.synAcked io) := .of_established rfl (.inl rfl)
    split_ifs
    · exact idle
    · exact .inl ⟨opened, fun _ => rfl⟩
    · obtain ⟨on, taken⟩ | ⟨-, wait, -⟩ := inputData_ends io seg
        { w with conn := w.conn.synAcked io } seq (by simp [synAcked])
      · exact .inl ⟨opened.trans on, taken⟩
      · cases wait
  · rename_i est
    exact inputData_ends io seg w seq (by simp [est])
  · exact idle

def InputEnds (w w' : Work) (seg : Segment) : Prop :=
  (GoesOn w.conn w'.conn ∧ (w'.conn.state = .synRcvd → w'.taken = w.taken)) ∨
    (w'.conn = .zero ∧ w.conn.Closes ∧ w.conn.FinAcked seg ∧
      ((w.conn.peerClosed = true ∧ w'.taken = w.taken) ∨ w'.fin = true))

theorem RxOk.inputAck_ends {old : Option (List UInt8)} (h : RxOk base old w)
    (io : Io) (slot : Bool) (seg : Segment) (seq : UInt32) :
    InputEnds w (w.inputAck io slot seg seq) seg := by
  unfold Work.inputAck
  have taken := (h.segmentAck io seg).2.1
  have ends := segmentAck_ends io seg w
  generalize (if seg.ack then (w.txAck io seg.ackNo).finAck seg.ackNo else w) = w' at taken ends
  obtain on | ⟨gone, closes, acked, peer⟩ := ends
  · obtain ⟨on', same⟩ | ⟨gone, wait, fin, got⟩ := inputRest_ends io slot seg w' seq
    · exact .inl ⟨on.toGoesOn.trans on', fun rcvd => (same rcvd).trans taken⟩
    · obtain ⟨closes, acked⟩ := on.done wait fin
      exact .inr ⟨gone, closes, acked, .inr got⟩
  · have same : w'.inputRest io slot seg seq = w' := by simp [Work.inputRest, gone, Conn.zero]
    rw [same]
    exact .inr ⟨gone, closes, acked, .inl ⟨peer, taken⟩⟩

/-- The calls that leave the connection and its read side to run: segments without RST, and no
close of the socket or of its read side. -/
def Ordinary (isn : UInt32) (h : Hist) : Call → Prop
  | .segment _ seg =>
    seg.rst = false ∧ (h.conn.state = .synSent → seg.syn = true → seg.seq = isn)
  | .shutdown how => how = .wr
  | .close => False
  | .service | .recv _ | .send _ => True

theorem Ordinary.answers {isn : UInt32} {h : Hist} {call : Call} (o : Ordinary isn h call) :
    Answers isn h call := by
  intro slot seg same state _ syn
  rw [same] at o
  exact o.2 state syn

/-- Nothing is unread when a segment or a timer ends the connection. -/
def Drained (io : Io) (c : Conn) : Call → Prop
  | .segment _ seg => c.Finishes seg → c.rxLen = 0 ∧ (seg.fin = true → seg.payload = [])
  | .service => c.Expires io → c.rxLen = 0
  | _ => True

inductive Holds (c : Conn) (d : Done) : Prop
  | on (on : GoesOn c d.conn) (rcvd : d.conn.state = .synRcvd → d.taken = [])
  | ended (gone : d.conn = .zero) (unread : c.unread = []) (taken : d.taken = [])
    (returned : d.returned = [])

theorem Conn.RxSound.unread_nil (h : c.RxSound) (empty : c.rxLen = 0) : c.unread = [] :=
  eq_nil_of_length_eq_zero (h.length_unread.trans empty)

theorem segment_holds (h : c.RxSound) (synced : c.state.synced = true) (io : Io) (slot : Bool)
    (rst : seg.rst = false) (drained : Drained io c (.segment slot seg)) :
    Holds c ((Call.segment slot seg).run io c) := by
  have taken := (input_synced h synced io slot seg).2
  have hw : (start c).input io slot seg =
      ((start c).setWindow seg.window).inputAck io slot seg seg.seq := by
    have live : (start c).conn.state ≠ .closed := by
      intro closed
      rw [show c.state = .closed from closed] at synced
      cases synced
    have known : (start c).conn.state ≠ .synSent := by
      intro syn
      rw [show c.state = .synSent from syn] at synced
      cases synced
    rw [input, if_neg live, if_neg (by simp [rst]), if_neg known]
  have window : Transmits (.start c) ((start c).setWindow seg.window) := .conn rfl id
  have ends := (window.rxOk (.start h synced)).inputAck_ends io slot seg seg.seq
  rw [← hw] at ends
  obtain ⟨on, same⟩ | ⟨gone, closes, acked, cause⟩ := ends
  · exact .on ⟨on.reads, on.rcvd, on.live⟩ same
  · have peer : c.PeerFin seg := by
      obtain ⟨peer, -⟩ | got := cause
      · exact .inl peer
      · exact .inr ⟨(taken.fin got).1, taken.inOrder (.inr got)⟩
    obtain ⟨empty, noData⟩ := drained ⟨closes, acked, peer⟩
    refine .ended gone (h.unread_nil empty) ?_ rfl
    obtain ⟨-, same⟩ | got := cause
    · exact same
    · exact (taken.fin got).2.trans (noData (taken.fin got).1)

theorem answer_holds (h : c.RxSound) (syn : c.state = .synSent) (request : c.closeRequested = false)
    (io : Io) (slot : Bool)
    (rst : seg.rst = false) : Holds c ((Call.segment slot seg).run io c) := by
  have live : (start c).conn.state ≠ .closed := by
    rw [show (start c).conn.state = .synSent from syn]
    decide
  have hw : (start c).input io slot seg =
      ((start c).setWindow seg.window).inputSyn io slot seg := by
    rw [input, if_neg live, if_neg (by simp [rst]), if_pos (show (start c).conn.state = _ from syn)]
  have idle : Holds c ⟨(start c).setWindow seg.window, [], []⟩ := .on (.of_state rfl rfl) fun _ => rfl
  change Holds c ⟨(start c).input io slot seg, [], []⟩
  rw [hw]
  unfold inputSyn
  split_ifs
  · exact idle
  · exact .on (.of_established rfl (.inl rfl)) fun _ => rfl
  · obtain ⟨on, same⟩ | ⟨-, closes, -⟩ :=
      (connected_rxOk h io seg).inputAck_ends io slot seg (seg.seq + 1)
    · refine .on ⟨on.reads, fun rcvd => ?_, fun closed => ?_⟩ same
      · cases on.rcvd rcvd
      · cases on.live closed
    · obtain wait | asked := closes
      · cases wait
      · cases request.symm.trans asked

theorem service_finWait (wait : c.state = .finWait) (io : Io) :
    let w := (start c).maybeRetransmit io
    (w.conn = .zero ∧ w.taken = [] ∧ c.Expires io) ∨
      ((io.now - c.lastActivity).toNat ≤ tcpFinWaitTicks ∧ w.taken = [] ∧
        ∃ at_ retries, w.conn = { c with retransmitAt := at_, retries := retries }) := by
  have timeout {w : Work} {at_ : UInt32} {retries : Nat} (taken : w.taken = [])
      (conn : w.conn = { c with retransmitAt := at_, retries := retries }) :
      let w' := if w.conn.state = .closed then w
        else if tcpFinWaitTicks < (io.now - w.conn.lastActivity).toNat then w.reset else w
      (w'.conn = .zero ∧ w'.taken = [] ∧ c.Expires io) ∨
        ((io.now - c.lastActivity).toNat ≤ tcpFinWaitTicks ∧ w'.taken = [] ∧
          ∃ at_ retries, w'.conn = { c with retransmitAt := at_, retries := retries }) := by
    rw [if_neg (by simp [conn, wait]), show w.conn.lastActivity = c.lastActivity by rw [conn]]
    split_ifs with late
    · exact .inl ⟨rfl, taken, wait, .inr (.inr late)⟩
    · exact .inr ⟨Nat.not_lt.mp late, taken, _, _, conn⟩
  unfold maybeRetransmit
  simp only [show (start c).conn.state = .finWait from wait]
  by_cases done : ((start c).conn.localFinAcked && (start c).conn.peerClosed) = true
  · rw [if_pos done]
    simp only [Bool.and_eq_true] at done
    exact .inl ⟨rfl, rfl, wait, .inl done⟩
  rw [if_neg done]
  by_cases due : (!(start c).conn.localFinAcked && (start c).conn.retransmitAt != 0 &&
      decide ((start c).conn.retransmitAt ≤ io.now)) = true
  · rw [if_pos due]
    simp only [Bool.and_eq_true, Bool.not_eq_true', bne_iff_ne, decide_eq_true_eq] at due
    unfold retry
    by_cases last : tcpMaxRetries ≤ (start c).conn.retries
    · rw [if_pos last]
      exact .inl ⟨rfl, rfl, wait, .inr (.inl ⟨due.1.1, due.1.2, due.2, last⟩)⟩
    · rw [if_neg last]
      exact timeout rfl rfl
  · rw [if_neg due]
    exact timeout rfl rfl

theorem retry_holds (io : Io) (kind : Kind) (seq ack : UInt32)
    (unread : tcpMaxRetries ≤ c.retries → c.unread = []) :
    Holds c ⟨(Work.start c).retry io kind seq ack, [], []⟩ := by
  unfold retry
  split_ifs with last
  · exact .ended rfl (unread last) rfl rfl
  · exact .on (.of_state rfl rfl) fun _ => rfl

theorem Transmits.holds {w : Work} (t : Transmits (.start c) w) (on : GoesOn c w.conn)
    (queued : List UInt8) : Holds c ⟨w, [], queued⟩ :=
  .on on fun _ => t.taken

theorem service_holds (h : c.RxSound)
    (early : c.state ≠ .established → c.state ≠ .finWait → c.unread = [])
    (drained : Drained io c .service) : Holds c (Call.service.run io c) := by
  have idle : Holds c ⟨.start c, [], []⟩ := .on (.of_state rfl rfl) fun _ => rfl
  by_cases wait : c.state = .finWait
  · obtain ⟨gone, taken, expires⟩ | ⟨-, taken, _, _, conn⟩ := service_finWait wait io
    · exact .ended gone (h.unread_nil (drained expires)) taken rfl
    · have reads := congrArg localReadClosed conn
      have state := congrArg Conn.state conn
      exact .on (.of_state reads state) fun _ => taken
  simp only [Call.run]
  unfold maybeRetransmit
  split
  · exact idle
  · rename_i syn
    split_ifs
    · exact idle
    · exact retry_holds io _ _ _ fun _ =>
        early (by rw [show c.state = _ from syn]; decide) (by rw [show c.state = _ from syn]; decide)
  · rename_i rcvd
    split_ifs
    · exact idle
    · exact retry_holds io _ _ _ fun _ => early (by rw [show c.state = _ from rcvd]; decide)
        (by rw [show c.state = _ from rcvd]; decide)
  · have flushed := txFlush_flushes io (.start c)
    dsimp only
    split_ifs
    · have again := flushed.trans (txRetransmit_flushes io _)
      exact again.holds (.of_closing again.sent.closing) []
    · exact flushed.holds (.of_closing flushed.sent.closing) []
  · rename_i finWait
    exact absurd finWait wait

theorem send_goesOn (io : Io) (c : Conn) (data : List UInt8) :
    GoesOn c ((Work.start c).send io data).1.conn := by
  unfold send
  split_ifs
  · exact .of_state rfl rfl
  · exact .of_state rfl rfl
  · exact .of_state rfl rfl
  split
  · exact .of_state rfl rfl
  · rename_i e he
    obtain ⟨rx, state⟩ := txEnsure_rx he
    have ensured : GoesOn c e := .of_state (congrArg RxView.localReadClosed rx) state
    split_ifs
    · exact ensured
    · obtain ⟨rx', state'⟩ := txQueue_rx e (data.take e.txSpace)
      have queued : GoesOn e (e.txQueue (data.take e.txSpace)) :=
        .of_state (congrArg RxView.localReadClosed rx') state'
      have flushed := txFlush_onlySent io { start c with conn := e.txQueue (data.take e.txSpace) }
      exact (ensured.trans queued).trans (.of_closing (flushed.trans (armOnce_flushes io _).sent).closing)

theorem shutWrite_goesOn (io : Io) (c : Conn) : GoesOn c ((Work.start c).shutWrite io).conn := by
  unfold shutWrite
  split_ifs with est
  · simp only [Bool.and_eq_true, decide_eq_true_eq] at est
    have close := beginClose_closing io (.start c) est.1
    split_ifs at close
    · exact .of_state (congrArg CloseView.localReadClosed close) (congrArg CloseView.state close)
    · exact .of_established (congrArg CloseView.localReadClosed close)
        (.inr (congrArg CloseView.state close))
  · exact .of_state rfl rfl

theorem recv_holds (h : c.RxSound) (io : Io) (len : Nat) : Holds c ((Call.recv len).run io c) := by
  have reads := recv_reads h len
  exact .on (.of_closing reads.ring.closing) fun _ => reads.fresh.taken

theorem shutdown_holds (io : Io) (c : Conn) : Holds c ((Call.shutdown .wr).run io c) := by
  simp only [Call.run]
  unfold shutdown
  split_ifs
  · exact .on (.of_state rfl rfl) fun _ => rfl
  · exact (shutWrite_transmits io (.start c)).holds (shutWrite_goesOn io c) []

/-- Every acknowledged byte was returned or is there to be read. -/
structure Held (h : Hist) : Prop where
  reads : h.conn.localReadClosed = false
  early : h.conn.state ≠ .established → h.conn.state ≠ .finWait → h.conn.unread = []
  kept : h.returned ++ h.conn.unread = h.accepted

section

variable {isn : UInt32} {h : Hist} {call : Call}

theorem call_holds (held : Held h) (stands : Stands isn h) (live : h.conn ≠ .zero)
    (ordinary : Ordinary isn h call) (drained : Drained io h.conn call) :
    Holds h.conn (call.run io h.conn) := by
  have sound : h.conn.RxSound := by
    cases stands with
    | ended closed => exact absurd closed live
    | waiting _ sound => exact sound
    | synced _ sound => exact sound
  cases call with
  | segment slot seg =>
    cases stands with
    | ended closed => exact absurd closed live
    | waiting state _ _ request => exact answer_holds sound state request io slot ordinary.1
    | synced state => exact segment_holds sound state io slot ordinary.1 drained
  | service => exact service_holds sound held.early drained
  | recv len => exact recv_holds sound io len
  | send data => exact (send_transmits io _ data).holds (send_goesOn io _ data) _
  | shutdown how => exact (ordinary : how = .wr) ▸ shutdown_holds io _
  | close => exact ordinary.elim

theorem Held.of_zero (gone : h.conn = .zero) (kept : h.returned = h.accepted) : Held h := by
  have none : h.conn.unread = [] := by rw [gone]; rfl
  exact ⟨by rw [gone]; rfl, fun _ _ => none, by rw [none, append_nil, kept]⟩

theorem Held.of_left (held : Held h) (left : Left h.conn base (call.run io h.conn))
    (on : GoesOn h.conn (call.run io h.conn).conn)
    (rcvd : (call.run io h.conn).conn.state = .synRcvd → (call.run io h.conn).taken = []) :
    Held (h.step io call) := by
  have reads := on.reads.trans held.reads
  obtain ⟨-, bytes⟩ := left.pending reads
  refine ⟨reads, fun est wait => ?_, ?_⟩
  · have state : (call.run io h.conn).conn.state = .synRcvd := by
      have synced := left.synced
      change (call.run io h.conn).conn.state ≠ .established at est
      change (call.run io h.conn).conn.state ≠ .finWait at wait
      revert synced est wait
      cases (call.run io h.conn).conn.state <;> simp [TcpState.synced]
    have before := on.rcvd state
    rw [rcvd state, append_nil, held.early (by simp [before]) (by simp [before])] at bytes
    exact (append_eq_nil_iff.mp bytes).2
  · change h.returned ++ (call.run io h.conn).returned ++ (call.run io h.conn).conn.unread =
      h.accepted ++ (call.run io h.conn).taken
    rw [append_assoc, bytes, ← append_assoc, held.kept]

theorem Held.step (held : Held h) (stands : Stands isn h) (ordinary : Ordinary isn h call)
    (drained : Drained io h.conn call) : Held (h.step io call) := by
  by_cases ended : h.conn = .zero
  · obtain ⟨same, none⟩ := call_closed (congrArg Conn.state ended) io call
    have hstep : (h.step io call).conn = h.conn := congrArg conn same
    have kept : h.returned = h.accepted := by
      have := held.kept
      rwa [ended, show Conn.zero.unread = [] from rfl, append_nil] at this
    refine .of_zero (hstep.trans ended) ?_
    simp only [Hist.step, same, none, start, append_nil, kept]
  cases call_holds held stands ended ordinary drained with
  | ended gone unread taken returned =>
    refine .of_zero gone ?_
    have kept := held.kept
    rw [unread, append_nil] at kept
    simp only [Hist.step, taken, returned, append_nil, kept]
  | on on rcvd =>
    have left {base : UInt32} (ok : CallOk h.conn base (call.run io h.conn))
        (live : h.conn.state ≠ .closed) : Held (h.step io call) := by
      obtain gone | left := ok.after
      · exact absurd (on.live (congrArg Conn.state gone)) live
      · exact held.of_left left on rcvd
    cases stands with
    | ended closed => exact absurd closed ended
    | waiting state sound none request accepted fins returned =>
      have live : h.conn.state ≠ .closed := by simp [state]
      obtain waits | ⟨slot, seg, -, -, -, ok, -⟩ := call_synSent sound state none io call
      · obtain gone | ⟨rx, -⟩ := waits.conn
        · exact absurd (on.live (congrArg Conn.state gone)) live
        · have unread : (h.step io call).conn.unread = [] :=
            (unread_of_rx rx).trans (held.early (by simp [state]) (by simp [state]))
          refine ⟨on.reads.trans held.reads, fun _ _ => unread, ?_⟩
          rw [unread]
          simp only [Hist.step, returned, accepted, waits.returned, waits.fresh.taken]
          rfl
      · exact left ok live
    | synced state sound next unread =>
      refine left (call_ok sound state io call) fun closed => ?_
      rw [closed] at state
      cases state

theorem Held.start (c : Conn) (reads : c.localReadClosed = false) (empty : c.rxBuf = none) :
    Held (.start c) := by
  have unread : c.unread = [] := by simp [Conn.unread, empty]
  exact ⟨reads, fun _ _ => unread, by simp [Hist.start, unread]⟩

theorem Reaches.held
    (r : Reaches isn (fun io h call => Ordinary isn h call ∧ Drained io h.conn call) h) :
    Held h := by
  induction r with
  | accept io ip id seg seq => exact .start _ rfl rfl
  | connect io ip id port mac remote remotePort => exact .start _ rfl rfl
  | call r io call heard ih =>
    exact ih.step (r.stands fun _ _ _ heard => heard.1.answers) heard.1 heard.2

end

/-- Every acknowledged byte has been returned or is returned by the next reads; none is left when
the connection is over. -/
structure Available (h : Hist) : Prop where
  kept : h.accepted = h.returned ++ h.conn.unread
  reads : ∀ len, h.conn.unread ≠ [] →
    ((Work.start h.conn).recv len).2 = .ok (h.conn.unread.take len)
  ended : h.conn.state = .closed → h.returned = h.accepted

/-- Acknowledged data is lost only with a connection that ends while there is some to be read. -/
theorem acknowledged_data_available {isn : UInt32} {h : Hist}
    (r : Reaches isn (fun io h call => Ordinary isn h call ∧ Drained io h.conn call) h) :
    Available h ∧ ∀ io call, Ordinary isn h call → ∀ s ∈ (call.run io h.conn).out, s.kind ≠ .syn →
      s.ack = isn + UInt32.ofNat (1 + h.count + s.taken) := by
  have held := r.held
  have stands := r.stands fun _ _ _ heard => heard.1.answers
  refine ⟨⟨held.kept.symm, fun len some => ?_, fun closed => ?_⟩, ?_⟩
  · cases stands with
    | ended closed =>
      rw [closed] at some
      exact absurd rfl some
    | waiting state sound none request accepted fins returned =>
      exact absurd (held.early (by simp [state]) (by simp [state])) some
    | synced state sound next unread =>
      refine recv_unread sound ?_ held.reads len
      by_contra open_
      rw [not_or] at open_
      exact some (held.early open_.1 open_.2)
  · have none := held.early (by simp [closed]) (by simp [closed])
    rw [← held.kept, none, append_nil]
  · intro io call ordinary s hs other
    rw [Serial.add_ofNat]
    exact stands.acks io ordinary.answers s hs other

def finSegment (payload : List UInt8) : Segment :=
  { dataSegment 1 payload with ack := true, ackNo := 0x534D414E, fin := true }

def Hist.shut : Hist := (Hist.opened 1 []).step plainIo (.shutdown .wr)

theorem acknowledged_data_available_half_closed :
    ((Work.start (Hist.shut.step plainIo (.segment true (dataSegment 1 [7]))).conn).recv 5).2 =
      .ok [7] := by
  have opens : Reaches 0 (fun io h call => Ordinary 0 h call ∧ Drained io h.conn call)
      (.opened 1 []) := by
    refine reaches_opened ⟨⟨rfl, fun syn => by cases syn⟩, fun ended => ?_⟩
    obtain wait | asked := ended.1
    · cases wait
    · cases asked
  have r := (opens.call plainIo (.shutdown .wr) ⟨rfl, trivial⟩).call plainIo
    (.segment true (dataSegment 1 [7])) (by
      refine ⟨⟨rfl, fun syn => by cases syn⟩, fun ended => ?_⟩
      obtain peer | ⟨fin, -⟩ := ended.2.2
      · cases peer
      · cases fin)
  exact (acknowledged_data_available r).1.reads 5 (by decide)

/-- With its write side shut down and that acknowledged, a connection ends with the segment that
brings data and the FIN, and nobody can read the data. -/
theorem acknowledged_data_lost :
    ¬∀ (isn : UInt32) (h : Hist), Reaches isn (fun _ h call => Ordinary isn h call) h →
      Available h := by
  intro always
  have r : Reaches 0 (fun _ h call => Ordinary 0 h call)
      ((Hist.shut.step plainIo (.segment true { finSegment [] with fin := false })).step plainIo
        (.segment true (finSegment [7]))) :=
    (((reaches_opened ⟨rfl, fun syn => by cases syn⟩).call plainIo (.shutdown .wr) rfl).call plainIo
      (.segment true { finSegment [] with fin := false }) ⟨rfl, fun syn => by cases syn⟩).call plainIo
      (.segment true (finSegment [7])) ⟨rfl, fun syn => by cases syn⟩
  exact absurd (always 0 _ r).kept (by decide)

end SmallOS.Net
