import SmallOS.Net.TcpStream

/-! Segments that are not meant for the connection as it stands: those outside the receive window,
and data behind the peer's FIN. The sequence number is looked at for the data of a segment only, and
whether the FIN has been seen is asked nowhere. -/

namespace SmallOS.Net

open Bytes Serial List Option Work Conn

variable {c : Conn} {w w' : Work}

def Conn.acksAll (c : Conn) (ack : UInt32) : Bool :=
  let upTo := if after ack c.txNextSend then c.txNextSend else ack
  c.txLen ≠ 0 && after ack c.txSeqBase && decide (c.txLen ≤ (upTo - c.txSeqBase).toNat)

def Conn.freesFin (c : Conn) (seg : Segment) : Bool := c.acksAll seg.ackNo && c.closeRequested

def Conn.firstFinAck (c : Conn) (seg : Segment) : Bool :=
  !c.localFinAcked && !before seg.ackNo c.localSeqNext

def Conn.movedBy (c : Conn) (seg : Segment) : Bool :=
  seg.ack && match c.state with
    | .established => c.freesFin seg
    | .finWait => (c.freesFin seg && c.peerClosed && c.localFinAcked) || c.firstFinAck seg
    | _ => false

def Conn.endedBy (c : Conn) (seg : Segment) : Bool :=
  seg.ack && match c.state with
    | .established => c.freesFin seg && !before seg.ackNo (c.localSeqNext + 1)
    | .finWait => (c.freesFin seg && c.localFinAcked) || c.firstFinAck seg
    | _ => false

def Conn.hasRxRoom (io : Io) (c : Conn) : Bool :=
  c.localReadClosed ||
    (decide (c.rxLen < tcpRxBufferSize) && (c.rxBuf.isSome || io.rxMem.isSome))

def Conn.fedBy (io : Io) (c : Conn) (seg : Segment) : Bool :=
  !seg.payload.isEmpty && decide (seg.payload.length ≤ tcpMaxPayload) &&
    decide (seg.seq = c.remoteSeqNext) && c.hasRxRoom io

def Conn.outsideWindow (c : Conn) (seg : Segment) : Bool :=
  decide (c.rxWindow < (seg.seq - c.remoteSeqNext).toNat)

structure Unmoved (c d : Conn) : Prop where
  state : d.state = c.state
  unread : d.unread = c.unread
  remoteSeqNext : d.remoteSeqNext = c.remoteSeqNext
  closeRequested : d.closeRequested = c.closeRequested
  peerClosed : d.peerClosed = c.peerClosed
  localReadClosed : d.localReadClosed = c.localReadClosed
  localWriteClosed : d.localWriteClosed = c.localWriteClosed
  localFinAcked : d.localFinAcked = c.localFinAcked

structure Idle (w w' : Work) : Prop where
  rx : w'.conn.rx = w.conn.rx
  state : w'.conn.state = w.conn.state
  closeRequested : w'.conn.closeRequested = w.conn.closeRequested
  localWriteClosed : w'.conn.localWriteClosed = w.conn.localWriteClosed
  localFinAcked : w'.conn.localFinAcked = w.conn.localFinAcked
  localSeqNext : w'.conn.localSeqNext = w.conn.localSeqNext
  taken : w'.taken = w.taken

theorem Idle.refl (w : Work) : Idle w w := ⟨rfl, rfl, rfl, rfl, rfl, rfl, rfl⟩

theorem Idle.trans {w'' : Work} (h : Idle w w') (h' : Idle w' w'') : Idle w w'' :=
  ⟨h'.rx.trans h.rx, h'.state.trans h.state, h'.closeRequested.trans h.closeRequested,
    h'.localWriteClosed.trans h.localWriteClosed, h'.localFinAcked.trans h.localFinAcked,
    h'.localSeqNext.trans h.localSeqNext, h'.taken.trans h.taken⟩

theorem Idle.peerClosed (h : Idle w w') : w'.conn.peerClosed = w.conn.peerClosed :=
  congrArg RxView.peerClosed h.rx

theorem Idle.unmoved (h : Idle w w') : Unmoved w.conn w'.conn :=
  ⟨h.state, unread_of_rx h.rx, congrArg RxView.remoteSeqNext h.rx, h.closeRequested, h.peerClosed,
    congrArg RxView.localReadClosed h.rx, h.localWriteClosed, h.localFinAcked⟩

theorem OnlySent.idle (h : OnlySent w.conn w'.conn) (taken : w'.taken = w.taken) : Idle w w' := by
  obtain ⟨_, _, _, same⟩ := h
  constructor <;> first | exact taken | rw [same]
  rfl

theorem txFlush_idle (io : Io) (w : Work) : Idle w (w.txFlush io) :=
  (txFlush_onlySent io w).idle (txFlush_transmits io w).taken

theorem txPop_idle (w : Work) (n : Nat) : Idle w { w with conn := w.conn.txPop n } := by
  unfold txPop txRelease
  dsimp only
  split_ifs <;> exact ⟨rfl, rfl, rfl, rfl, rfl, rfl, rfl⟩

theorem txPop_txLen (c : Conn) (n : Nat) : (c.txPop n).txLen = c.txLen - n := by
  unfold txPop
  dsimp only
  split_ifs with empty <;> simp only [txRelease] <;> omega

def Work.closing (io : Io) (w : Work) : Work :=
  let w := w.beginClose io
  if w.conn.peerClosed && w.conn.localFinAcked then w.reset else w

theorem txAck_idle (io : Io) (w : Work) (ack : UInt32)
    (stays : (w.conn.acksAll ack && w.conn.closeRequested) = false) : Idle w (w.txAck io ack) := by
  unfold txAck
  extract_lets upTo n
  have all : w.conn.txLen ≠ 0 → after ack w.conn.txSeqBase = true → w.conn.txLen ≤ n →
      w.conn.acksAll ack = true := by
    intro some new le
    simp only [acksAll, Bool.and_eq_true, decide_eq_true_eq]
    exact ⟨⟨by simpa using some, new⟩, le⟩
  clear_value n
  split_ifs with empty old none
  · exact .refl w
  · exact txFlush_idle io w
  · exact txFlush_idle io w
  · have popped := txPop_idle w n
    have len := txPop_txLen w.conn n
    unfold Work.acked
    split_ifs with more close
    · have armed : OnlySent (w.conn.txPop n) ({ w.conn.txPop n with txRetries := 0 }.txArm io) :=
        .trans ⟨_, _, _, rfl⟩ (txArm_onlySent io _)
      exact popped.trans ((armed.trans (txFlush_onlySent io _)).idle (txFlush_transmits io _).taken)
    · rw [all empty (by simpa using old) (by dsimp only at more; omega),
        ← popped.closeRequested, close] at stays
      exact absurd stays (by decide)
    · exact popped

theorem txAck_closing (io : Io) (w : Work) (ack : UInt32)
    (frees : (w.conn.acksAll ack && w.conn.closeRequested) = true) :
    ∃ w', Idle w w' ∧ w'.conn.txLen = 0 ∧ w.txAck io ack = w'.closing io := by
  simp only [acksAll, Bool.and_eq_true, decide_eq_true_eq] at frees
  obtain ⟨⟨⟨some, new⟩, le⟩, close⟩ := frees
  replace some : w.conn.txLen ≠ 0 := by simpa using some
  unfold txAck
  extract_lets upTo n
  change w.conn.txLen ≤ n at le
  clear_value n
  have len := txPop_txLen w.conn n
  have popped := txPop_idle w n
  refine ⟨{ w with conn := w.conn.txPop n }, popped, by dsimp only; omega, ?_⟩
  rw [if_neg some, if_neg (by simp [new]), if_neg (by omega)]
  unfold Work.acked Work.closing
  rw [if_neg (by dsimp only; omega), if_pos (by rw [popped.closeRequested, close])]

def Work.takeAck (io : Io) (seg : Segment) (w : Work) : Work :=
  if seg.ack then (w.txAck io seg.ackNo).finAck seg.ackNo else w

theorem finAck_idle (w : Work) (ack : UInt32)
    (stays : w.conn.state ≠ .finWait ∨ (!w.conn.localFinAcked && !before ack w.conn.localSeqNext) =
      false) : w.finAck ack = w := by
  unfold finAck
  rw [if_pos]
  rcases stays with state | known
  · exact .inl state
  · cases acked : w.conn.localFinAcked with
    | true => exact .inr (.inl rfl)
    | false =>
      rw [acked] at known
      exact .inr (.inr (by simpa using known))

theorem finAck_first (w : Work) (ack : UInt32) (state : w.conn.state = .finWait)
    (first : (!w.conn.localFinAcked && !before ack w.conn.localSeqNext) = true) :
    w.finAck ack = if w.conn.peerClosed then w.reset else { w with conn := { w.conn with
      localFinAcked := true, retransmitAt := 0, retries := 0 } } := by
  simp only [Bool.and_eq_true, Bool.not_eq_true'] at first
  unfold finAck
  rw [if_neg]
  simp [state, first.1, first.2]

theorem closing_established (io : Io) (state : w.conn.state = .established)
    (empty : w.conn.txLen = 0) :
    (w.closing io).conn = { w.conn with localWriteClosed := true : Conn }.finSent io ∧
      (w.closing io).taken = w.taken := by
  have begun : w.beginClose io = { { w with conn := { w.conn with
      localWriteClosed := true } : Work }.emit .finAck w.conn.localSeqNext w.conn.remoteSeqNext []
      with conn := { w.conn with localWriteClosed := true : Conn }.finSent io } := by
    unfold beginClose
    rw [if_neg (by simp [state]), if_neg (by omega)]
    rfl
  unfold Work.closing
  rw [begun]
  simp [finSent, emit]

theorem closing_finWait (io : Io) (state : w.conn.state = .finWait) :
    w.closing io = if w.conn.peerClosed && w.conn.localFinAcked then w.reset else w := by
  have same : w.beginClose io = w := by
    unfold beginClose
    rw [if_pos (by simp [state])]
  unfold Work.closing
  rw [same]

def Conn.live (c : Conn) : Prop := c.state = .established ∨ c.state = .finWait

structure Onward (w w' : Work) : Prop where
  rx : w'.conn.rx = w.conn.rx
  state : w'.conn.state = .finWait
  step : w.conn.state = .established ∨ (w.conn.localFinAcked = false ∧ w'.conn.localFinAcked = true)
  taken : w'.taken = w.taken

structure Gone (w w' : Work) : Prop where
  conn : w'.conn = .zero
  taken : w'.taken = w.taken

/-- `w'` is `w` after the acknowledgement; whether it may be gone depends on the peer's FIN. -/
def AckTaken (seg : Segment) (w w' : Work) : Prop :=
  (w.conn.movedBy seg = false ∧ (w.conn.peerClosed = true → w.conn.endedBy seg = false) ∧
    Idle w w') ∨
  (w.conn.movedBy seg = true ∧ (w.conn.peerClosed = true → w.conn.endedBy seg = false) ∧
    Onward w w') ∨
  (w.conn.movedBy seg = true ∧ (w.conn.peerClosed = true → w.conn.endedBy seg = true) ∧ Gone w w')

theorem finAck_moves (ack : UInt32) (state : w'.conn.state = .finWait)
    (first : (!w'.conn.localFinAcked && !before ack w'.conn.localSeqNext) = true)
    (rx : w'.conn.rx = w.conn.rx) (taken : w'.taken = w.taken)
    (old : w.conn.state = .established ∨ w.conn.localFinAcked = false) :
    (w.conn.peerClosed = true ∧ Gone w (w'.finAck ack)) ∨
      (w.conn.peerClosed = false ∧ Onward w (w'.finAck ack)) := by
  have peer : w'.conn.peerClosed = w.conn.peerClosed := congrArg RxView.peerClosed rx
  rw [finAck_first w' ack state first, peer]
  cases w.conn.peerClosed with
  | true => exact .inl ⟨rfl, rfl, taken⟩
  | false => exact .inr ⟨rfl, rx, state, old.imp id fun unacked => ⟨unacked, rfl⟩, taken⟩

theorem takeAck_established (io : Io) (seg : Segment) (ack : seg.ack = true)
    (state : w.conn.state = .established) : AckTaken seg w (w.takeAck io seg) := by
  have moved : w.conn.movedBy seg = w.conn.freesFin seg := by simp [movedBy, ack, state]
  have ended : w.conn.endedBy seg =
      (w.conn.freesFin seg && !before seg.ackNo (w.conn.localSeqNext + 1)) := by
    simp [endedBy, ack, state]
  unfold takeAck AckTaken
  rw [if_pos ack, moved, ended]
  cases frees : w.conn.freesFin seg with
  | false =>
    have idle := txAck_idle io w seg.ackNo frees
    have other : (w.txAck io seg.ackNo).conn.state ≠ .finWait := by simp [idle.state, state]
    rw [finAck_idle _ _ (.inl other)]
    exact .inl ⟨rfl, fun _ => rfl, idle⟩
  | true =>
    obtain ⟨w', idle, empty, eq⟩ := txAck_closing io w seg.ackNo frees
    obtain ⟨conn, taken⟩ := closing_established io (idle.state.trans state) empty
    rw [eq]
    generalize w'.closing io = v at conn taken
    have rx : v.conn.rx = w.conn.rx := by
      rw [conn]
      exact idle.rx
    have next : v.conn.localSeqNext = w.conn.localSeqNext + 1 := by
      rw [conn, ← idle.localSeqNext]
      rfl
    have unacked : v.conn.localFinAcked = false := by
      rw [conn]
      rfl
    have wait : v.conn.state = .finWait := by
      rw [conn]
      rfl
    have known := taken.trans idle.taken
    cases early : before seg.ackNo (w.conn.localSeqNext + 1) with
    | true =>
      rw [finAck_idle v _ (.inr (by rw [next, early]; simp))]
      exact .inr (.inl ⟨rfl, fun _ => rfl, rx, wait, .inl state, known⟩)
    | false =>
      have first : (!v.conn.localFinAcked && !before seg.ackNo v.conn.localSeqNext) = true := by
        rw [unacked, next, early]
        rfl
      rcases finAck_moves seg.ackNo wait first rx known (.inl state) with ⟨-, gone⟩ | ⟨peer, on⟩
      · exact .inr (.inr ⟨rfl, fun _ => rfl, gone⟩)
      · exact .inr (.inl ⟨rfl, fun closed => by simp [peer] at closed, on⟩)

theorem takeAck_finWait (io : Io) (seg : Segment) (ack : seg.ack = true)
    (state : w.conn.state = .finWait) : AckTaken seg w (w.takeAck io seg) := by
  have moved : w.conn.movedBy seg = ((w.conn.freesFin seg && w.conn.peerClosed &&
      w.conn.localFinAcked) || w.conn.firstFinAck seg) := by
    simp [movedBy, ack, state]
  have ended : w.conn.endedBy seg =
      ((w.conn.freesFin seg && w.conn.localFinAcked) || w.conn.firstFinAck seg) := by
    simp [endedBy, ack, state]
  -- the FIN is out already, so the queue running empty matters only if both sides are done
  have step : (w.conn.freesFin seg && w.conn.peerClosed && w.conn.localFinAcked) = true ∧
        Gone w (w.txAck io seg.ackNo) ∨
      (w.conn.freesFin seg && w.conn.peerClosed && w.conn.localFinAcked) = false ∧
        Idle w (w.txAck io seg.ackNo) := by
    cases frees : w.conn.freesFin seg with
    | false => exact .inr ⟨rfl, txAck_idle io w seg.ackNo frees⟩
    | true =>
      obtain ⟨w', idle, -, eq⟩ := txAck_closing io w seg.ackNo frees
      rw [eq, closing_finWait io (idle.state.trans state), idle.peerClosed, idle.localFinAcked,
        Bool.true_and]
      cases w.conn.peerClosed && w.conn.localFinAcked with
      | true => exact .inl ⟨rfl, rfl, idle.taken⟩
      | false => exact .inr ⟨rfl, idle⟩
  unfold takeAck AckTaken
  rw [if_pos ack, moved, ended]
  rcases step with ⟨done, gone⟩ | ⟨more, idle⟩
  · have over_ : (w.txAck io seg.ackNo).conn.state ≠ .finWait := by
      rw [gone.conn]
      decide
    rw [finAck_idle _ _ (.inl over_), done]
    simp only [Bool.and_eq_true] at done
    exact .inr (.inr ⟨rfl, fun _ => by simp [done.1.1, done.2], gone⟩)
  · rw [more]
    cases first : w.conn.firstFinAck seg with
    | false =>
      have known : (!(w.txAck io seg.ackNo).conn.localFinAcked &&
          !before seg.ackNo (w.txAck io seg.ackNo).conn.localSeqNext) = false := by
        rw [idle.localFinAcked, idle.localSeqNext]
        exact first
      rw [finAck_idle _ _ (.inr known)]
      exact .inl ⟨rfl, fun peer => by simpa [peer] using more, idle⟩
    | true =>
      have new : (!(w.txAck io seg.ackNo).conn.localFinAcked &&
          !before seg.ackNo (w.txAck io seg.ackNo).conn.localSeqNext) = true := by
        rw [idle.localFinAcked, idle.localSeqNext]
        exact first
      simp only [firstFinAck, Bool.and_eq_true, Bool.not_eq_true'] at first
      rcases finAck_moves seg.ackNo (idle.state.trans state) new idle.rx idle.taken
        (.inr first.1) with ⟨-, gone⟩ | ⟨peer, on⟩
      · exact .inr (.inr ⟨rfl, fun _ => by simp, gone⟩)
      · exact .inr (.inl ⟨rfl, fun closed => by simp [peer] at closed, on⟩)

theorem takeAck_spec (io : Io) (seg : Segment) (live : w.conn.live) :
    AckTaken seg w (w.takeAck io seg) := by
  cases ack : seg.ack with
  | false =>
    have same : w.takeAck io seg = w := by simp [takeAck, ack]
    rw [same]
    exact .inl ⟨by simp [movedBy, ack], fun _ => by simp [endedBy, ack], .refl w⟩
  | true =>
    rcases live with state | state
    · exact takeAck_established io seg ack state
    · exact takeAck_finWait io seg ack state

theorem inputRest_live (io : Io) (slot : Bool) (seg : Segment) (live : w.conn.live) (seq : UInt32) :
    w.inputRest io slot seg seq = w.inputData io seg seq := by
  unfold inputRest
  rcases live with state | state <;> rw [state]

theorem inputData_elsewhere (io : Io) (seg : Segment) {seq : UInt32}
    (other : seq ≠ w.conn.remoteSeqNext) : (w.inputData io seg seq).conn = w.conn := by
  unfold inputData processRxPayload
  split_ifs <;> rfl

theorem rxPush_none (io : Io) (c : Conn) (data : List UInt8) (some : data ≠ []) :
    (c.rxPush io data).2 = 0 ↔
      (decide (c.rxLen < tcpRxBufferSize) && (c.rxBuf.isSome || io.rxMem.isSome)) = false := by
  have length : 0 < data.length := length_pos_iff.mpr some
  unfold rxPush
  split_ifs with full
  · have le : tcpRxBufferSize ≤ c.rxLen := by simpa [some] using full
    simp [Nat.not_lt.mpr le]
  · have room : c.rxLen < tcpRxBufferSize := by
      simp only [not_or, not_le] at full
      exact full.2
    unfold rxEnsure
    cases ring : c.rxBuf with
    | some b =>
      simp only [isSome_some, if_true, ring, room, decide_true, Bool.true_and, Bool.true_or]
      simp only [Bool.true_eq_false, iff_false]
      omega
    | none =>
      cases mem : io.rxMem with
      | none => simp
      | some m =>
        simp only [isSome_none, Bool.false_eq_true, if_false]
        simp only [isSome_some, room, decide_true, Bool.true_and, Bool.or_true,
          Bool.true_eq_false, iff_false]
        omega

theorem rxTake_none (io : Io) (c : Conn) (payload : List UInt8) :
    payload.take (c.rxTake io payload).2 = [] ↔ payload = [] ∨ c.hasRxRoom io = false := by
  unfold rxTake hasRxRoom
  split_ifs with none shut
  · simp_all
  · simp_all
  · have some : payload ≠ [] := by simpa using none
    rw [take_eq_nil_iff, rxPush_none io c payload some]
    simp [some, shut]

theorem tookFin_taken (w : Work) : w.tookFin.taken = w.taken := by
  unfold tookFin
  dsimp only
  split_ifs <;> rfl

theorem inputData_taken (io : Io) (seg : Segment) (fresh : w.taken = []) :
    (w.inputData io seg seg.seq).taken = [] ↔ w.conn.fedBy io seg = false := by
  have took := rxTake_none io (w.conn.touch io) seg.payload
  have room : (w.conn.touch io).hasRxRoom io = w.conn.hasRxRoom io := rfl
  rw [room] at took
  unfold inputData processRxPayload fedBy
  dsimp only
  split_ifs with long other part
  · simp [fresh, Nat.not_le.mpr long]
  · simp [emitAck, emit, fresh, other]
  all_goals
    have next : seg.seq = w.conn.remoteSeqNext := not_not.mp other
    have fits : seg.payload.length ≤ tcpMaxPayload := Nat.not_lt.mp long
    simp only [tookFin_taken, emitAck, emit, Work.took, fresh, nil_append, took,
      next, fits, decide_true, Bool.and_true]
    cases w.conn.hasRxRoom io <;> simp

theorem input_live (io : Io) (slot : Bool) (seg : Segment) (live : c.live) (rst : seg.rst = false) :
    (Work.start c).input io slot seg =
      (((Work.start c).setWindow seg.window).takeAck io seg).inputRest io slot seg seg.seq := by
  unfold input
  have running : (start c).conn.state ≠ .closed ∧ (start c).conn.state ≠ .synSent := by
    rcases live with state | state <;> simp [start, state]
  rw [if_neg running.1, rst, if_neg (by decide), if_neg running.2]
  rfl

theorem input_reset (io : Io) (slot : Bool) (seg : Segment) (live : c.live)
    (rst : seg.rst = true) : (Work.start c).input io slot seg = (Work.start c).reset := by
  unfold input
  have running : (start c).conn.state ≠ .closed := by
    rcases live with state | state <;> simp [start, state]
  rw [if_neg running, if_pos rst]

theorem not_unmoved_zero (live : c.live) : ¬ Unmoved c .zero := by
  intro same
  have state := same.state
  rcases live with known | known <;> simp [known, Conn.zero] at state

theorem Gone.inputRest (h : Gone w w') (io : Io) (slot : Bool) (seg : Segment)
    (seq : UInt32) : w'.inputRest io slot seg seq = w' := by
  have closed : w'.conn.state = .closed := by
    rw [h.conn]
    rfl
  unfold Work.inputRest
  rw [closed]

theorem Idle.live (h : Idle w w') (live : w.conn.live) : w'.conn.live :=
  live.imp h.state.trans h.state.trans

theorem Onward.live (h : Onward w w') : w'.conn.live := .inr h.state

theorem fedBy_of_rx {d : Conn} (h : d.rx = c.rx) (io : Io) (seg : Segment) :
    d.fedBy io seg = c.fedBy io seg := by
  simp only [rx, RxView.mk.injEq] at h
  obtain ⟨buf, len, -, next, shut, -⟩ := h
  unfold fedBy hasRxRoom
  rw [buf, len, next, shut]

theorem unmoved_iff (io : Io) (slot : Bool) (seg : Segment) (live : c.live)
    (outside : c.outsideWindow seg = true) : Unmoved c ((Work.start c).input io slot seg).conn ↔
      seg.rst = false ∧ c.movedBy seg = false := by
  cases rst : seg.rst with
  | true =>
    rw [input_reset io slot seg live rst]
    simp [reset, not_unmoved_zero live]
  | false =>
    have other : seg.seq ≠ c.remoteSeqNext := by
      intro eq
      simp [outsideWindow, eq] at outside
    rw [input_live io slot seg live rst]
    obtain ⟨moved, -, idle⟩ | ⟨moved, -, on⟩ | ⟨moved, -, gone⟩ :=
      takeAck_spec io seg (w := (start c).setWindow seg.window) live
    · change c.movedBy seg = false at moved
      have next := congrArg RxView.remoteSeqNext idle.rx
      rw [inputRest_live io slot seg (idle.live live),
        inputData_elsewhere io seg fun eq => other (eq.trans next)]
      simp only [moved, and_self, iff_true]
      exact ⟨idle.state, idle.unmoved.unread, next, idle.closeRequested, idle.peerClosed,
        idle.unmoved.localReadClosed, idle.localWriteClosed, idle.localFinAcked⟩
    · change c.movedBy seg = true at moved
      have next := congrArg RxView.remoteSeqNext on.rx
      rw [inputRest_live io slot seg on.live,
        inputData_elsewhere io seg fun eq => other (eq.trans next)]
      simp only [moved, Bool.true_eq_false, and_false, iff_false]
      intro same
      rcases on.step with state | ⟨unacked, acked⟩
      · have established : c.state = .established := state
        have state := on.state.symm.trans same.state
        simp [established] at state
      · have changed : true = false := (acked.symm.trans same.localFinAcked).trans unacked
        simp at changed
    · change c.movedBy seg = true at moved
      rw [gone.inputRest, gone.conn]
      simp [moved, not_unmoved_zero live]

theorem taken_iff (io : Io) (slot : Bool) (seg : Segment) (live : c.live)
    (peer : c.peerClosed = true) : ((Work.start c).input io slot seg).taken = [] ↔
      (seg.rst || c.endedBy seg || !c.fedBy io seg) = true := by
  cases rst : seg.rst with
  | true =>
    rw [input_reset io slot seg live rst]
    simp [reset, start]
  | false =>
    rw [input_live io slot seg live rst]
    obtain ⟨-, ended, idle⟩ | ⟨-, ended, on⟩ | ⟨-, ended, gone⟩ :=
      takeAck_spec io seg (w := (start c).setWindow seg.window) live
    · have stays : c.endedBy seg = false := ended peer
      have fed := fedBy_of_rx (c := c) idle.rx io seg
      rw [inputRest_live io slot seg (idle.live live), inputData_taken io seg idle.taken, fed,
        stays]
      simp
    · have stays : c.endedBy seg = false := ended peer
      have fed := fedBy_of_rx (c := c) on.rx io seg
      rw [inputRest_live io slot seg on.live, inputData_taken io seg on.taken, fed, stays]
      simp
    · have ends : c.endedBy seg = true := ended peer
      rw [gone.inputRest, gone.taken, ends]
      simp [setWindow, start]

/-- A segment outside the window leaves the connection alone, and one behind the peer's FIN adds
nothing, exactly if the first is no RST and its acknowledgement moves nothing, and the second
carries no data that is next in the stream and has room. -/
theorem stray_segment_harmless_iff (io : Io) (slot : Bool) (c : Conn) (seg : Segment)
    (live : c.live) :
    ((c.outsideWindow seg = true → Unmoved c ((Work.start c).input io slot seg).conn) ∧
        (c.peerClosed = true → ((Work.start c).input io slot seg).taken = [])) ↔
      (c.outsideWindow seg = true → seg.rst = false ∧ c.movedBy seg = false) ∧
        (c.peerClosed = true → (seg.rst || c.endedBy seg || !c.fedBy io seg) = true) := by
  constructor
  · rintro ⟨window, peer⟩
    exact ⟨fun outside => (unmoved_iff io slot seg live outside).mp (window outside),
      fun closed => (taken_iff io slot seg live closed).mp (peer closed)⟩
  · rintro ⟨window, peer⟩
    exact ⟨fun outside => (unmoved_iff io slot seg live outside).mpr (window outside),
      fun closed => (taken_iff io slot seg live closed).mpr (peer closed)⟩

def idleConn (peerClosed : Bool) : Conn := { Conn.zero with
  state := .established
  remoteSeqNext := 1000
  peerClosed := peerClosed }

def straySegment (seq : UInt32) (rst : Bool) (payload : List UInt8) : Segment :=
  ⟨[], 0, 0, 0, seq, 0, false, false, rst, !rst, 512, payload⟩

theorem stray_segment_harmless_old_data : Unmoved (idleConn false)
      ((Work.start (idleConn false)).input plainIo false (straySegment 900 false [1, 2])).conn :=
  ((stray_segment_harmless_iff plainIo false (idleConn false) (straySegment 900 false [1, 2])
    (.inl rfl)).mpr ⟨fun _ => by decide, fun closed => by cases closed⟩).1 (by decide)

/-- An RST from anywhere in the sequence space, and data behind the FIN. -/
theorem stray_segment_moves : ((idleConn false).outsideWindow (straySegment 900 true []) = true ∧
      ¬Unmoved (idleConn false)
        ((Work.start (idleConn false)).input plainIo false (straySegment 900 true [])).conn) ∧
    ((idleConn true).peerClosed = true ∧
      ((Work.start (idleConn true)).input plainIo false (straySegment 1000 false [1, 2])).taken =
        [1, 2]) := by
  refine ⟨⟨by decide, fun same => ?_⟩, rfl, by decide⟩
  have state := same.state
  exact absurd state (by decide)

end SmallOS.Net
