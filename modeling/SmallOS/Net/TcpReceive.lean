import SmallOS.Net.Tcp

/-! The receive side of a connection: what the peer's segments put into the ring, what the
application takes from it, and what is acknowledged. -/

namespace SmallOS.Net

open Bytes Serial List Option Work Conn

variable {b : Buf} {d : Conn} {data : List UInt8} {w' : Work} {c : Conn} {w : Work} {io : Io}
  {base : UInt32} {old : Option (List UInt8)}

theorem rxSize_pos : 0 < tcpRxBufferSize := by decide

theorem storeRing_stored {tail : Nat} (hd : tail < tcpRxBufferSize)
    (fits : data.length ≤ tcpRxBufferSize) :
    Ring.Stored tcpRxBufferSize b.get (storeRing b tail data).get tail data := by
  unfold storeRing
  extract_lets first
  constructor
  · refine ext_getElem (Ring.length_items _ _) fun i hi _ => ?_
    rw [Ring.length_items] at hi
    simp only [Ring.items, getElem_map, getElem_range]
    by_cases wrap : i < first
    · have hmod : (tail + i) % tcpRxBufferSize = tail + i := Nat.mod_eq_of_lt (by omega)
      rw [hmod, copy_of_outside (by omega), copy_of_inside (by omega) (by omega)]
      simp [ofList, hi]
    · have hmod : (tail + i) % tcpRxBufferSize = i - first := by
        rw [show tail + i = (i - first) + tcpRxBufferSize by omega, Nat.add_mod_right,
          Nat.mod_eq_of_lt (by omega)]
      rw [hmod, copy_of_inside (by omega) (by omega)]
      simp [ofList, show first + (i - first) = i by omega, hi]
  · intro j hj
    have low : ¬j < data.length - first := by
      intro hlt
      refine hj (first + j) (by omega) ?_
      rw [show tail + (first + j) = j + tcpRxBufferSize by omega, Nat.add_mod_right,
        Nat.mod_eq_of_lt (by omega)]
    have high : ¬(tail ≤ j ∧ j < tail + first) := by
      rintro ⟨hle, hlt⟩
      refine hj (j - tail) (by omega) ?_
      rw [show tail + (j - tail) = j by omega, Nat.mod_eq_of_lt (by omega)]
    rw [copy_of_outside (by omega), copy_of_outside (by omega)]

theorem loadRing_eq {head n : Nat} (hd : head < tcpRxBufferSize)
    (fits : n ≤ tcpRxBufferSize) : loadRing b head n = Ring.items tcpRxBufferSize b.get head n := by
  unfold loadRing
  extract_lets first
  have hsplit : n = first + (n - first) := by omega
  conv_rhs => rw [hsplit, Ring.items_add]
  congr 1
  · refine map_congr_left fun i hi => ?_
    have := mem_range.mp hi
    rw [Nat.mod_eq_of_lt (by omega)]
  · refine map_congr_left fun i hi => ?_
    have := mem_range.mp hi
    rw [show head + first + i = i + tcpRxBufferSize by omega, Nat.add_mod_right,
      Nat.mod_eq_of_lt (by omega)]

structure Conn.RxSound (c : Conn) : Prop where
  bare : c.rxBuf = none → c.rxLen = 0
  len : c.rxLen ≤ tcpRxBufferSize
  head : c.rxHead < tcpRxBufferSize

def Conn.unread (c : Conn) : List UInt8 :=
  match c.rxBuf with
  | none => []
  | some b => Ring.items tcpRxBufferSize b.get c.rxHead c.rxLen

theorem Conn.RxSound.length_unread (h : c.RxSound) : c.unread.length = c.rxLen := by
  unfold unread
  split
  · rename_i hnone
    rw [h.bare hnone]
    rfl
  · exact Ring.length_items _ _

structure RxView where
  rxBuf : Option Buf
  rxLen : Nat
  rxHead : Nat
  remoteSeqNext : UInt32
  localReadClosed : Bool
  peerClosed : Bool

def Conn.rx (c : Conn) : RxView :=
  ⟨c.rxBuf, c.rxLen, c.rxHead, c.remoteSeqNext, c.localReadClosed, c.peerClosed⟩

theorem Conn.RxSound.of_rx (h : d.rx = c.rx) (sound : c.RxSound) : d.RxSound := by
  simp only [rx, RxView.mk.injEq] at h
  obtain ⟨buf, len, head, -⟩ := h
  exact ⟨fun none => len.trans (sound.bare (buf.symm.trans none)), len ▸ sound.len,
    head ▸ sound.head⟩

theorem unread_of_rx (h : d.rx = c.rx) : d.unread = c.unread := by
  simp only [rx, RxView.mk.injEq] at h
  obtain ⟨buf, len, head, -⟩ := h
  unfold unread
  rw [buf, len, head]

theorem Conn.RxSound.rxEnsure (h : c.RxSound) (io : Io) :
    (c.rxEnsure io).RxSound ∧ (c.rxEnsure io).unread = c.unread ∧
      (c.rxEnsure io).rxLen = c.rxLen := by
  unfold Conn.rxEnsure
  split_ifs with ring
  · exact ⟨h, rfl, rfl⟩
  · have hnone : c.rxBuf = none := by simpa using ring
    have hlen := h.bare hnone
    have hempty : c.unread = [] := by simp [Conn.unread, hnone]
    split
    · exact ⟨⟨h.bare, h.len, h.head⟩, rfl, rfl⟩
    · exact ⟨⟨fun _ => rfl, Nat.zero_le _, rxSize_pos⟩, hempty.symm, hlen.symm⟩

theorem Conn.RxSound.store (h : c.RxSound) (ring : c.rxBuf = some b)
    (room : c.rxLen + data.length ≤ tcpRxBufferSize) (d : Conn)
    (buf : d.rxBuf = some (storeRing b ((c.rxHead + c.rxLen) % tcpRxBufferSize) data))
    (len : d.rxLen = c.rxLen + data.length) (head : d.rxHead = c.rxHead) :
    d.RxSound ∧ d.unread = c.unread ++ data := by
  have hmod : (c.rxHead + c.rxLen) % tcpRxBufferSize < tcpRxBufferSize :=
    Nat.mod_lt _ rxSize_pos
  refine ⟨⟨fun none => by simp [buf] at none, len ▸ room, head ▸ h.head⟩, ?_⟩
  simp only [unread, buf, ring, len, head]
  exact (storeRing_stored hmod (by omega)).of_mod.queue room

theorem Conn.RxSound.rxPush (h : c.RxSound) (io : Io) (data : List UInt8) :
    (c.rxPush io data).1.RxSound ∧ (c.rxPush io data).2 ≤ data.length ∧
      (c.rxPush io data).1.unread = c.unread ++ data.take (c.rxPush io data).2 := by
  unfold Conn.rxPush
  split_ifs with refused
  · exact ⟨h, Nat.zero_le _, by simp⟩
  · obtain ⟨sound, unread, -⟩ := h.rxEnsure io
    generalize c.rxEnsure io = e at sound unread
    rw [← unread]
    dsimp only
    split
    · exact ⟨sound, Nat.zero_le _, by simp⟩
    · rename_i b ring
      have hlen := sound.len
      have room : e.rxLen + (data.take (min (tcpRxBufferSize - e.rxLen) data.length)).length ≤
          tcpRxBufferSize := by
        rw [length_take]
        omega
      have stored := sound.store ring room { e with
          rxBuf := some (storeRing b ((e.rxHead + e.rxLen) % tcpRxBufferSize)
            (data.take (min (tcpRxBufferSize - e.rxLen) data.length)))
          rxLen := e.rxLen + min (tcpRxBufferSize - e.rxLen) data.length } rfl (by simp) rfl
      exact ⟨stored.1, Nat.min_le_right _ _, stored.2⟩

theorem Conn.RxSound.rxPop (h : c.RxSound) (len : Nat) :
    (c.rxPop len).1.RxSound ∧ (c.rxPop len).2 = c.unread.take len ∧
      (c.rxPop len).1.unread = c.unread.drop len := by
  unfold Conn.rxPop
  split
  · rename_i hnone
    have hempty : c.unread = [] := by simp [Conn.unread, hnone]
    exact ⟨h, by simp [hempty], by simp [hempty]⟩
  · rename_i b ring
    have hunread : c.unread = Ring.items tcpRxBufferSize b.get c.rxHead c.rxLen := by
      simp [Conn.unread, ring]
    by_cases zero : len = 0
    · rw [if_pos zero]
      exact ⟨h, by simp [zero], by simp [zero]⟩
    · rw [if_neg zero]
      dsimp only
      have hle : min c.rxLen len ≤ c.rxLen := Nat.min_le_left _ _
      have htake : c.unread.take len =
          Ring.items tcpRxBufferSize b.get c.rxHead (min c.rxLen len) := by
        rw [← Ring.items_take hle, hunread, take_eq_take_iff, Ring.length_items]
        omega
      have hdrop : c.unread.drop len = Ring.items tcpRxBufferSize b.get (c.rxHead + min c.rxLen len)
            (c.rxLen - min c.rxLen len) := by
        rw [← Ring.items_drop hle, hunread]
        rcases Nat.le_total c.rxLen len with all | part
        · rw [Nat.min_eq_left all, drop_of_length_le (by simpa using all),
            drop_of_length_le (by simp)]
        · rw [Nat.min_eq_right part]
      rw [loadRing_eq h.head (hle.trans h.len), htake, hdrop]
      by_cases last : c.rxLen - min c.rxLen len = 0
      · rw [if_pos last, last]
        simp only [Conn.rxRelease, ring, isNone_some, Bool.false_eq_true, if_false]
        exact ⟨⟨fun _ => rfl, Nat.zero_le _, rxSize_pos⟩, trivial, rfl⟩
      · rw [if_neg last]
        refine ⟨⟨fun none => by simp [ring] at none, ?_, Nat.mod_lt _ rxSize_pos⟩, rfl, ?_⟩
        · exact (Nat.sub_le _ _).trans h.len
        · simp [Conn.unread, ring]

def OnlyRing (c d : Conn) : Prop :=
  ∃ buf len head closed, d = { c with
    rxBuf := buf
    rxLen := len
    rxHead := head
    rxWindowClosed := closed }

theorem OnlyRing.refl (c : Conn) : OnlyRing c c := ⟨_, _, _, _, rfl⟩

theorem OnlyRing.remoteSeqNext (h : OnlyRing c d) : d.remoteSeqNext = c.remoteSeqNext := by
  obtain ⟨_, _, _, _, rfl⟩ := h
  rfl

theorem OnlyRing.state (h : OnlyRing c d) : d.state = c.state := by
  obtain ⟨_, _, _, _, rfl⟩ := h
  rfl

theorem OnlyRing.localReadClosed (h : OnlyRing c d) : d.localReadClosed = c.localReadClosed := by
  obtain ⟨_, _, _, _, rfl⟩ := h
  rfl

theorem rxRelease_onlyRing (c : Conn) : OnlyRing c c.rxRelease := by
  unfold rxRelease
  split_ifs
  · exact .refl c
  · exact ⟨_, _, _, _, rfl⟩

theorem rxPush_onlyRing (io : Io) (c : Conn) (data : List UInt8) :
    OnlyRing c (c.rxPush io data).1 := by
  have ensured : OnlyRing c (c.rxEnsure io) := by
    unfold rxEnsure
    split_ifs
    · exact .refl c
    · split <;> exact ⟨_, _, _, _, rfl⟩
  unfold rxPush
  split_ifs
  · exact .refl c
  · obtain ⟨_, _, _, _, same⟩ := ensured
    rw [same]
    dsimp only
    split <;> exact ⟨_, _, _, _, rfl⟩

theorem rxPop_onlyRing (c : Conn) (len : Nat) : OnlyRing c (c.rxPop len).1 := by
  unfold rxPop
  split
  · exact .refl c
  · split_ifs
    · exact .refl c
    · dsimp only
      split_ifs
      · obtain ⟨_, _, _, _, same⟩ := rxRelease_onlyRing { c with
          rxHead := (c.rxHead + min c.rxLen len) % tcpRxBufferSize
          rxLen := c.rxLen - min c.rxLen len }
        exact ⟨_, _, _, _, same⟩
      · exact ⟨_, _, _, _, rfl⟩

theorem rxTake_onlyRing (io : Io) (c : Conn) (payload : List UInt8) :
    OnlyRing c (c.rxTake io payload).1 := by
  unfold rxTake
  split_ifs
  · exact .refl c
  · exact .refl c
  · exact rxPush_onlyRing io c payload

theorem Conn.RxSound.rxTake (h : c.RxSound) (io : Io) (payload : List UInt8) :
    (c.rxTake io payload).1.RxSound ∧ (c.rxTake io payload).2 ≤ payload.length ∧
      (c.localReadClosed = false →
        (c.rxTake io payload).1.unread = c.unread ++ payload.take (c.rxTake io payload).2) := by
  unfold Conn.rxTake
  split_ifs with none shut
  · exact ⟨h, Nat.zero_le _, fun _ => by simp⟩
  · exact ⟨h, le_rfl, fun reads => by simp [shut] at reads⟩
  · obtain ⟨sound, le, unread⟩ := h.rxPush io payload
    exact ⟨sound, le, fun _ => unread⟩

def TcpState.synced : TcpState → Bool
  | .closed | .synSent => false
  | .synRcvd | .established | .finWait => true

structure Transmits (w w' : Work) : Prop where
  rx : w'.conn.rx = w.conn.rx
  synced : w.conn.state.synced = true → w'.conn.state.synced = true
  taken : w'.taken = w.taken
  fin : w'.fin = w.fin
  out : ∃ new, w'.out = w.out ++ new ∧
    ∀ s ∈ new, s.kind ≠ .syn → s.ack = w.conn.remoteSeqNext ∧ s.taken = w.count

theorem Transmits.remoteSeqNext {w : Work} (h : Transmits w w') :
    w'.conn.remoteSeqNext = w.conn.remoteSeqNext :=
  congrArg RxView.remoteSeqNext h.rx

theorem Transmits.count {w : Work} (h : Transmits w w') : w'.count = w.count := by
  rw [Work.count, Work.count, h.taken, h.fin]

theorem Transmits.refl (w : Work) : Transmits w w :=
  ⟨rfl, id, rfl, rfl, [], by simp, by simp⟩

theorem Transmits.trans {w w'' : Work} (h : Transmits w w') (h' : Transmits w' w'') :
    Transmits w w'' := by
  obtain ⟨new, hnew, acks⟩ := h.out
  obtain ⟨new', hnew', acks'⟩ := h'.out
  refine ⟨h'.rx.trans h.rx, h'.synced ∘ h.synced, h'.taken.trans h.taken, h'.fin.trans h.fin,
    new ++ new', ?_, ?_⟩
  · rw [hnew', hnew, append_assoc]
  · intro s hs kind
    rcases mem_append.mp hs with hs | hs
    · exact acks s hs kind
    · rw [← h.remoteSeqNext, ← h.count]
      exact acks' s hs kind

theorem Transmits.conn (h : d.rx = w.conn.rx)
    (synced : w.conn.state.synced = true → d.state.synced = true) :
    Transmits w { w with conn := d } :=
  ⟨h, synced, rfl, rfl, [], by simp, by simp⟩

theorem Transmits.emit (w : Work) (kind : Kind) (seq : UInt32) (payload : List UInt8) :
    Transmits w (w.emit kind seq w.conn.remoteSeqNext payload) :=
  ⟨rfl, id, rfl, rfl, _, rfl, by simp⟩

def OnlySent (c d : Conn) : Prop :=
  ∃ next due retries, d = { c with
    txNextSend := next
    txRetransmitAt := due
    txRetries := retries }

theorem OnlySent.refl (c : Conn) : OnlySent c c := ⟨_, _, _, rfl⟩

theorem OnlySent.trans {e : Conn} (h : OnlySent c d) (h' : OnlySent d e) : OnlySent c e := by
  obtain ⟨_, _, _, rfl⟩ := h
  obtain ⟨_, _, _, rfl⟩ := h'
  exact ⟨_, _, _, rfl⟩

theorem OnlySent.rx (h : OnlySent c d) : d.rx = c.rx := by
  obtain ⟨_, _, _, rfl⟩ := h
  rfl

theorem OnlySent.state (h : OnlySent c d) : d.state = c.state := by
  obtain ⟨_, _, _, rfl⟩ := h
  rfl

theorem txArm_onlySent (io : Io) (c : Conn) : OnlySent c (c.txArm io) := by
  unfold txArm
  split_ifs
  · exact .refl c
  · exact ⟨_, _, _, rfl⟩

structure Flushes (w w' : Work) : Prop extends Transmits w w' where
  sent : OnlySent w.conn w'.conn

theorem Flushes.refl (w : Work) : Flushes w w := ⟨.refl w, .refl _⟩

theorem Flushes.trans {w w'' : Work} (h : Flushes w w') (h' : Flushes w' w'') : Flushes w w'' :=
  ⟨h.toTransmits.trans h'.toTransmits, h.sent.trans h'.sent⟩

theorem Flushes.emit (w : Work) (kind : Kind) (seq : UInt32) (payload : List UInt8) :
    Flushes w (w.emit kind seq w.conn.remoteSeqNext payload) :=
  ⟨.emit w kind seq payload, .refl _⟩

theorem OnlySent.flushes (h : OnlySent w.conn d) : Flushes w { w with conn := d } :=
  ⟨.conn h.rx fun synced => (congrArg TcpState.synced h.state).trans synced, h⟩

theorem flushLoop_flushes (io : Io) (txEnd : UInt32) (fuel : Nat) (w : Work) :
    Flushes w (w.flushLoop io txEnd fuel) := by
  induction fuel generalizing w with
  | zero => exact .refl w
  | succ fuel ih =>
    unfold flushLoop
    dsimp only
    split_ifs with sent window none nic armed
    · exact .refl w
    · exact .refl w
    · exact .refl w
    · exact .emit w _ _ _
    all_goals
      refine .trans (.emit w .data w.conn.txNextSend _) (.trans (OnlySent.flushes ?_) (ih _))
    · exact .trans ⟨_, _, _, rfl⟩ (txArm_onlySent io _)
    · exact ⟨_, _, _, rfl⟩

theorem txFlush_flushes (io : Io) (w : Work) : Flushes w (w.txFlush io) := by
  unfold txFlush
  split_ifs
  · exact .refl w
  · exact flushLoop_flushes io _ _ w

theorem txFlush_onlySent (io : Io) (w : Work) : OnlySent w.conn (w.txFlush io).conn :=
  (txFlush_flushes io w).sent

theorem txFlush_transmits (io : Io) (w : Work) : Transmits w (w.txFlush io) :=
  (txFlush_flushes io w).toTransmits

theorem rearm_flushes (io : Io) (w : Work) (n : Nat) : Flushes w (w.rearm io n) :=
  OnlySent.flushes (.trans ⟨_, _, _, rfl⟩ (txArm_onlySent io _))

theorem txRetransmit_flushes (io : Io) (w : Work) : Flushes w (w.txRetransmit io) := by
  unfold txRetransmit
  dsimp only
  split_ifs
  · exact .refl w
  · exact rearm_flushes io w 1
  · exact .trans (.emit w _ _ _) (rearm_flushes io _ 1)
  · exact (txFlush_flushes io w).trans (rearm_flushes io _ 0)
  · exact .refl w
  · exact .trans (.emit w _ _ _) (rearm_flushes io _ 1)

theorem beginClose_transmits (io : Io) (w : Work) : Transmits w (w.beginClose io) := by
  unfold beginClose
  split_ifs
  · exact .refl w
  · refine .trans (.conn ?_ ?_) (txFlush_transmits io _)
    · rfl
    · exact id
  · refine .trans (.conn ?_ ?_) (.trans (.emit _ .finAck _ _) (.conn ?_ ?_))
    · rfl
    · exact id
    · rfl
    · exact fun _ => rfl

theorem txPop_state (c : Conn) (len : Nat) : (c.txPop len).state = c.state := by
  unfold txPop txRelease
  dsimp only
  split_ifs <;> rfl

theorem txPop_rx (c : Conn) (len : Nat) : (c.txPop len).rx = c.rx := by
  unfold txPop txRelease
  dsimp only
  split_ifs <;> rfl

def Conn.pending (c : Conn) : Option (List UInt8) :=
  if c.localReadClosed then none else some c.unread

/-! What a call leaves of the receive side, with the acknowledgement number `base` and the bytes
`old` for the application that it found. -/

def Acks (base : UInt32) (out : List Sent) : Prop :=
  ∀ s ∈ out, s.kind ≠ .syn → s.ack = base + UInt32.ofNat s.taken

structure RxOk (base : UInt32) (old : Option (List UInt8)) (w : Work) : Prop where
  synced : w.conn.state.synced = true
  sound : w.conn.RxSound
  next : w.conn.remoteSeqNext = base + UInt32.ofNat w.count
  unread : w.conn.localReadClosed = false → old.map (· ++ w.taken) = some w.conn.unread
  acks : Acks base w.out

def RxAfter (base : UInt32) (old : Option (List UInt8)) (w : Work) : Prop :=
  RxOk base old w ∨ (w.conn = .zero ∧ Acks base w.out)

theorem RxAfter.acks (h : RxAfter base old w) : Acks base w.out :=
  h.elim (·.acks) (·.2)

theorem RxOk.start (h : c.RxSound) (synced : c.state.synced = true) :
    RxOk c.remoteSeqNext c.pending (.start c) := by
  refine ⟨synced, h, by simp [Work.count, Work.start], fun reads => ?_, by simp [Acks, Work.start]⟩
  change c.localReadClosed = false at reads
  simp [Conn.pending, Work.start, reads]

theorem Transmits.rxOk (t : Transmits w w') (h : RxOk base old w) : RxOk base old w' := by
  obtain ⟨new, hnew, acks⟩ := t.out
  refine ⟨t.synced h.synced, .of_rx t.rx h.sound, ?_, fun reads => ?_, ?_⟩
  · rw [t.remoteSeqNext, t.count]
    exact h.next
  · rw [unread_of_rx t.rx, t.taken]
    exact h.unread ((congrArg RxView.localReadClosed t.rx).symm.trans reads)
  · rw [hnew]
    intro s hs kind
    rcases mem_append.mp hs with hs | hs
    · exact h.acks s hs kind
    · obtain ⟨ack, taken⟩ := acks s hs kind
      rw [ack, taken]
      exact h.next

theorem RxOk.reset (h : RxOk base old w) : RxAfter base old w.reset := .inr ⟨rfl, h.acks⟩

def Keeps (base : UInt32) (old : Option (List UInt8)) (w w' : Work) : Prop :=
  RxAfter base old w' ∧ w'.taken = w.taken ∧ w'.fin = w.fin

theorem Transmits.keeps (t : Transmits w w') (h : RxOk base old w) : Keeps base old w w' :=
  ⟨.inl (t.rxOk h), t.taken, t.fin⟩

theorem Transmits.reset_keeps (t : Transmits w w') (h : RxOk base old w) :
    Keeps base old w w'.reset :=
  ⟨(t.rxOk h).reset, t.taken, t.fin⟩

theorem RxOk.acked (h : RxOk base old w) (io : Io) : Keeps base old w (w.acked io) := by
  unfold Work.acked
  have closed := beginClose_transmits io w
  split_ifs
  · refine Transmits.keeps (.trans (OnlySent.flushes ?_).toTransmits (txFlush_transmits io _)) h
    exact .trans ⟨_, _, _, rfl⟩ (txArm_onlySent io _)
  · dsimp only
    split_ifs
    · exact closed.reset_keeps h
    · exact closed.keeps h
  · exact Transmits.keeps (.refl w) h

theorem RxOk.txAck (h : RxOk base old w) (io : Io) (ack : UInt32) :
    Keeps base old w (w.txAck io ack) := by
  unfold Work.txAck
  extract_lets upTo n
  clear_value n
  have popped : Transmits w { w with conn := w.conn.txPop n } :=
    .conn (txPop_rx _ n) fun synced => by rw [txPop_state]; exact synced
  split_ifs
  · exact Transmits.keeps (.refl w) h
  · exact (txFlush_transmits io w).keeps h
  · exact (txFlush_transmits io w).keeps h
  · exact (popped.rxOk h).acked io

theorem RxOk.finAck (h : RxOk base old w) (ack : UInt32) : Keeps base old w (w.finAck ack) := by
  unfold Work.finAck
  dsimp only
  split_ifs
  · exact Transmits.keeps (.refl w) h
  · exact Transmits.reset_keeps (.refl w) h
  · have t : Transmits w { w with conn := { w.conn with
        localFinAcked := true, retransmitAt := 0, retries := 0 } } := .conn rfl id
    exact t.keeps h

structure Took (w w' : Work) (payload : List UInt8) (seq : UInt32) (fin : Bool) : Prop where
  bytes : ∃ n, w'.taken = w.taken ++ payload.take n ∧ (w'.fin = true → payload.take n = payload)
  seq : w'.taken ≠ w.taken ∨ w'.fin = true → seq = w.conn.remoteSeqNext
  fin : w'.fin = true → fin = true

theorem RxOk.took (h : RxOk base old w) (io : Io) (payload : List UInt8) :
    let r := (w.conn.touch io).rxTake io payload
    r.2 ≤ payload.length ∧ RxOk base old (w.took r.1 payload r.2) := by
  intro r
  have touched : (w.conn.touch io).RxSound := ⟨h.sound.bare, h.sound.len, h.sound.head⟩
  obtain ⟨sound, le, unread⟩ := touched.rxTake io payload
  have ring := rxTake_onlyRing io (w.conn.touch io) payload
  change r.2 ≤ payload.length at le
  refine ⟨le, ?_, ⟨sound.bare, sound.len, sound.head⟩, ?_, fun reads => ?_, h.acks⟩
  · have hstate : (w.took r.1 payload r.2).conn.state = w.conn.state := ring.state
    rw [hstate]
    exact h.synced
  · have hcount : (w.took r.1 payload r.2).count = w.count + r.2 := by
      simp only [Work.took, Work.count, length_append, length_take]
      omega
    have hnext : (w.took r.1 payload r.2).conn.remoteSeqNext =
        w.conn.remoteSeqNext + UInt32.ofNat r.2 :=
      congrArg (· + UInt32.ofNat r.2) ring.remoteSeqNext
    rw [hcount, hnext, Serial.add_ofNat, h.next]
  · have hreads : w.conn.localReadClosed = false := ring.localReadClosed.symm.trans reads
    have hold : r.1.unread = w.conn.unread ++ payload.take r.2 := unread hreads
    obtain ⟨o, ho, found⟩ := map_eq_some_iff.mp (h.unread hreads)
    rw [← found, append_assoc] at hold
    rw [ho]
    exact congrArg some hold.symm

theorem RxOk.tookFin (h : RxOk base old w) (hfin : w.fin = false) :
    RxAfter base old w.tookFin ∧ w.tookFin.taken = w.taken ∧ w.tookFin.fin = true := by
  have seen : RxOk base old { w with
      conn := { w.conn with remoteSeqNext := w.conn.remoteSeqNext + 1 }
      fin := true } := by
    refine ⟨h.synced, ⟨h.sound.bare, h.sound.len, h.sound.head⟩, ?_, h.unread, h.acks⟩
    simp only [Work.count, Bool.toNat_true]
    rw [Serial.add_ofNat, h.next]
    simp [Work.count, hfin]
  have acked := (Transmits.emit _ .ack w.conn.localSeqNext []).rxOk seen
  unfold Work.tookFin
  dsimp only
  split_ifs
  · exact ⟨acked.reset, rfl, rfl⟩
  · exact ⟨.inl ⟨acked.synced, ⟨acked.sound.bare, acked.sound.len, acked.sound.head⟩, acked.next,
      acked.unread, acked.acks⟩, rfl, rfl⟩

theorem RxOk.processRxPayload (h : RxOk base old w) (hfin : w.fin = false) (io : Io)
    (payload : List UInt8) (seq : UInt32) (fin : Bool) :
    RxAfter base old (w.processRxPayload io payload seq fin) ∧
      Took w (w.processRxPayload io payload seq fin) payload seq fin := by
  unfold Work.processRxPayload
  by_cases order : seq = w.conn.remoteSeqNext
  · rw [if_neg (not_not.mpr order)]
    extract_lets r
    obtain ⟨le, took⟩ := h.took io payload
    split_ifs with part
    · have t : Transmits (w.took r.1 payload r.2) (w.took r.1 payload r.2).emitAck := .emit _ _ _ _
      refine ⟨.inl (t.rxOk took), ⟨r.2, t.taken, fun f => ?_⟩, fun _ => order, fun f => ?_⟩
      all_goals
        rw [t.fin] at f
        exact absurd (hfin.symm.trans f) (by decide)
    · simp only [not_or, Nat.not_lt, Bool.not_eq_true, Bool.not_eq_false'] at part
      obtain ⟨after, taken, _⟩ := took.tookFin hfin
      exact ⟨after, ⟨r.2, taken, fun _ => take_of_length_le part.1⟩, fun _ => order,
        fun _ => part.2⟩
  · rw [if_pos order]
    have t : Transmits w w.emitAck := .emit w _ _ _
    exact ⟨.inl (t.rxOk h), ⟨0, by simp [t.taken], by simp [t.fin, hfin]⟩,
      by simp [t.taken, t.fin, hfin], by simp [t.fin, hfin]⟩

/-- What a call that handles a segment takes of it, when the next byte is expected at `base` and
the data is at `seq`. -/
structure Taken (base seq : UInt32) (seg : Segment) (w : Work) : Prop where
  payload : w.taken <+: seg.payload
  inOrder : w.taken ≠ [] ∨ w.fin = true → seq = base
  fin : w.fin = true → seg.fin = true ∧ w.taken = seg.payload

structure Fresh (w : Work) : Prop where
  taken : w.taken = []
  fin : w.fin = false

theorem Fresh.keeps (f : Fresh w) (k : Keeps base old w w') : Fresh w' :=
  ⟨k.2.1.trans f.taken, k.2.2.trans f.fin⟩

theorem Fresh.nothing (f : Fresh w) (base seq : UInt32) (seg : Segment) : Taken base seq seg w :=
  ⟨by simp [f.taken], by simp [f.taken, f.fin], by simp [f.fin]⟩

theorem RxOk.inputData (h : RxOk base old w) (f : Fresh w) (io : Io) (seg : Segment)
    (seq : UInt32) :
    RxAfter base old (w.inputData io seg seq) ∧ Taken base seq seg (w.inputData io seg seq) := by
  unfold Work.inputData
  split_ifs
  · exact ⟨.inl h, f.nothing base seq seg⟩
  · obtain ⟨after, ⟨n, bytes, whole⟩, order, fin⟩ := h.processRxPayload f.fin io seg.payload seq seg.fin
    have hnext : w.conn.remoteSeqNext = base := by
      have := h.next
      simpa [Work.count, f.taken, f.fin] using this
    rw [f.taken, nil_append] at bytes
    rw [f.taken, hnext] at order
    refine ⟨after, ?_, order, fun hfin => ⟨fin hfin, ?_⟩⟩
    · rw [bytes]
      exact take_prefix _ _
    · rw [bytes]
      exact whole hfin

theorem RxOk.inputRest (h : RxOk base old w) (f : Fresh w) (io : Io) (slot : Bool) (seg : Segment)
    (seq : UInt32) : RxAfter base old (w.inputRest io slot seg seq) ∧
      Taken base seq seg (w.inputRest io slot seg seq) := by
  unfold Work.inputRest
  split
  · exact ⟨.inl h, f.nothing base seq seg⟩
  · exact h.inputData f io seg seq
  · have t : Transmits w { w with conn := w.conn.synAcked io } := .conn rfl fun _ => rfl
    have f' : Fresh { w with conn := w.conn.synAcked io } := ⟨f.taken, f.fin⟩
    split_ifs
    · exact ⟨.inl h, f.nothing base seq seg⟩
    · exact ⟨.inl (t.rxOk h), f'.nothing base seq seg⟩
    · exact (t.rxOk h).inputData f' io seg seq
  · exact h.inputData f io seg seq
  · exact ⟨.inl h, f.nothing base seq seg⟩

theorem RxAfter.inputRest (h : RxAfter base old w) (f : Fresh w) (io : Io) (slot : Bool)
    (seg : Segment) (seq : UInt32) : RxAfter base old (w.inputRest io slot seg seq) ∧
      Taken base seq seg (w.inputRest io slot seg seq) := by
  obtain ok | gone := h
  · exact ok.inputRest f io slot seg seq
  · have same : w.inputRest io slot seg seq = w := by simp [Work.inputRest, gone.1, Conn.zero]
    rw [same]
    exact ⟨.inr gone, f.nothing base seq seg⟩

theorem RxOk.segmentAck (h : RxOk base old w) (io : Io) (seg : Segment) :
    Keeps base old w (if seg.ack then (w.txAck io seg.ackNo).finAck seg.ackNo else w) := by
  split_ifs
  · have acked := h.txAck io seg.ackNo
    obtain ok | gone := acked.1
    · have fins := ok.finAck seg.ackNo
      exact ⟨fins.1, fins.2.1.trans acked.2.1, fins.2.2.trans acked.2.2⟩
    · have same : (w.txAck io seg.ackNo).finAck seg.ackNo = w.txAck io seg.ackNo := by
        simp [Work.finAck, gone.1, Conn.zero]
      rw [same]
      exact acked
  · exact Transmits.keeps (.refl w) h

theorem RxOk.inputAck (h : RxOk base old w) (f : Fresh w) (io : Io) (slot : Bool) (seg : Segment)
    (seq : UInt32) : RxAfter base old (w.inputAck io slot seg seq) ∧
      Taken base seq seg (w.inputAck io slot seg seq) := by
  have acked := h.segmentAck io seg
  exact acked.1.inputRest (f.keeps acked) io slot seg seq

theorem input_synced (h : c.RxSound) (synced : c.state.synced = true) (io : Io) (slot : Bool)
    (seg : Segment) : RxAfter c.remoteSeqNext c.pending ((Work.start c).input io slot seg) ∧
      Taken c.remoteSeqNext seg.seq seg ((Work.start c).input io slot seg) := by
  have start : RxOk c.remoteSeqNext c.pending (.start c) := .start h synced
  have window : Transmits (.start c) ((Work.start c).setWindow seg.window) := .conn rfl id
  unfold input
  split_ifs with closed rst syn
  · exact ⟨.inl start, Fresh.nothing ⟨rfl, rfl⟩ _ _ _⟩
  · exact ⟨start.reset, Fresh.nothing ⟨rfl, rfl⟩ _ _ _⟩
  · rw [show c.state = .synSent from syn] at synced
    cases synced
  · exact (window.rxOk start).inputAck ⟨rfl, rfl⟩ io slot seg seg.seq

theorem connected_rxOk (h : c.RxSound) (io : Io) (seg : Segment) :
    RxOk (seg.seq + 1) c.pending { Work.start c with
      conn := Conn.connected io seg.seq { c with remoteWindow := seg.window } : Work }.emitAck := by
  have open_ : RxOk (seg.seq + 1) c.pending { start c with
      conn := connected io seg.seq { c with remoteWindow := seg.window } } := by
    refine ⟨rfl, ⟨h.bare, h.len, h.head⟩, by simp [Work.count, start, connected],
      fun reads => ?_, by simp [Acks, start]⟩
    change c.localReadClosed = false at reads
    simp only [pending, reads, Bool.false_eq_true, if_false, map_some, start, append_nil]
    rfl
  exact (Transmits.emit _ .ack (c.localSeqNext + 1) []).rxOk open_

theorem input_synSent (h : c.RxSound) (syn : c.state = .synSent) (io : Io) (slot : Bool)
    (seg : Segment) :
    let w := (start c).input io slot seg
    (Fresh w ∧ w.out = [] ∧ (w.conn = .zero ∨
      (w.conn.rx = c.rx ∧ w.conn.state = .synSent ∧ w.conn.closeRequested = c.closeRequested))) ∨
    (seg.rst = false ∧ seg.syn = true ∧ RxAfter (seg.seq + 1) c.pending w ∧
      Taken (seg.seq + 1) (seg.seq + 1) seg w) := by
  have live : (start c).conn.state ≠ .closed := by
    rw [show (start c).conn.state = .synSent from syn]
    decide
  intro w
  by_cases rst : seg.rst = true
  · have hw : w = (start c).reset := by simp only [w, input, if_neg live, if_pos rst]
    rw [hw]
    exact .inl ⟨⟨rfl, rfl⟩, rfl, .inl rfl⟩
  have hw : w = ((start c).setWindow seg.window).inputSyn io slot seg := by
    simp only [w, input, if_neg live, if_neg rst]
    exact if_pos syn
  rw [hw]
  unfold inputSyn
  split_ifs with other alone
  · exact .inl ⟨⟨rfl, rfl⟩, rfl, .inr ⟨rfl, syn, rfl⟩⟩
  all_goals
    simp only [Bool.or_eq_true, Bool.not_eq_true', not_or, Bool.not_eq_false] at other
    have acked := connected_rxOk h io seg
  · exact .inr ⟨by simpa using rst, other.1.1, .inl acked, Fresh.nothing ⟨rfl, rfl⟩ _ _ _⟩
  · obtain ⟨after, taken⟩ := acked.inputAck ⟨rfl, rfl⟩ io slot seg (seg.seq + 1)
    exact .inr ⟨by simpa using rst, other.1.1, after, taken⟩

theorem RxOk.retry (h : RxOk base old w) (io : Io) (kind : Kind) (seq : UInt32) :
    Keeps base old w (w.retry io kind seq w.conn.remoteSeqNext) := by
  unfold Work.retry
  split_ifs
  · exact Transmits.reset_keeps (.refl w) h
  · refine Transmits.keeps (.trans (.conn ?_ ?_) (.emit _ kind seq [])) h
    · rfl
    · exact id

theorem Keeps.timeout (k : Keeps base old w w') (c : Prop) [Decidable c] :
    Keeps base old w (if w'.conn.state = .closed then w' else if c then w'.reset else w') := by
  split_ifs
  · exact k
  · exact ⟨.inr ⟨rfl, k.1.acks⟩, k.2⟩
  · exact k

theorem RxOk.maybeRetransmit (h : RxOk base old w) (io : Io) :
    Keeps base old w (w.maybeRetransmit io) := by
  have idle : Keeps base old w w := Transmits.keeps (.refl w) h
  unfold Work.maybeRetransmit
  split
  · exact idle
  · rename_i syn
    have := h.synced
    rw [syn] at this
    cases this
  · split_ifs
    · exact idle
    · exact h.retry io .synAck _
  · have flushed := txFlush_flushes io w
    dsimp only
    split_ifs
    · exact (flushed.trans (txRetransmit_flushes io _)).keeps h
    · exact flushed.keeps h
  · by_cases ended : (w.conn.localFinAcked && w.conn.peerClosed) = true
    · rw [if_pos ended]
      exact Transmits.reset_keeps (.refl w) h
    · rw [if_neg ended]
      by_cases due : (!w.conn.localFinAcked && w.conn.retransmitAt != 0 &&
          decide (w.conn.retransmitAt ≤ io.now)) = true
      · rw [if_pos due]
        exact (h.retry io .finAck _).timeout _
      · rw [if_neg due]
        exact idle.timeout _

theorem RxOk.closeConnection (h : RxOk base old w) (io : Io) :
    Keeps base old w (w.closeConnection io) := by
  have closing := beginClose_transmits io w
  unfold Work.closeConnection
  split
  · exact Transmits.keeps (.refl w) h
  · dsimp only
    split_ifs
    · exact closing.reset_keeps h
    · exact closing.keeps h
  · exact Transmits.reset_keeps (.refl w) h

theorem txEnsure_rx (h : c.txEnsure io = some d) : d.rx = c.rx ∧ d.state = c.state := by
  unfold txEnsure at h
  split_ifs at h
  · rw [← some_inj.mp h]
    exact ⟨rfl, rfl⟩
  · obtain ⟨mem, -, rfl⟩ := map_eq_some_iff.mp h
    exact ⟨rfl, rfl⟩

theorem txQueue_rx (c : Conn) (data : List UInt8) :
    (c.txQueue data).rx = c.rx ∧ (c.txQueue data).state = c.state := by
  unfold txQueue
  split_ifs <;> exact ⟨rfl, rfl⟩

theorem armOnce_flushes (io : Io) (w : Work) : Flushes w (w.armOnce io) := by
  unfold armOnce
  split_ifs
  · exact (txArm_onlySent io _).flushes
  · exact .refl w

theorem send_transmits (io : Io) (w : Work) (data : List UInt8) :
    Transmits w (w.send io data).1 := by
  unfold send
  split_ifs
  · exact .refl w
  · exact .refl w
  · exact .refl w
  split
  · exact .refl w
  · rename_i c hc
    obtain ⟨rx, state⟩ := txEnsure_rx hc
    split_ifs
    · exact .conn rx fun synced => by rw [state]; exact synced
    · obtain ⟨rx', state'⟩ := txQueue_rx c (data.take c.txSpace)
      refine .trans (.conn (rx'.trans rx) ?_)
        ((txFlush_flushes io _).trans (armOnce_flushes io _)).toTransmits
      exact fun synced => by rw [state', state]; exact synced

structure Reads (c : Conn) (w : Work) (bytes : List UInt8) : Prop where
  sound : w.conn.RxSound
  ring : OnlyRing c w.conn
  fresh : Fresh w
  acks : Acks c.remoteSeqNext w.out
  bytes : bytes ++ w.conn.unread = c.unread

theorem Conn.RxSound.reads_none (h : c.RxSound) : Reads c (.start c) [] :=
  ⟨h, .refl c, ⟨rfl, rfl⟩, by simp [Acks, start], rfl⟩

theorem recv_reads (h : c.RxSound) (len : Nat) :
    Reads c ((Work.start c).recv len).1 (((Work.start c).recv len).2.toOption.getD []) := by
  obtain ⟨sound, bytes, left⟩ := h.rxPop len
  have ring := rxPop_onlyRing c len
  have popped : Reads c { start c with conn := (c.rxPop len).1 } (c.rxPop len).2 :=
    ⟨sound, ring, ⟨rfl, rfl⟩, by simp [Acks, start], by
      rw [bytes, left, take_append_drop]⟩
  unfold recv
  dsimp only
  split_ifs
  · exact h.reads_none
  · exact h.reads_none
  · exact h.reads_none
  · exact h.reads_none
  · refine ⟨sound, ring, ⟨rfl, rfl⟩, fun s hs _ => ?_, popped.bytes⟩
    obtain rfl := mem_singleton.mp hs
    change (c.rxPop len).1.remoteSeqNext = _
    rw [ring.remoteSeqNext]
    simp [Work.count, start]
  · exact popped

theorem recv_unread (h : c.RxSound) (open_ : c.state = .established ∨ c.state = .finWait)
    (reads : c.localReadClosed = false) (len : Nat) :
    ((Work.start c).recv len).2 = .ok (c.unread.take len) := by
  have live : (start c).conn.state ≠ .closed := by
    intro closed
    change c.state = .closed at closed
    rw [closed] at open_
    simp at open_
  have ready : ¬((start c).conn.state ≠ .established ∧ (start c).conn.state ≠ .finWait ∧
      (!(start c).conn.peerClosed) = true) := by
    intro ⟨e, f, _⟩
    exact open_.elim e f
  have hread : ¬(start c).conn.localReadClosed = true := by
    change ¬c.localReadClosed = true
    simp [reads]
  unfold recv
  rw [if_neg live, if_neg hread, if_neg ready]
  by_cases empty : c.rxLen = 0
  · have hnil : c.unread = [] := eq_nil_of_length_eq_zero (h.length_unread.trans empty)
    rw [if_pos (show (start c).conn.rxLen = 0 from empty), hnil, take_nil]
  · rw [if_neg (show (start c).conn.rxLen ≠ 0 from empty)]
    exact congrArg Except.ok (h.rxPop len).2.1

theorem Conn.RxSound.rxRelease (h : c.RxSound) : c.rxRelease.RxSound := by
  unfold Conn.rxRelease
  split_ifs
  · exact h
  · exact ⟨fun _ => rfl, Nat.zero_le _, rxSize_pos⟩

theorem RxOk.shutRead (h : RxOk base old w) : RxOk base old w.shutRead := by
  have ring := rxRelease_onlyRing { w.conn with localReadClosed := true }
  have sound : RxSound { w.conn with localReadClosed := true } :=
    ⟨h.sound.bare, h.sound.len, h.sound.head⟩
  refine ⟨?_, sound.rxRelease, ?_, fun reads => ?_, h.acks⟩
  · exact (congrArg TcpState.synced ring.state).trans h.synced
  · exact ring.remoteSeqNext.trans h.next
  · exact absurd (ring.localReadClosed.symm.trans reads) (by simp)

theorem shutWrite_transmits (io : Io) (w : Work) : Transmits w (w.shutWrite io) := by
  unfold shutWrite
  split_ifs
  · exact beginClose_transmits io w
  · exact .refl w

theorem RxOk.shutdown (h : RxOk base old w) (io : Io) (how : Shut) :
    Keeps base old w (w.shutdown io how).1 := by
  unfold Work.shutdown
  split_ifs
  · exact Transmits.keeps (.refl w) h
  · cases how with
    | rd => exact ⟨.inl h.shutRead, rfl, rfl⟩
    | wr => exact (shutWrite_transmits io w).keeps h
    | rdwr => exact (shutWrite_transmits io w.shutRead).keeps h.shutRead

end SmallOS.Net
