import SmallOS.Net.TcpDrain

/-! The transmit side of a connection. The ring holds what is queued and not acknowledged; every
data segment carries the bytes that belong to its sequence number, and new data stays inside the
window. -/

namespace SmallOS.Net

open Bytes Serial Option Work Conn List

variable {kind : Kind} {data : List UInt8} {n off : Nat} {w'' : Work} {c d : Conn} {w w' : Work}
  {io : Io} {first : UInt32} {queued : List UInt8}

theorem putRing_stored (b : Buf) (pos : Nat) (fits : data.length ≤ tcpTxBufferSize) :
    Ring.Stored tcpTxBufferSize b.get (putRing b pos data).get pos data := by
  induction data generalizing b pos with
  | nil => exact .nil pos
  | cons x rest ih =>
    rw [length_cons] at fits
    have one : Ring.Stored tcpTxBufferSize b.get (b.set (pos % tcpTxBufferSize) x).get pos [x] :=
      .one pos x
    exact one.append (ih (b.set (pos % tcpTxBufferSize) x) (pos + 1) (by omega)) (by simp; omega)

def Conn.acked (queued : List UInt8) (c : Conn) : Nat := queued.length - c.txLen

def Conn.sentLen (c : Conn) : Nat := (c.txNextSend - c.txSeqBase).toNat

def Conn.sentTo (queued : List UInt8) (c : Conn) : Nat := c.acked queued + c.sentLen

/-- The ring of an open connection that has queued `queued`, the first byte with the number
`first`. -/
structure Conn.TxSound (first : UInt32) (queued : List UInt8) (c : Conn) : Prop where
  bare : c.txBuf = none → c.txLen = 0
  room : c.txLen ≤ tcpTxBufferSize
  len : c.txLen ≤ queued.length
  ring : ∀ b, c.txBuf = some b →
    Ring.items tcpTxBufferSize b.get c.txHead c.txLen = queued.drop (c.acked queued)
  base : c.txSeqBase = first + UInt32.ofNat (c.acked queued)
  sent : c.sentLen ≤ c.txLen
  next : c.localSeqNext = first + UInt32.ofNat queued.length

theorem Conn.TxSound.small (h : c.TxSound first queued) : c.txLen < 2147483648 :=
  h.room.trans_lt (by decide)

theorem Conn.txNextSend_eq (c : Conn) : c.txNextSend = c.txSeqBase + UInt32.ofNat c.sentLen :=
  Serial.eq_add_ofNat _ _

theorem Conn.TxSound.localSeqNext (h : c.TxSound first queued) :
    c.txSeqBase + UInt32.ofNat c.txLen = c.localSeqNext := by
  rw [h.base, h.next, ← Serial.add_ofNat, Conn.acked, Nat.sub_add_cancel h.len]

theorem Conn.TxSound.contiguous (h : c.TxSound first queued) (hoff : off ≤ c.txLen) (maxLen : Nat) :
    let p := c.txContiguous (c.txSeqBase + UInt32.ofNat off) maxLen
    p = (queued.drop (c.acked queued + off)).take p.length ∧ p.length ≤ maxLen ∧
      off + p.length ≤ c.txLen := by
  have small := h.small
  have hdist : (c.txSeqBase + UInt32.ofNat off - c.txSeqBase).toNat = off :=
    Serial.toNat_add_sub _ (by omega)
  intro p
  have hp : p = c.txContiguous (c.txSeqBase + UInt32.ofNat off) maxLen := rfl
  unfold txContiguous at hp
  cases ring : c.txBuf with
  | none =>
    rw [ring] at hp
    simp [hp, hoff]
  | some b =>
    simp only [ring, before, hdist] at hp
    rw [if_neg (by simp; omega)] at hp
    by_cases behind : c.txLen ≤ off
    · rw [if_pos behind] at hp
      simp [hp, hoff]
    · rw [if_neg behind] at hp
      generalize hn : min (min (c.txLen - off) maxLen)
        (tcpTxBufferSize - (c.txHead + off) % tcpTxBufferSize) = n at hp
      have hlen : p.length = n := by simp [hp]
      rw [hlen]
      refine ⟨?_, by omega, by omega⟩
      have items : p = Ring.items tcpTxBufferSize b.get (c.txHead + off) n := by
        rw [hp, ← Ring.items_mod]
        refine map_congr_left fun i hi => ?_
        have := mem_range.mp hi
        exact congrArg b.get (Nat.mod_eq_of_lt (by omega)).symm
      rw [items, ← drop_drop, ← h.ring b ring, Ring.items_drop hoff, Ring.items_take (by omega)]

structure TxView where
  txBuf : Option Buf
  txLen : Nat
  txHead : Nat
  txSeqBase : UInt32
  txNextSend : UInt32
  localSeqNext : UInt32
  remoteWindow : Nat

def Conn.tx (c : Conn) : TxView :=
  ⟨c.txBuf, c.txLen, c.txHead, c.txSeqBase, c.txNextSend, c.localSeqNext, c.remoteWindow⟩

theorem Conn.TxSound.of_tx (same : d.tx = c.tx) (h : c.TxSound first queued) :
    d.TxSound first queued := by
  simp only [tx, TxView.mk.injEq] at same
  obtain ⟨buf, len, head, base, sent, next, -⟩ := same
  have hacked : d.acked queued = c.acked queued := by rw [Conn.acked, Conn.acked, len]
  refine ⟨?_, len ▸ h.room, len ▸ h.len, ?_, ?_, ?_, ?_⟩
  · rw [buf, len]
    exact h.bare
  · rw [buf, head, len, hacked]
    exact h.ring
  · rw [base, hacked]
    exact h.base
  · rw [sentLen, sent, base, len]
    exact h.sent
  · rw [next]
    exact h.next

@[simp] theorem txArm_tx (io : Io) (c : Conn) : (c.txArm io).tx = c.tx := by
  unfold txArm
  split_ifs <;> rfl

theorem txArm_txLen (io : Io) (c : Conn) : (c.txArm io).txLen = c.txLen :=
  congrArg TxView.txLen (txArm_tx io c)

theorem Conn.TxSound.empty (none : c.txLen = 0) (base : c.txSeqBase = c.localSeqNext)
    (sent : c.txNextSend = c.localSeqNext)
    (next : c.localSeqNext = first + UInt32.ofNat queued.length) : c.TxSound first queued := by
  have hacked : c.acked queued = queued.length := by rw [Conn.acked, none, Nat.sub_zero]
  refine ⟨fun _ => none, by simp [none], by simp [none], fun b _ => ?_, ?_, ?_, next⟩
  · rw [hacked, none, drop_length, Ring.items_zero]
  · rw [hacked, base, next]
  · simp [sentLen, sent, base]

theorem txPop_window (c : Conn) (len : Nat) : (c.txPop len).remoteWindow = c.remoteWindow := by
  unfold txPop txRelease
  dsimp only
  split_ifs <;> rfl

theorem Conn.TxSound.txPop (h : c.TxSound first queued) (le : n ≤ c.sentLen) :
    (c.txPop n).TxSound first queued ∧ (c.txPop n).txLen = c.txLen - n ∧
      (c.txPop n).sentTo queued = c.sentTo queued := by
  have small := h.small
  have hlen := h.len
  have hsent := h.sent
  have hn : min n c.txLen = n := by omega
  have hdist : (c.txNextSend - (c.txSeqBase + UInt32.ofNat n)).toNat = c.sentLen - n := by
    rw [c.txNextSend_eq, Serial.toNat_sub_of_le _ le (by omega)]
  have notBefore : before c.txNextSend (c.txSeqBase + UInt32.ofNat n) = false := by
    simp only [before, hdist, decide_eq_false_iff_not]
    omega
  unfold Conn.txPop
  simp only [hn, notBefore, Bool.false_eq_true, if_false]
  split_ifs with last
  · refine ⟨.empty rfl rfl rfl h.next, last.symm, ?_⟩
    simp only [Conn.sentTo, Conn.acked, Conn.sentLen, Conn.txRelease, UInt32.sub_self,
      UInt32.toNat_zero]
    rw [Conn.sentLen] at le hsent
    omega
  · have hacked : queued.length - (c.txLen - n) = c.acked queued + n := by
      rw [Conn.acked]
      omega
    refine ⟨⟨fun none => ?_, ?_, ?_, fun b ring => ?_, ?_, ?_, h.next⟩, rfl, ?_⟩
    · simp [h.bare none]
    · exact (Nat.sub_le _ _).trans h.room
    · exact (Nat.sub_le _ _).trans h.len
    · simp only [Conn.acked] at hacked ⊢
      rw [hacked, Ring.items_mod, ← drop_drop, ← Conn.acked, ← h.ring b ring,
        Ring.items_drop (by omega)]
    · simp only [Conn.acked] at hacked ⊢
      rw [hacked, Serial.add_ofNat, ← Conn.acked, ← h.base]
    · simp only [Conn.sentLen, hdist]
      rw [Conn.sentLen] at hsent
      omega
    · simp only [Conn.sentTo, Conn.acked, Conn.sentLen, hdist] at hacked le ⊢
      omega

theorem Conn.TxSound.txQueue_eq (h : c.TxSound first queued) (data : List UInt8) :
    c.txQueue data = { c with
      txBuf := c.txBuf.map fun b => putRing b (c.txHead + c.txLen) data
      txLen := c.txLen + data.length
      localSeqNext := c.localSeqNext + UInt32.ofNat data.length } := by
  unfold txQueue
  by_cases none : c.txLen = 0
  · have base : c.txSeqBase = c.localSeqNext := by
      rw [← h.localSeqNext, none]
      simp
    have sent : c.txNextSend = c.localSeqNext := by
      have := h.sent
      rw [c.txNextSend_eq, show c.sentLen = 0 by omega, base]
      simp
    rw [if_pos none, base, sent]
  · rw [if_neg none]

theorem Conn.TxSound.txQueue (h : c.TxSound first queued) {b : Buf} (ring : c.txBuf = some b)
    (fits : data.length ≤ c.txSpace) : (c.txQueue data).TxSound first (queued ++ data) ∧
      (c.txQueue data).acked (queued ++ data) = c.acked queued ∧
      (c.txQueue data).sentLen = c.sentLen := by
  have hlen := h.len
  have room := h.room
  unfold txSpace at fits
  rw [h.txQueue_eq data]
  have hacked : (queued ++ data).length - (c.txLen + data.length) = queued.length - c.txLen := by
    rw [length_append]
    omega
  refine ⟨⟨fun none => by simp [ring] at none, ?_, ?_, fun b' ring' => ?_, ?_, ?_, ?_⟩, hacked, rfl⟩
  · change c.txLen + data.length ≤ _
    omega
  · simp only [length_append]
    omega
  · simp only [ring, map_some, some_inj] at ring'
    simp only [Conn.acked, hacked]
    rw [← ring', (putRing_stored b (c.txHead + c.txLen) (by omega)).queue (by omega), h.ring b ring,
      Conn.acked, drop_append_of_le_length (by omega)]
  · simp only [Conn.acked, hacked]
    exact h.base
  · exact h.sent.trans (Nat.le_add_right _ _)
  · simp only [h.next, length_append]
    rw [Serial.add_ofNat]

/-- A data segment with the queued bytes from position `pos` on: inside the window behind what is
acknowledged, or the probe of a closed one, or what was sent before. -/
structure CarriesAt (first : UInt32) (queued : List UInt8) (acked window sent : Nat) (s : Sent)
    (pos : Nat) : Prop where
  seq : s.seq = first + UInt32.ofNat pos
  unacked : acked ≤ pos
  inside : pos + s.payload.length ≤ queued.length
  bytes : s.payload = (queued.drop pos).take s.payload.length
  fits : pos + s.payload.length ≤ acked + window ∨ (s.payload.length = 1 ∧ window = 0) ∨
    pos + s.payload.length ≤ sent

def Carries (first : UInt32) (queued : List UInt8) (acked window sent : Nat) (s : Sent) : Prop :=
  ∃ pos, CarriesAt first queued acked window sent s pos

/-- A call in progress on an open connection that had sent up to position `sent` before, while the
peer's window is `window`. -/
structure TxOk (first : UInt32) (queued : List UInt8) (sent window : Nat) (w : Work) : Prop where
  est : w.conn.state = .established
  sound : w.conn.TxSound first queued
  shown : w.conn.remoteWindow = window
  sentTo : w.conn.sentTo queued = sent ∨ w.conn.sentLen ≤ window
  carries : ∀ s ∈ w.out, s.kind = .data → Carries first queued (w.conn.acked queued) window sent s

variable {sent window : Nat}

theorem Conn.TxSound.start (h : c.TxSound first queued) (est : c.state = .established) :
    TxOk first queued (c.sentTo queued) c.remoteWindow (.start c) :=
  ⟨est, h, rfl, .inl rfl, by simp [Work.start]⟩

structure Quiet (w w' : Work) : Prop where
  tx : w'.conn.tx = w.conn.tx
  state : w'.conn.state = w.conn.state
  out : ∀ s ∈ w'.out, s.kind = .data → s ∈ w.out

theorem Quiet.refl (w : Work) : Quiet w w := ⟨rfl, rfl, fun _ hs _ => hs⟩

theorem Quiet.trans (h : Quiet w w') (h' : Quiet w' w'') : Quiet w w'' :=
  ⟨h'.tx.trans h.tx, h'.state.trans h.state, fun s hs data => h.out s (h'.out s hs data) data⟩

theorem Quiet.conn (tx : d.tx = w.conn.tx) (state : d.state = w.conn.state) :
    Quiet w { w with conn := d } :=
  ⟨tx, state, fun _ hs _ => hs⟩

theorem Quiet.emit (w : Work) (other : kind ≠ .data) (seq ack : UInt32)
    (payload : List UInt8) : Quiet w (w.emit kind seq ack payload) := by
  refine ⟨rfl, rfl, fun s hs data => ?_⟩
  obtain hs | hs := mem_append.mp hs
  · exact hs
  · rw [mem_singleton.mp hs] at data
    exact absurd data other

theorem emitAck_quiet (w : Work) : Quiet w w.emitAck := .emit w (by decide) _ _ _

section

variable (h : TxOk first queued sent window w)
include h

theorem TxOk.quiet (q : Quiet w w') : TxOk first queued sent window w' := by
  have hsound : w'.conn.TxSound first queued := .of_tx q.tx h.sound
  have hlen : w'.conn.txLen = w.conn.txLen := congrArg TxView.txLen q.tx
  have hwindow : w'.conn.remoteWindow = w.conn.remoteWindow := congrArg TxView.remoteWindow q.tx
  have hacked : w'.conn.acked queued = w.conn.acked queued := by rw [Conn.acked, Conn.acked, hlen]
  have hsent : w'.conn.sentLen = w.conn.sentLen :=
    congrArg (fun v : TxView => (v.txNextSend - v.txSeqBase).toNat) q.tx
  refine ⟨q.state.trans h.est, hsound, hwindow.trans h.shown, ?_, fun s hs data => ?_⟩
  · rw [Conn.sentTo, hacked, hsent]
    exact h.sentTo
  · rw [hacked]
    exact h.carries s (q.out s hs data) data

theorem TxOk.emit (maxLen : Nat) (hoff : off ≤ w.conn.txLen)
    {seq : UInt32} (hseq : seq = w.conn.txSeqBase + UInt32.ofNat off) (ack : UInt32)
    (fits : ∀ n, n ≤ maxLen → off + n ≤ w.conn.txLen → 0 < n →
      w.conn.acked queued + off + n ≤ w.conn.acked queued + window ∨ (n = 1 ∧ window = 0) ∨
      w.conn.acked queued + off + n ≤ sent)
    (some : (w.conn.txContiguous seq maxLen).isEmpty = false) :
    TxOk first queued sent window (w.emit .data seq ack (w.conn.txContiguous seq maxLen)) := by
  subst hseq
  have hlen := h.sound.len
  obtain ⟨bytes, le, inside⟩ := h.sound.contiguous hoff maxLen
  generalize w.conn.txContiguous (w.conn.txSeqBase + UInt32.ofNat off) maxLen = p at *
  refine ⟨h.est, h.sound, h.shown, h.sentTo, fun s hs data => ?_⟩
  obtain hs | hs := mem_append.mp hs
  · exact h.carries s hs data
  · rw [mem_singleton.mp hs]
    refine ⟨w.conn.acked queued + off, ?_, Nat.le_add_right _ _, ?_, bytes, ?_⟩
    · rw [Serial.add_ofNat, ← h.sound.base]
    · rw [Conn.acked]
      change _ + p.length ≤ _
      omega
    · refine fits p.length le inside (Nat.pos_of_ne_zero fun zero => ?_)
      rw [eq_nil_of_length_eq_zero zero] at some
      cases some

theorem TxOk.advance (le : w.conn.sentLen + n ≤ w.conn.txLen) (fits : w.conn.sentLen + n ≤ window) :
    TxOk first queued sent window { w with
      conn := { w.conn with txNextSend := w.conn.txNextSend + UInt32.ofNat n } } := by
  have small := h.sound.small
  have hsent : (w.conn.txNextSend + UInt32.ofNat n - w.conn.txSeqBase).toNat =
      w.conn.sentLen + n := by
    rw [w.conn.txNextSend_eq, ← Serial.add_ofNat, Serial.toNat_add_sub _ (by omega)]
  refine ⟨h.est, ⟨h.sound.bare, h.sound.room, h.sound.len, h.sound.ring, h.sound.base, ?_,
    h.sound.next⟩, h.shown, .inr ?_, h.carries⟩
  · exact hsent.trans_le le
  · exact hsent.trans_le fits

theorem TxOk.flushLoop (io : Io) {txEnd : UInt32}
    (hend : txEnd = w.conn.txSeqBase + UInt32.ofNat w.conn.txLen) (fuel : Nat) :
    TxOk first queued sent window (w.flushLoop io txEnd fuel) := by
  induction fuel generalizing w with
  | zero => exact h
  | succ fuel ih =>
    have small := h.sound.small
    have hsent := h.sound.sent
    have shown := h.shown
    have left : (txEnd - w.conn.txNextSend).toNat = w.conn.txLen - w.conn.sentLen := by
      rw [hend, w.conn.txNextSend_eq, Serial.toNat_sub_of_le _ hsent (by omega)]
    unfold flushLoop
    dsimp only
    rw [left, ← sentLen]
    by_cases done : (!after txEnd w.conn.txNextSend) = true
    · rw [if_pos done]
      exact h
    rw [if_neg done]
    by_cases closed : w.conn.remoteWindow ≤ w.conn.sentLen
    · rw [if_pos closed]
      exact h
    rw [if_neg closed]
    generalize hchunk : min (min (w.conn.txLen - w.conn.sentLen)
      (w.conn.remoteWindow - w.conn.sentLen)) tcpMaxPayload = chunk
    obtain ⟨-, le, inside⟩ := h.sound.contiguous hsent chunk
    have sends := h.emit chunk hsent w.conn.txNextSend_eq w.conn.remoteSeqNext
      fun n le _ _ => .inl (by omega)
    rw [← w.conn.txNextSend_eq] at le inside
    generalize w.conn.txContiguous w.conn.txNextSend chunk = payload at le inside sends
    have fits : w.conn.sentLen + payload.length ≤ window := by omega
    split_ifs with none nic armed
    · exact h
    · exact sends (by simpa using none)
    · have moved := (sends (by simpa using none)).advance inside fits
      refine ih (moved.quiet (.conn (txArm_tx io _) (txArm_onlySent io _).state)) ?_
      rw [txArm_txLen, show (Conn.txArm io _).txSeqBase = _ from congrArg TxView.txSeqBase (txArm_tx io _)]
      exact hend
    · exact ih ((sends (by simpa using none)).advance inside fits) hend

theorem TxOk.txFlush (io : Io) : TxOk first queued sent window (w.txFlush io) := by
  unfold Work.txFlush
  split_ifs
  · exact h
  · exact h.flushLoop io rfl _

end

theorem rearm_quiet (io : Io) (w : Work) (n : Nat) : Quiet w (w.rearm io n) :=
  .conn (txArm_tx io _) (txArm_onlySent io _).state

theorem TxOk.txRetransmit (h : TxOk first queued sent window w) (io : Io) :
    TxOk first queued sent window (w.txRetransmit io) := by
  have hbase : w.conn.txSeqBase = w.conn.txSeqBase + UInt32.ofNat 0 := by simp
  unfold Work.txRetransmit
  dsimp only
  rw [← Conn.sentLen]
  split_ifs with none unsent closed probe probe
  · exact h
  · exact h.quiet (rearm_quiet io w 1)
  · have probes := h.emit 1 (Nat.zero_le _) hbase w.conn.remoteSeqNext
      (fun n le _ pos => .inr (.inl ⟨by omega, h.shown.symm.trans closed⟩)) (by simpa using probe)
    exact probes.quiet (rearm_quiet io _ 1)
  · exact (h.txFlush io).quiet (rearm_quiet io _ 0)
  · exact h
  · have repeats := h.emit (min w.conn.sentLen tcpMaxPayload) (Nat.zero_le _) hbase
      w.conn.remoteSeqNext (fun n le _ pos => ?_) (by simpa using probe)
    · exact repeats.quiet (rearm_quiet io _ 1)
    · obtain same | fits := h.sentTo
      · rw [Conn.sentTo] at same
        exact .inr (.inr (by omega))
      · exact .inl (by omega)

inductive TxAfter (first : UInt32) (queued : List UInt8) (sent window : Nat) (w : Work) : Prop
  | early (state : w.conn.state = .synSent ∨ w.conn.state = .synRcvd) (none : queued = [])
    (empty : w.conn.txLen = 0) (next : w.conn.localSeqNext + 1 = first)
    (shown : w.conn.remoteWindow = window) (quiet : ∀ s ∈ w.out, s.kind ≠ .data)
  | opened (ok : TxOk first queued sent window w)
  | closing (state : w.conn.state = .finWait) (empty : w.conn.txLen = 0)
    (quiet : ∀ s ∈ w.out, s.kind ≠ .data)
  | ended (closed : w.conn.state = .closed) (empty : w.conn.txLen = 0)
    (quiet : ∀ s ∈ w.out, s.kind ≠ .data)

theorem TxAfter.quiet (h : TxAfter first queued sent window w) (q : Quiet w w') :
    TxAfter first queued sent window w' := by
  have hlen : w'.conn.txLen = w.conn.txLen := congrArg TxView.txLen q.tx
  have out (quiet : ∀ s ∈ w.out, s.kind ≠ .data) : ∀ s ∈ w'.out, s.kind ≠ .data :=
    fun s hs data => quiet s (q.out s hs data) data
  cases h with
  | early state none empty next shown quiet =>
    refine .early (q.state ▸ state) none (hlen.trans empty) ?_
      ((congrArg TxView.remoteWindow q.tx).trans shown) (out quiet)
    rw [show w'.conn.localSeqNext = w.conn.localSeqNext from congrArg TxView.localSeqNext q.tx]
    exact next
  | opened ok => exact .opened (ok.quiet q)
  | closing state empty quiet => exact .closing (q.state.trans state) (hlen.trans empty) (out quiet)
  | ended closed empty quiet => exact .ended (q.state.trans closed) (hlen.trans empty) (out quiet)

theorem TxAfter.ok (h : TxAfter first queued sent window w)
    (est : w.conn.state = .established) : TxOk first queued sent window w := by
  cases h with
  | early state => simp [est] at state
  | opened ok => exact ok
  | closing state => cases state.symm.trans est
  | ended closed => cases closed.symm.trans est

theorem TxAfter.idle (h : TxAfter first queued sent window w)
    (other : w.conn.state ≠ .established) : w.conn.txLen = 0 ∧ ∀ s ∈ w.out, s.kind ≠ .data := by
  cases h with
  | early _ _ empty _ _ quiet => exact ⟨empty, quiet⟩
  | opened ok => exact absurd ok.est other
  | closing _ empty quiet => exact ⟨empty, quiet⟩
  | ended _ empty quiet => exact ⟨empty, quiet⟩

theorem OnlySent.txLen (h : OnlySent c d) : d.txLen = c.txLen := by
  obtain ⟨_, _, _, rfl⟩ := h
  rfl

theorem TxOk.beginClose (h : TxOk first queued sent window w) (io : Io)
    (quiet : ∀ s ∈ w.out, s.kind ≠ .data) : TxAfter first queued sent window (w.beginClose io) ∧
      (w.beginClose io).conn.txLen = w.conn.txLen := by
  unfold Work.beginClose
  rw [if_neg (not_not.mpr h.est)]
  split_ifs with left
  · refine ⟨.opened (TxOk.txFlush (h.quiet (.conn ?_ ?_)) io), (txFlush_onlySent io _).txLen⟩
    · rfl
    · rfl
  · refine ⟨.closing rfl (Nat.eq_zero_of_not_pos left) fun s hs => ?_, rfl⟩
    obtain hs | hs := mem_append.mp hs
    · exact quiet s hs
    · rw [mem_singleton.mp hs]
      simp

def AckedTo (c : Conn) (ack : UInt32) (len : Nat) : Prop :=
  c.txLen = len ∨ (len < c.txLen ∧ after ack c.txSeqBase = true ∧
    c.txLen ≤ len + (ack - c.txSeqBase).toNat)

theorem TxOk.acked (h : TxOk first queued sent window w) (io : Io)
    (quiet : ∀ s ∈ w.out, s.kind ≠ .data) :
    TxAfter first queued sent window (w.acked io) ∧ (w.acked io).conn.txLen = w.conn.txLen := by
  unfold Work.acked
  split_ifs with left request
  · have armed : TxOk first queued sent window
        { w with conn := { w.conn with txRetries := 0 }.txArm io } :=
      h.quiet (.conn (txArm_tx io _) (txArm_onlySent io _).state)
    exact ⟨.opened (armed.txFlush io), (txFlush_onlySent io _).txLen.trans (txArm_txLen io _)⟩
  · have close := beginClose_closing io w h.est
    rw [if_neg left] at close
    have unacked : (w.beginClose io).conn.localFinAcked = false :=
      congrArg CloseView.localFinAcked close
    rw [if_neg (by simp [unacked])]
    exact h.beginClose io quiet
  · exact ⟨.opened h, rfl⟩

theorem ack_covers {ack : UInt32} (small : c.sentLen < 2147483648)
    (new : after ack c.txSeqBase = true) :
    ((if after ack c.txNextSend then c.txNextSend else ack) - c.txSeqBase).toNat =
      min c.sentLen (ack - c.txSeqBase).toNat := by
  simp only [sentLen, Serial.after, Bool.and_eq_true, decide_eq_true_eq, UInt32.toNat_sub] at *
  have hnext := c.txNextSend.toNat_lt
  split_ifs <;> omega

theorem TxOk.txAck (h : TxOk first queued sent window w) (io : Io) (ack : UInt32)
    (quiet : ∀ s ∈ w.out, s.kind ≠ .data) (sentTo : w.conn.sentTo queued = sent) :
    TxAfter first queued sent window (w.txAck io ack) ∧
      AckedTo w.conn ack (w.txAck io ack).conn.txLen := by
  have small := h.sound.sent.trans_lt h.sound.small
  unfold Work.txAck
  extract_lets upTo n
  split_ifs with none old zero
  · exact ⟨.opened h, .inl rfl⟩
  · exact ⟨.opened (h.txFlush io), .inl (txFlush_onlySent io w).txLen.symm⟩
  · exact ⟨.opened (h.txFlush io), .inl (txFlush_onlySent io w).txLen.symm⟩
  · have new : after ack w.conn.txSeqBase = true := by simpa using old
    have covers : n = min w.conn.sentLen (ack - w.conn.txSeqBase).toNat := ack_covers small new
    obtain ⟨sound, len, same⟩ := h.sound.txPop (show n ≤ w.conn.sentLen by omega)
    have popped : TxOk first queued sent window { w with conn := w.conn.txPop n } :=
      ⟨(txPop_state _ _).trans h.est, sound, (txPop_window _ _).trans h.shown, .inl (same.trans sentTo),
        fun s hs data => absurd data (quiet s hs)⟩
    obtain ⟨after, left⟩ := popped.acked io quiet
    rw [left, len]
    exact ⟨after, .inr ⟨by omega, new, by omega⟩⟩

def TxKeeps (first : UInt32) (queued : List UInt8) (sent window : Nat) (w w' : Work) : Prop :=
  TxAfter first queued sent window w' ∧ w'.conn.txLen = w.conn.txLen

theorem TxAfter.keeps (h : TxAfter first queued sent window w) (q : Quiet w w') :
    TxKeeps first queued sent window w w' :=
  ⟨h.quiet q, congrArg TxView.txLen q.tx⟩

theorem TxKeeps.trans (h : TxKeeps first queued sent window w w')
    (h' : TxKeeps first queued sent window w' w'') : TxKeeps first queued sent window w w'' :=
  ⟨h'.1, h'.2.trans h.2⟩

theorem TxAfter.reset (h : TxAfter first queued sent window w) (other : w.conn.state ≠ .established) :
    TxKeeps first queued sent window w w.reset := by
  obtain ⟨empty, quiet⟩ := h.idle other
  exact ⟨.ended rfl rfl quiet, empty.symm⟩

theorem TxAfter.finAck (h : TxAfter first queued sent window w) (ack : UInt32) :
    TxKeeps first queued sent window w (w.finAck ack) := by
  unfold Work.finAck
  dsimp only
  split_ifs with skip peer
  · exact h.keeps (.refl w)
  all_goals simp only [not_or, not_not] at skip
  · exact h.reset (by simp [skip.1])
  · refine h.keeps (.conn ?_ ?_)
    · rfl
    · rfl

theorem TxAfter.tookFin (h : TxAfter first queued sent window w) :
    TxKeeps first queued sent window w w.tookFin := by
  have acked : Quiet w { w with
      conn := { w.conn with remoteSeqNext := w.conn.remoteSeqNext + 1, peerClosed := true }
      out := w.out ++ [⟨.ack, w.conn.localSeqNext, w.conn.remoteSeqNext + 1,
        w.conn.rxWindow, [], w.taken.length + 1⟩]
      fin := true } := by
    refine ⟨rfl, rfl, fun s hs data => ?_⟩
    obtain hs | hs := mem_append.mp hs
    · exact hs
    · rw [mem_singleton.mp hs] at data
      cases data
  have after := h.keeps acked
  unfold Work.tookFin
  dsimp only
  split_ifs with ended
  · exact after.trans (after.1.reset fun est => by cases ended.1.symm.trans est)
  · exact after

theorem OnlyRing.tx (h : OnlyRing c d) : d.tx = c.tx := by
  obtain ⟨_, _, _, _, rfl⟩ := h
  rfl

section

variable (h : TxAfter first queued sent window w)
include h

theorem TxAfter.processRxPayload (io : Io) (payload : List UInt8) (seq : UInt32) (fin : Bool) :
    TxKeeps first queued sent window w (w.processRxPayload io payload seq fin) := by
  unfold Work.processRxPayload
  by_cases order : seq = w.conn.remoteSeqNext
  · rw [if_neg (not_not.mpr order)]
    extract_lets r
    have ring : OnlyRing (w.conn.touch io) r.1 := rxTake_onlyRing io _ payload
    have took : Quiet w (w.took r.1 payload r.2) := ⟨ring.tx, ring.state, fun _ hs _ => hs⟩
    split_ifs
    · exact h.keeps (took.trans (emitAck_quiet _))
    · exact (h.keeps took).trans (h.quiet took).tookFin
  · rw [if_pos order]
    exact h.keeps (emitAck_quiet w)

theorem TxAfter.inputData (io : Io) (seg : Segment)
    (seq : UInt32) : TxKeeps first queued sent window w (w.inputData io seg seq) := by
  unfold Work.inputData
  split_ifs
  · exact h.keeps (.refl w)
  · exact h.processRxPayload io _ _ _

theorem TxAfter.synAcked (state : w.conn.state = .synSent ∨ w.conn.state = .synRcvd) (io : Io) :
    TxKeeps first queued sent window w { w with conn := w.conn.synAcked io } := by
  cases h with
  | early _ none empty next shown quiet =>
    refine ⟨.opened ⟨rfl, .empty empty rfl rfl ?_, shown, .inr ?_, fun s hs data => ?_⟩, rfl⟩
    · rw [none]
      simpa [Conn.synAcked] using next
    · simp [Conn.sentLen, Conn.synAcked]
    · exact absurd data (quiet s hs)
  | opened ok => simp [ok.est] at state
  | closing wait => simp [wait] at state
  | ended closed => simp [closed] at state

theorem TxAfter.inputRest (io : Io) (slot : Bool) (seg : Segment)
    (seq : UInt32) : TxKeeps first queued sent window w (w.inputRest io slot seg seq) := by
  have idle := h.keeps (.refl w)
  unfold Work.inputRest
  split
  · exact idle
  · exact h.inputData io seg seq
  · rename_i rcvd
    have opened := h.synAcked (.inr rcvd) io
    split_ifs
    · exact idle
    · exact opened
    · exact opened.trans (opened.1.inputData io seg seq)
  · exact h.inputData io seg seq
  · exact idle

end

def Drops (c : Conn) (seg : Segment) (len : Nat) : Prop :=
  c.txLen = len ∨ (seg.ack = true ∧ len < c.txLen ∧ after seg.ackNo c.txSeqBase = true ∧
    c.txLen ≤ len + (seg.ackNo - c.txSeqBase).toNat)

theorem TxAfter.txAck (h : TxAfter first queued sent window w) (io : Io) (ack : UInt32)
    (quiet : ∀ s ∈ w.out, s.kind ≠ .data)
    (sentTo : w.conn.txLen ≠ 0 → w.conn.sentTo queued = sent) :
    TxAfter first queued sent window (w.txAck io ack) ∧
      AckedTo w.conn ack (w.txAck io ack).conn.txLen := by
  by_cases none : w.conn.txLen = 0
  · have same : w.txAck io ack = w := by simp [Work.txAck, none]
    rw [same]
    exact ⟨h, .inl rfl⟩
  · have est := not_not.mp fun other => none (h.idle other).1
    exact (h.ok est).txAck io ack quiet (sentTo none)

theorem TxAfter.inputAck (h : TxAfter first queued sent window w) (io : Io) (slot : Bool) (seg : Segment)
    (seq : UInt32) (quiet : ∀ s ∈ w.out, s.kind ≠ .data)
    (sentTo : w.conn.txLen ≠ 0 → w.conn.sentTo queued = sent) :
    TxAfter first queued sent window (w.inputAck io slot seg seq) ∧
      Drops w.conn seg (w.inputAck io slot seg seq).conn.txLen := by
  unfold Work.inputAck
  split_ifs with ack
  · obtain ⟨acked, drops⟩ := h.txAck io seg.ackNo quiet sentTo
    have fins := acked.finAck seg.ackNo
    have rest := fins.trans (fins.1.inputRest io slot seg seq)
    refine ⟨rest.1, ?_⟩
    rw [rest.2]
    exact drops.imp_right fun covers => ⟨ack, covers⟩
  · have rest := h.inputRest io slot seg seq
    exact ⟨rest.1, .inl rest.2.symm⟩

def TxStands (first : UInt32) (queued : List UInt8) (c : Conn) : Prop :=
  TxAfter first queued (c.sentTo queued) c.remoteWindow (.start c)

theorem TxAfter.stands (h : TxAfter first queued sent window w) : TxStands first queued w.conn := by
  have quiet : ∀ s ∈ (start w.conn).out, s.kind ≠ .data := by simp [start]
  cases h with
  | early state none empty next => exact .early state none empty next rfl quiet
  | opened ok => exact .opened (ok.sound.start ok.est)
  | closing state empty => exact .closing state empty quiet
  | ended closed empty => exact .ended closed empty quiet

theorem TxStands.setWindow (h : TxStands first queued c) (window : Nat) :
    TxAfter first queued (c.sentTo queued) window ((Work.start c).setWindow window) := by
  cases h with
  | early state none empty next _ quiet => exact .early state none empty next rfl quiet
  | opened ok =>
    have sound := ok.sound
    exact .opened ⟨ok.est, ⟨sound.bare, sound.room, sound.len, sound.ring, sound.base, sound.sent,
      sound.next⟩, rfl, .inl rfl, by simp [Work.setWindow, Work.start]⟩
  | closing state empty quiet => exact .closing state empty quiet
  | ended closed empty quiet => exact .ended closed empty quiet

theorem TxStands.inputSyn (h : TxStands first queued c) (io : Io) (slot : Bool) (seg : Segment)
    (syn : c.state = .synSent) : TxAfter first queued (c.sentTo queued) seg.window
        (((Work.start c).setWindow seg.window).inputSyn io slot seg) ∧
      Drops c seg (((Work.start c).setWindow seg.window).inputSyn io slot seg).conn.txLen := by
  have window := h.setWindow seg.window
  have empty : c.txLen = 0 := (h.idle (by simp [start, syn])).1
  have answered := window.synAcked (.inl syn) io
  have connected : TxKeeps first queued (c.sentTo queued) seg.window
      ((Work.start c).setWindow seg.window)
      { (Work.start c).setWindow seg.window with
        conn := ((Work.start c).setWindow seg.window).conn.connected io seg.seq : Work }.emitAck := by
    refine answered.trans (answered.1.keeps (.trans (.conn ?_ ?_) (emitAck_quiet _)))
    · rfl
    · rfl
  unfold Work.inputSyn
  split_ifs
  · exact ⟨window, .inl rfl⟩
  · exact ⟨connected.1, .inl connected.2.symm⟩
  · obtain ⟨after, drops⟩ := connected.1.inputAck io slot seg (seg.seq + 1)
      (fun s hs => by rw [mem_singleton.mp hs]; simp) fun some => absurd empty some
    refine ⟨after, .inl ?_⟩
    obtain same | ⟨-, less, -⟩ := drops
    · exact same
    · exact absurd (less.trans_eq empty) (Nat.not_lt_zero _)

theorem TxStands.input (h : TxStands first queued c) (io : Io) (slot : Bool) {seg : Segment}
    (rst : seg.rst = false) :
    TxAfter first queued (c.sentTo queued) seg.window ((Work.start c).input io slot seg) ∧
      Drops c seg ((Work.start c).input io slot seg).conn.txLen := by
  unfold Work.input
  split_ifs with closed reset syn
  · obtain ⟨empty, quiet⟩ := h.idle (by simp [closed])
    exact ⟨.ended closed empty quiet, .inl rfl⟩
  · simp [rst] at reset
  · exact h.inputSyn io slot seg syn
  · exact (h.setWindow seg.window).inputAck io slot seg seg.seq
      (by simp [Work.setWindow, Work.start])
      fun _ => rfl

theorem TxAfter.retry (h : TxAfter first queued sent window w) (io : Io)
    (data : kind ≠ .data) (seq ack : UInt32) (other : w.conn.state ≠ .established) :
    TxKeeps first queued sent window w (w.retry io kind seq ack) ∧
      (w.retry io kind seq ack).conn.state ≠ .established := by
  unfold Work.retry
  split_ifs
  · exact ⟨h.reset other, by simp [Work.reset, Conn.zero]⟩
  · refine ⟨h.keeps (.trans (.conn ?_ ?_) (.emit _ data _ _ _)), other⟩
    · rfl
    · rfl

theorem TxKeeps.timeout (h : TxKeeps first queued sent window w w' ∧ w'.conn.state ≠ .established)
    (c : Prop) [Decidable c] : TxKeeps first queued sent window w
      (if w'.conn.state = .closed then w' else if c then w'.reset else w') := by
  split_ifs
  · exact h.1
  · exact h.1.trans (h.1.1.reset h.2)
  · exact h.1

theorem TxAfter.maybeRetransmit (h : TxAfter first queued sent window w) (io : Io) :
    TxKeeps first queued sent window w (w.maybeRetransmit io) := by
  have idle := h.keeps (.refl w)
  unfold Work.maybeRetransmit
  split
  · exact idle
  · rename_i syn
    split_ifs
    · exact idle
    · exact (h.retry io (by decide) _ _ (by simp [syn])).1
  · rename_i rcvd
    split_ifs
    · exact idle
    · exact (h.retry io (by decide) _ _ (by simp [rcvd])).1
  · rename_i est
    have flushed := (h.ok est).txFlush io
    dsimp only
    split_ifs
    · exact ⟨.opened (flushed.txRetransmit io),
        ((txFlush_onlySent io w).trans (txRetransmit_flushes io _).sent).txLen⟩
    · exact ⟨.opened flushed, (txFlush_onlySent io w).txLen⟩
  · rename_i wait
    have other : w.conn.state ≠ .established := by simp [wait]
    by_cases done : (w.conn.localFinAcked && w.conn.peerClosed) = true
    · rw [if_pos done]
      exact h.reset other
    rw [if_neg done]
    by_cases due : (!w.conn.localFinAcked && w.conn.retransmitAt != 0 &&
        decide (w.conn.retransmitAt ≤ io.now)) = true
    · rw [if_pos due]
      exact TxKeeps.timeout (h.retry io (by decide) _ _ other) _
    · rw [if_neg due]
      exact TxKeeps.timeout ⟨idle, other⟩ _

theorem TxStands.recv (h : TxStands first queued c) (len : Nat) :
    TxKeeps first queued (c.sentTo queued) c.remoteWindow (.start c) ((Work.start c).recv len).1 := by
  have popped : Quiet (.start c) { Work.start c with conn := (c.rxPop len).1 } :=
    .conn (rxPop_onlyRing c len).tx (rxPop_onlyRing c len).state
  unfold Work.recv
  dsimp only
  split_ifs
  · exact h.keeps (.refl _)
  · exact h.keeps (.refl _)
  · exact h.keeps (.refl _)
  · exact h.keeps (.refl _)
  · exact h.keeps (popped.trans (emitAck_quiet _))
  · exact h.keeps popped

theorem TxAfter.shutWrite (h : TxAfter first queued sent window w) (io : Io)
    (quiet : ∀ s ∈ w.out, s.kind ≠ .data) : TxKeeps first queued sent window w (w.shutWrite io) := by
  unfold Work.shutWrite
  split_ifs with est
  · simp only [Bool.and_eq_true, decide_eq_true_eq] at est
    exact (h.ok est.1).beginClose io quiet
  · exact h.keeps (.refl w)

theorem shutRead_quiet (w : Work) : Quiet w w.shutRead := by
  have ring := rxRelease_onlyRing { w.conn with localReadClosed := true }
  exact .conn ring.tx ring.state

theorem TxStands.shutdown (h : TxStands first queued c) (io : Io) (how : Shut) :
    TxKeeps first queued (c.sentTo queued) c.remoteWindow (.start c)
      ((Work.start c).shutdown io how).1 := by
  have shut := h.keeps (shutRead_quiet (.start c))
  unfold Work.shutdown
  split_ifs
  · exact h.keeps (.refl _)
  · cases how with
    | rd => exact shut
    | wr => exact h.shutWrite io (by simp [Work.start])
    | rdwr => exact shut.trans (shut.1.shutWrite io (by simp [Work.start, Work.shutRead]))

theorem TxStands.closeConnection (h : TxStands first queued c) (io : Io) :
    TxKeeps first queued (c.sentTo queued) c.remoteWindow (.start c)
      ((Work.start c).closeConnection io) := by
  unfold Work.closeConnection
  split
  · exact h.keeps (.refl _)
  · rename_i est
    have begun := (h.ok est).beginClose io (by simp [Work.start])
    dsimp only
    split_ifs with ended
    · exact TxKeeps.trans begun (begun.1.reset (by simp [ended.1]))
    · exact begun
  · rename_i other
    exact h.reset other

theorem Conn.TxSound.txEnsure (h : c.TxSound first queued) {e : Conn}
    (he : c.txEnsure io = some e) :
    e.TxSound first queued ∧ e.txBuf ≠ none ∧ e.txLen = c.txLen ∧ e.sentLen = c.sentLen ∧
      e.state = c.state ∧ e.remoteWindow = c.remoteWindow := by
  unfold Conn.txEnsure at he
  split_ifs at he with ring
  · obtain rfl := some_inj.mp he
    exact ⟨h, isSome_iff_ne_none.mp ring, rfl, rfl, rfl, rfl⟩
  · obtain ⟨mem, -, rfl⟩ := map_eq_some_iff.mp he
    have empty : c.txLen = 0 := h.bare (by simpa using ring)
    have unsent : c.sentLen = 0 := by
      have := h.sent
      omega
    refine ⟨.empty rfl rfl rfl h.next, by simp, empty.symm, ?_, rfl, rfl⟩
    rw [unsent]
    simp [Conn.sentLen, Conn.txRelease]

theorem armOnce_quiet (io : Io) (w : Work) : Quiet w (w.armOnce io) := by
  unfold armOnce
  split_ifs
  · exact .conn (txArm_tx io _) (txArm_onlySent io _).state
  · exact .refl w

theorem TxStands.send (h : TxStands first queued c) (io : Io) (data : List UInt8) :
    let r := (Work.start c).send io data
    let new := data.take (r.2.toOption.getD 0)
    TxAfter first (queued ++ new) (c.sentTo queued) c.remoteWindow r.1 ∧
      r.1.conn.txLen = c.txLen + new.length := by
  have refused : TxAfter first (queued ++ data.take 0) (c.sentTo queued) c.remoteWindow (.start c) ∧
      c.txLen = c.txLen + (data.take 0).length := by
    rw [take_zero, append_nil]
    exact ⟨h, rfl⟩
  unfold Work.send
  split_ifs with none closed shut
  · exact refused
  · exact refused
  · exact refused
  have est : c.state = .established := not_not.mp closed
  split
  · exact refused
  · rename_i e he
    have now : c.TxSound first queued := (h.ok est).sound
    obtain ⟨sound, ring, len, sent, state, shown⟩ := now.txEnsure he
    have hsent : e.sentTo queued = c.sentTo queued := by
      rw [Conn.sentTo, Conn.sentTo, Conn.acked, Conn.acked, len, sent]
    split_ifs with full
    · refine ⟨?_, len⟩
      change TxAfter first (queued ++ data.take 0) _ _ _
      rw [take_zero, append_nil]
      exact .opened ⟨state.trans est, sound, shown, .inl hsent, by simp [Work.start]⟩
    · obtain ⟨b, hb⟩ := ne_none_iff_exists'.mp ring
      generalize hnew : data.take e.txSpace = new
      have fits : new.length ≤ e.txSpace := by
        rw [← hnew]
        exact length_take_le _ _
      obtain ⟨sound', acked', sent'⟩ := sound.txQueue hb fits
      have queues : TxOk first (queued ++ new) (c.sentTo queued) c.remoteWindow
          { Work.start c with conn := e.txQueue new } := by
        refine ⟨?_, sound', ?_, .inl ?_, by simp [Work.start]⟩
        · exact (txQueue_rx e new).2.trans (state.trans est)
        · rw [sound.txQueue_eq new]
          exact shown
        · rw [Conn.sentTo, acked', sent', ← hsent, Conn.sentTo]
      have flushed := (queues.txFlush io).quiet (armOnce_quiet io _)
      have same : data.take new.length = new := by
        rw [← hnew, length_take, take_eq_take_iff]
        omega
      change TxAfter first (queued ++ data.take new.length) _ _ _ ∧
        _ = _ + (data.take new.length).length
      rw [same]
      refine ⟨.opened flushed, ?_⟩
      have hlen : (e.txQueue new).txLen = c.txLen + new.length := by
        rw [sound.txQueue_eq new, ← len]
      have last := (txFlush_onlySent io { Work.start c with conn := e.txQueue new }).trans
        (armOnce_flushes io _).sent
      exact last.txLen.trans hlen

/-- The window that the peer has advertised last, a segment's own included. -/
def Call.lastWindow (c : Conn) : Call → Nat
  | .segment _ seg => seg.window
  | _ => c.remoteWindow

/-- What a call leaves in the ring: all that was there and that it queued, without what an
acknowledgement covers. -/
def Releases (c : Conn) (call : Call) (d : Done) : Prop :=
  c.txLen + d.queued.length = d.conn.txLen ∨
    ∃ slot seg, call = .segment slot seg ∧ Drops c seg d.conn.txLen

theorem TxStands.segment (h : TxStands first queued c) (io : Io) (slot : Bool) (seg : Segment) :
    TxAfter first queued (c.sentTo queued) seg.window ((Work.start c).input io slot seg) ∧
      (seg.rst = false → Drops c seg ((Work.start c).input io slot seg).conn.txLen) := by
  cases rst : seg.rst with
  | false =>
    obtain ⟨after, drops⟩ := h.input io slot rst
    exact ⟨after, fun _ => drops⟩
  | true =>
    refine ⟨?_, by simp⟩
    by_cases closed : c.state = .closed
    · obtain ⟨empty, quiet⟩ := h.idle (by simp [start, closed])
      rw [Work.input, if_pos (show (Work.start c).conn.state = _ from closed)]
      exact .ended closed empty quiet
    · rw [Work.input, if_neg (show ¬(Work.start c).conn.state = _ from closed), if_pos rst]
      exact .ended rfl rfl (by simp [Work.reset, Work.start])

theorem TxStands.call (h : TxStands first queued c) (io : Io) (call : Call) :
    TxAfter first (queued ++ (call.run io c).queued) (c.sentTo queued) (call.lastWindow c)
        (call.run io c).toWork ∧ ((∀ slot seg, call = .segment slot seg → seg.rst = false) →
        Releases c call (call.run io c)) := by
  have keeps {w : Work} {returned : List UInt8}
      (k : TxKeeps first queued (c.sentTo queued) c.remoteWindow (.start c) w) :
      TxAfter first (queued ++ []) (c.sentTo queued) c.remoteWindow w ∧
        Releases c call ⟨w, returned, []⟩ :=
    ⟨(append_nil queued).symm ▸ k.1, .inl k.2.symm⟩
  cases call with
  | segment slot seg =>
    obtain ⟨after, drops⟩ := h.segment io slot seg
    refine ⟨?_, fun rst => .inr ⟨slot, seg, rfl, drops (rst slot seg rfl)⟩⟩
    simp only [Call.run, append_nil]
    exact after
  | service => exact (keeps (h.maybeRetransmit io)).imp_right fun r _ => r
  | recv len => exact (keeps (h.recv len)).imp_right fun r _ => r
  | send data =>
    obtain ⟨after, len⟩ := h.send io data
    exact ⟨after, fun _ => .inl len.symm⟩
  | shutdown how => exact (keeps (h.shutdown io how)).imp_right fun r _ => r
  | close => exact (keeps (h.closeConnection io)).imp_right fun r _ => r

section

variable {isn : UInt32} {ok : Io → Hist → Call → Prop} {h : Hist}

theorem Reaches.txStands (r : Reaches isn ok h) : TxStands h.first h.queued h.conn := by
  induction r with
  | accept io ip id seg seq => exact .early (.inr rfl) rfl rfl rfl rfl (by simp [start])
  | connect io ip id port mac remote remotePort =>
    exact .early (.inl rfl) rfl rfl rfl rfl (by simp [start])
  | call r io call heard ih => exact (ih.call io call).1.stands

end

/-- Each data segment carries the bytes that belong to its number, and goes beyond the last window
only as a probe or with what was sent before; bytes leave the ring when they are acknowledged. -/
theorem transmitted_stream {isn : UInt32} {ok : Io → Hist → Call → Prop} {h : Hist}
    (r : Reaches isn ok h) : (h.conn.state = .established →
      h.conn.txSeqBase = h.first + UInt32.ofNat (h.conn.acked h.queued) ∧
      h.conn.sentLen ≤ h.conn.txLen ∧ h.conn.txLen ≤ tcpTxBufferSize ∧
      h.conn.txSeqBase + UInt32.ofNat h.conn.txLen = h.conn.localSeqNext) ∧
    ∀ io call, let d := call.run io h.conn
      (∀ s ∈ d.out, s.kind = .data → Carries h.first (h.queued ++ d.queued)
        (d.conn.acked (h.queued ++ d.queued)) (call.lastWindow h.conn) (h.conn.sentTo h.queued) s) ∧
      (d.conn.state = .established → d.conn.remoteWindow = call.lastWindow h.conn) ∧
      ((∀ slot seg, call = .segment slot seg → seg.rst = false) → Releases h.conn call d) := by
  have stands := r.txStands
  refine ⟨fun est => ?_, fun io call => ?_⟩
  · have sound := (stands.ok est).sound
    exact ⟨sound.base, sound.sent, sound.room, sound.localSeqNext⟩
  · obtain ⟨after, releases⟩ := stands.call io call
    refine ⟨fun s hs data => ?_, fun est => ?_, releases⟩
    · by_cases est : (call.run io h.conn).conn.state = .established
      · exact (after.ok est).carries s hs data
      · exact absurd data ((after.idle est).2 s hs)
    · exact (after.ok est).shown

def Hist.sentTwo : Hist :=
  ((Hist.opened 1 []).step plainIo
    (.segment true { dataSegment 1 [] with ack := true, ackNo := 0x534D414D, window := 2 })).step
    plainIo (.send [7, 8])

theorem reaches_sentTwo : Reaches 0 (fun _ _ _ => True) Hist.sentTwo :=
  ((reaches_opened trivial).call plainIo _ trivial).call plainIo (.send [7, 8]) trivial

theorem transmitted_stream_two_bytes :
    Hist.sentTwo.conn.state = .established ∧ Hist.sentTwo.conn.sentLen = 2 ∧
      Hist.sentTwo.conn.txSeqBase + UInt32.ofNat Hist.sentTwo.conn.txLen =
        Hist.sentTwo.conn.localSeqNext := by
  have est : Hist.sentTwo.conn.state = .established := by decide
  exact ⟨est, by decide, ((transmitted_stream reaches_sentTwo).1 est).2.2.2⟩

/-- A data segment ends inside the window behind what is acknowledged, or probes a closed one. -/
def InWindow (c : Conn) (s : Sent) : Prop :=
  (s.seq - c.txSeqBase).toNat + s.payload.length ≤ c.remoteWindow ∨
    (s.payload.length = 1 ∧ c.remoteWindow = 0)

instance (c : Conn) (s : Sent) : Decidable (InWindow c s) := inferInstanceAs (Decidable (_ ∨ _))

/-- What was sent is sent again in full when the window has closed since. -/
theorem retransmission_beyond_window :
    ¬∀ (isn : UInt32) (h : Hist), Reaches isn (fun _ _ _ => True) h → ∀ (io : Io) (call : Call),
      ∀ s ∈ (call.run io h.conn).out, s.kind = .data → InWindow (call.run io h.conn).conn s := by
  intro always
  have r := reaches_sentTwo.call plainIo
    (.segment true { dataSegment 1 [] with ack := true, ackNo := 0x534D414D }) trivial
  have all := always 0 _ r { plainIo with now := 300 } .service
  revert all
  decide

end SmallOS.Net
