import SmallOS.Lib.Bytes
import SmallOS.Lib.Ring
import SmallOS.Lib.Serial
import SmallOS.Net.Frame

/-! One TCP connection: its record in the table, and what the calls of the socket layer, the
segments of its peer and the runs of the service do to it. -/

namespace SmallOS.Net
open Bytes Serial

def tcpRetryTicks : UInt32 := 300
def tcpFinWaitTicks : Nat := 18000
def tcpMaxRetries : Nat := 3
def tcpMaxPayload : Nat := 1464
def tcpRxBufferSize : Nat := 65536
def tcpTxBufferSize : Nat := 16384

inductive TcpState
  | closed | synSent | synRcvd | established | finWait
deriving DecidableEq, Repr

structure Conn where
  state : TcpState
  accepted : Bool
  localIp : Nat
  localPort : Nat
  connId : Nat
  remoteMac : List UInt8
  remoteIp : Nat
  remotePort : Nat
  remoteSeqNext : UInt32
  localSeqNext : UInt32
  lastActivity : UInt32
  retransmitAt : UInt32
  retries : Nat
  rxBuf : Option Buf
  rxLen : Nat
  rxHead : Nat
  rxWindowClosed : Bool
  txBuf : Option Buf
  txLen : Nat
  txHead : Nat
  txSeqBase : UInt32
  txNextSend : UInt32
  txRetransmitAt : UInt32
  txRetries : Nat
  remoteWindow : Nat
  closeRequested : Bool
  peerClosed : Bool
  localReadClosed : Bool
  localWriteClosed : Bool
  localFinAcked : Bool

def Conn.zero : Conn :=
  ⟨.closed, false, 0, 0, 0, [], 0, 0, 0, 0, 0, 0, 0, none, 0, 0, false, none, 0, 0, 0, 0, 0, 0, 0,
    false, false, false, false, false⟩

/-- What a call finds in the rest of the machine: the ticks, which of the segments it emits the
card takes, and the frames for a ring, with what they held before. -/
structure Io where
  now : UInt32
  nic : Nat → Bool
  rxMem : Option Buf
  txMem : Option Buf

inductive Kind
  | syn | synAck | ack | data | finAck
deriving DecidableEq

/-- A segment that leaves, and how much of the peer's stream its call had taken by then. -/
structure Sent where
  kind : Kind
  seq : UInt32
  ack : UInt32
  window : Nat
  payload : List UInt8
  taken : Nat

/-- A call in progress: the record and the segments it has emitted. The bytes of the peer's
stream that it has taken, and whether its FIN, are kept beside them. -/
structure Work where
  conn : Conn
  out : List Sent
  taken : List UInt8
  fin : Bool

def Work.start (c : Conn) : Work := ⟨c, [], [], false⟩

def Work.count (w : Work) : Nat := w.taken.length + w.fin.toNat

/-! The receive ring. -/

def Conn.rxRelease (c : Conn) : Conn :=
  if c.rxBuf.isNone then c
  else { c with rxBuf := none, rxLen := 0, rxHead := 0, rxWindowClosed := false }

def Conn.rxEnsure (io : Io) (c : Conn) : Conn :=
  if c.rxBuf.isSome then c
  else match io.rxMem with
    | none => { c with rxWindowClosed := true }
    | some mem => { c with rxBuf := some mem, rxHead := 0, rxLen := 0, rxWindowClosed := false }

def Conn.rxWindow (c : Conn) : Nat :=
  if c.rxWindowClosed then 0
  else if c.localReadClosed then 65535
  else min (tcpRxBufferSize - c.rxLen) 65535

def storeRing (b : Buf) (tail : Nat) (data : List UInt8) : Buf :=
  let first := min (tcpRxBufferSize - tail) data.length
  copy (copy b tail first (ofList data)) 0 (data.length - first) (ofList (data.drop first))

def Conn.rxPush (io : Io) (c : Conn) (data : List UInt8) : Conn × Nat :=
  if data.isEmpty ∨ tcpRxBufferSize ≤ c.rxLen then (c, 0)
  else
    let c := c.rxEnsure io
    match c.rxBuf with
    | none => (c, 0)
    | some b =>
      let n := min (tcpRxBufferSize - c.rxLen) data.length
      ({ c with
          rxBuf := some (storeRing b ((c.rxHead + c.rxLen) % tcpRxBufferSize) (data.take n))
          rxLen := c.rxLen + n }, n)

def loadRing (b : Buf) (head n : Nat) : List UInt8 :=
  let first := min (tcpRxBufferSize - head) n
  (List.range first).map (fun i => b (head + i)) ++ (List.range (n - first)).map (fun i => b i)

def Conn.rxPop (c : Conn) (len : Nat) : Conn × List UInt8 :=
  match c.rxBuf with
  | none => (c, [])
  | some b =>
    if len = 0 then (c, [])
    else
      let n := min c.rxLen len
      let c' := { c with rxHead := (c.rxHead + n) % tcpRxBufferSize, rxLen := c.rxLen - n }
      (if c'.rxLen = 0 then c'.rxRelease else c', loadRing b c.rxHead n)

/-! The transmit ring. -/

def Conn.txRelease (c : Conn) : Conn := { c with
  txBuf := none
  txLen := 0
  txHead := 0
  txSeqBase := c.localSeqNext
  txNextSend := c.localSeqNext
  txRetransmitAt := 0
  txRetries := 0 }

def Conn.txEnsure (io : Io) (c : Conn) : Option Conn :=
  if c.txBuf.isSome then some c
  else io.txMem.map fun mem => { c.txRelease with txBuf := some mem }

def Conn.txSpace (c : Conn) : Nat := tcpTxBufferSize - c.txLen

def putRing (b : Buf) (pos : Nat) : List UInt8 → Buf
  | [] => b
  | x :: rest => putRing (b.set (pos % tcpTxBufferSize) x) (pos + 1) rest

def Conn.txPop (c : Conn) (len : Nat) : Conn :=
  let n := min len c.txLen
  let base := c.txSeqBase + UInt32.ofNat n
  let c' := { c with
    txHead := (c.txHead + n) % tcpTxBufferSize
    txLen := c.txLen - n
    txSeqBase := base
    txNextSend := if before c.txNextSend base then base else c.txNextSend }
  if c'.txLen = 0 then c'.txRelease else c'

def Conn.txContiguous (c : Conn) (seq : UInt32) (maxLen : Nat) : List UInt8 :=
  match c.txBuf with
  | none => []
  | some b =>
    if before seq c.txSeqBase then []
    else
      let offset := (seq - c.txSeqBase).toNat
      if c.txLen ≤ offset then []
      else
        let pos := (c.txHead + offset) % tcpTxBufferSize
        (List.range (min (min (c.txLen - offset) maxLen) (tcpTxBufferSize - pos))).map
          fun i => b (pos + i)

def Conn.txArm (io : Io) (c : Conn) : Conn :=
  if c.txLen = 0 then c else { c with txRetransmitAt := io.now + tcpRetryTicks }

/-! Segments that leave. -/

def Work.emit (w : Work) (kind : Kind) (seq ack : UInt32) (payload : List UInt8) : Work :=
  { w with out := w.out ++ [⟨kind, seq, ack, w.conn.rxWindow, payload, w.count⟩] }

def Work.emitAck (w : Work) : Work :=
  w.emit .ack w.conn.localSeqNext w.conn.remoteSeqNext []

def Work.flushLoop (io : Io) (txEnd : UInt32) : (fuel : Nat) → Work → Work
  | 0, w => w
  | fuel + 1, w =>
    let c := w.conn
    let outstanding := (c.txNextSend - c.txSeqBase).toNat
    if !after txEnd c.txNextSend then w
    else if c.remoteWindow ≤ outstanding then w
    else
      let chunk := min (min (txEnd - c.txNextSend).toNat (c.remoteWindow - outstanding))
        tcpMaxPayload
      let payload := c.txContiguous c.txNextSend chunk
      if payload.isEmpty then w
      else
        let w' := w.emit .data c.txNextSend c.remoteSeqNext payload
        if !io.nic w.out.length then w'
        else
          let c' := { c with txNextSend := c.txNextSend + UInt32.ofNat payload.length }
          flushLoop io txEnd fuel
            { w' with conn := if c'.txRetransmitAt = 0 then c'.txArm io else c' }

def Work.txFlush (io : Io) (w : Work) : Work :=
  if w.conn.state ≠ .established ∨ w.conn.txLen = 0 then w
  else w.flushLoop io (w.conn.txSeqBase + UInt32.ofNat w.conn.txLen) w.conn.txLen

def Work.rearm (io : Io) (w : Work) (n : Nat) : Work :=
  { w with conn := { w.conn with txRetries := w.conn.txRetries + n }.txArm io }

def Work.txRetransmit (io : Io) (w : Work) : Work :=
  let sentLen := (w.conn.txNextSend - w.conn.txSeqBase).toNat
  let resend (payload : List UInt8) : Work :=
    w.emit .data w.conn.txSeqBase w.conn.remoteSeqNext payload
  if w.conn.txLen = 0 then w
  else if sentLen = 0 then
    if w.conn.remoteWindow = 0 then
      let payload := w.conn.txContiguous w.conn.txSeqBase 1
      if payload.isEmpty then w.rearm io 1 else (resend payload).rearm io 1
    else (w.txFlush io).rearm io 0
  else
    let payload := w.conn.txContiguous w.conn.txSeqBase (min sentLen tcpMaxPayload)
    if payload.isEmpty then w else (resend payload).rearm io 1

/-! Closing. -/

def Work.reset (w : Work) : Work := { w with conn := .zero }

def Conn.finSent (io : Io) (c : Conn) : Conn := { c with
  localSeqNext := c.localSeqNext + 1
  closeRequested := false
  localFinAcked := false
  state := .finWait
  lastActivity := io.now
  retransmitAt := io.now + tcpRetryTicks
  retries := 0 }

def Work.beginClose (io : Io) (w : Work) : Work :=
  if w.conn.state ≠ .established then w
  else if 0 < w.conn.txLen then
    { w with conn := { w.conn with localWriteClosed := true, closeRequested := true } : Work }.txFlush
      io
  else
    let w := { w with conn := { w.conn with localWriteClosed := true } : Work }.emit .finAck
      w.conn.localSeqNext w.conn.remoteSeqNext []
    { w with conn := w.conn.finSent io }

def Work.acked (io : Io) (w : Work) : Work :=
  if 0 < w.conn.txLen then
    { w with conn := { w.conn with txRetries := 0 }.txArm io : Work }.txFlush io
  else if w.conn.closeRequested then
    let w := w.beginClose io
    if w.conn.peerClosed && w.conn.localFinAcked then w.reset else w
  else w

def Work.txAck (io : Io) (w : Work) (ack : UInt32) : Work :=
  let upTo := if after ack w.conn.txNextSend then w.conn.txNextSend else ack
  let n := (upTo - w.conn.txSeqBase).toNat
  if w.conn.txLen = 0 then w
  else if !after ack w.conn.txSeqBase then w.txFlush io
  else if n = 0 then w.txFlush io
  else { w with conn := w.conn.txPop n : Work }.acked io

def Work.finAck (w : Work) (ack : UInt32) : Work :=
  let c := w.conn
  if c.state ≠ .finWait ∨ c.localFinAcked ∨ before ack c.localSeqNext then w
  else if c.peerClosed then w.reset
  else { w with conn := { c with localFinAcked := true, retransmitAt := 0, retries := 0 } }

/-! Segments that arrive. -/

/-- The record and the number of bytes of a segment that are taken; nobody reads what arrives
after the read side was shut down. -/
def Conn.rxTake (io : Io) (c : Conn) (payload : List UInt8) : Conn × Nat :=
  if payload.isEmpty then (c, 0)
  else if c.localReadClosed then (c, payload.length)
  else c.rxPush io payload

def Conn.touch (io : Io) (c : Conn) : Conn := { c with lastActivity := io.now }

def Work.took (w : Work) (c : Conn) (payload : List UInt8) (n : Nat) : Work := { w with
  conn := { c with remoteSeqNext := c.remoteSeqNext + UInt32.ofNat n }
  taken := w.taken ++ payload.take n }

def Work.tookFin (w : Work) : Work :=
  let w := { w with
    conn := { w.conn with remoteSeqNext := w.conn.remoteSeqNext + 1 }
    fin := true : Work }.emitAck
  let w := { w with conn := { w.conn with peerClosed := true } }
  if w.conn.state = .finWait ∧ w.conn.localFinAcked then w.reset else w

def Work.processRxPayload (io : Io) (w : Work) (payload : List UInt8) (seq : UInt32) (fin : Bool) :
    Work :=
  if seq ≠ w.conn.remoteSeqNext then w.emitAck
  else
    let r := (w.conn.touch io).rxTake io payload
    if r.2 < payload.length ∨ !fin then (w.took r.1 payload r.2).emitAck
    else (w.took r.1 payload r.2).tookFin

def Work.inputData (io : Io) (seg : Segment) (w : Work) (seq : UInt32) : Work :=
  if tcpMaxPayload < seg.payload.length then w
  else w.processRxPayload io seg.payload seq seg.fin

def Conn.synAcked (io : Io) (c : Conn) : Conn := { c with
  state := .established
  localSeqNext := c.localSeqNext + 1
  txSeqBase := c.localSeqNext + 1
  txNextSend := c.localSeqNext + 1
  lastActivity := io.now }

def Conn.connected (io : Io) (seq : UInt32) (c : Conn) : Conn := { c.synAcked io with
  remoteSeqNext := seq + 1
  retransmitAt := 0
  retries := 0 }

/-- `tcp_echo_payload` behind the acknowledgement, with the data at `seq`; `slot` says that the
port has a listener slot. -/
def Work.inputRest (io : Io) (slot : Bool) (seg : Segment) (w : Work) (seq : UInt32) : Work :=
  match w.conn.state with
  | .closed => w
  | .finWait => w.inputData io seg seq
  | .synRcvd =>
    if !slot || !seg.ack || seg.ackNo ≠ w.conn.localSeqNext + 1 then w
    else
      let w := { w with conn := w.conn.synAcked io }
      if seg.payload.isEmpty && !seg.fin then w else w.inputData io seg seq
  | .established => w.inputData io seg seq
  | .synSent => w

def Work.inputAck (io : Io) (slot : Bool) (seg : Segment) (w : Work) (seq : UInt32) : Work :=
  let w := if seg.ack then (w.txAck io seg.ackNo).finAck seg.ackNo else w
  w.inputRest io slot seg seq

def Work.inputSyn (io : Io) (slot : Bool) (seg : Segment) (w : Work) : Work :=
  if !seg.syn || !seg.ack || seg.ackNo ≠ w.conn.localSeqNext + 1 then w
  else
    let w := { w with conn := w.conn.connected io seg.seq : Work }.emitAck
    if seg.payload.isEmpty && !seg.fin then w
    else w.inputAck io slot seg (seg.seq + 1)

def Work.setWindow (w : Work) (window : Nat) : Work :=
  { w with conn := { w.conn with remoteWindow := window } }

def Work.input (io : Io) (slot : Bool) (w : Work) (seg : Segment) : Work :=
  if w.conn.state = .closed then w
  else if seg.rst then w.reset
  else if w.conn.state = .synSent then (w.setWindow seg.window).inputSyn io slot seg
  else (w.setWindow seg.window).inputAck io slot seg seg.seq

def acceptSyn (io : Io) (localIp connId : Nat) (seg : Segment) : Work :=
  let seq := 0x534D414C + UInt32.ofNat connId
  (Work.start { Conn.zero with
      remoteMac := seg.mac
      localIp := localIp
      localPort := seg.dstPort
      connId := connId
      remoteIp := seg.srcIp
      remotePort := seg.srcPort
      remoteSeqNext := seg.seq + 1
      localSeqNext := seq
      txSeqBase := seq
      txNextSend := seq
      remoteWindow := seg.window
      state := .synRcvd
      lastActivity := io.now
      retransmitAt := io.now + tcpRetryTicks }).emit .synAck seq (seg.seq + 1) []

def connectSyn (io : Io) (localIp connId port : Nat) (mac : List UInt8) (ip remotePort : Nat) :
    Work :=
  let seq := 0x434F4E4E + UInt32.ofNat connId
  (Work.start { Conn.zero with
      remoteMac := mac
      localIp := localIp
      localPort := port
      connId := connId
      remoteIp := ip
      remotePort := remotePort
      localSeqNext := seq
      txSeqBase := seq
      txNextSend := seq
      remoteWindow := 1
      state := .synSent
      accepted := true
      lastActivity := io.now
      retransmitAt := io.now + tcpRetryTicks }).emit .syn seq 0 []

/-! The service. -/

def Work.retry (io : Io) (w : Work) (kind : Kind) (seq ack : UInt32) : Work :=
  if tcpMaxRetries ≤ w.conn.retries then w.reset
  else
    { w with conn := { w.conn with
        retries := w.conn.retries + 1
        retransmitAt := io.now + tcpRetryTicks } : Work }.emit kind seq ack []

def Work.maybeRetransmit (io : Io) (w : Work) : Work :=
  match w.conn.state with
  | .closed => w
  | .synSent =>
    if io.now < w.conn.retransmitAt then w else w.retry io .syn w.conn.localSeqNext 0
  | .synRcvd =>
    if io.now < w.conn.retransmitAt then w
    else w.retry io .synAck w.conn.localSeqNext w.conn.remoteSeqNext
  | .established =>
    let w := w.txFlush io
    if 0 < w.conn.txLen ∧ w.conn.txRetransmitAt ≠ 0 ∧ w.conn.txRetransmitAt ≤ io.now then
      w.txRetransmit io
    else w
  | .finWait =>
    if w.conn.localFinAcked && w.conn.peerClosed then w.reset
    else
      let w :=
        if !w.conn.localFinAcked && w.conn.retransmitAt != 0 && w.conn.retransmitAt ≤ io.now then
          w.retry io .finAck (w.conn.localSeqNext - 1) w.conn.remoteSeqNext
        else w
      if w.conn.state = .closed then w
      else if tcpFinWaitTicks < (io.now - w.conn.lastActivity).toNat then w.reset
      else w

/-! Calls of the socket layer. -/

inductive TcpError
  | failed | connReset | pipe | noMem | again
deriving DecidableEq

def Work.recv (w : Work) (len : Nat) : Work × Except TcpError (List UInt8) :=
  let c := w.conn
  if c.state = .closed then (w, .error .failed)
  else if c.localReadClosed then (w, .ok [])
  else if c.state ≠ .established ∧ c.state ≠ .finWait ∧ !c.peerClosed then (w, .error .failed)
  else if c.rxLen = 0 then (w, .ok [])
  else
    let r := c.rxPop len
    let w := { w with conn := r.1 }
    (if r.2 ≠ [] ∧ (r.1.state = .established ∨ r.1.state = .finWait) then w.emitAck else w,
      .ok r.2)

def Conn.txQueue (c : Conn) (data : List UInt8) : Conn :=
  let c := if c.txLen = 0 then
      { c with txSeqBase := c.localSeqNext, txNextSend := c.localSeqNext } else c
  { c with
    txBuf := c.txBuf.map fun b => putRing b (c.txHead + c.txLen) data
    txLen := c.txLen + data.length
    localSeqNext := c.localSeqNext + UInt32.ofNat data.length }

def Work.armOnce (io : Io) (w : Work) : Work :=
  if w.conn.txRetransmitAt = 0 then { w with conn := w.conn.txArm io } else w

def Work.send (io : Io) (w : Work) (data : List UInt8) : Work × Except TcpError Nat :=
  if data.isEmpty then (w, .ok 0)
  else if w.conn.state ≠ .established then (w, .error .connReset)
  else if w.conn.localWriteClosed then (w, .error .pipe)
  else match w.conn.txEnsure io with
    | none => (w, .error .noMem)
    | some c =>
      if c.txSpace = 0 then ({ w with conn := c }, .error .again)
      else
        let data := data.take c.txSpace
        (({ w with conn := c.txQueue data : Work }.txFlush io).armOnce io, .ok data.length)

inductive Shut
  | rd | wr | rdwr
deriving DecidableEq

def Work.shutRead (w : Work) : Work :=
  { w with conn := { w.conn with localReadClosed := true }.rxRelease }

def Work.shutWrite (io : Io) (w : Work) : Work :=
  if w.conn.state = .established && !w.conn.localWriteClosed then w.beginClose io else w

def Work.shutdown (io : Io) (w : Work) (how : Shut) : Work × Except TcpError Unit :=
  if w.conn.state ≠ .established ∧ w.conn.state ≠ .finWait then (w, .error .connReset)
  else (match how with
    | .rd => w.shutRead
    | .wr => w.shutWrite io
    | .rdwr => w.shutRead.shutWrite io, .ok ())

def Work.closeConnection (io : Io) (w : Work) : Work :=
  match w.conn.state with
  | .closed => w
  | .established =>
    let w := w.beginClose io
    if w.conn.state = .finWait ∧ w.conn.peerClosed ∧ w.conn.localFinAcked then w.reset else w
  | _ => w.reset

inductive Call
  | segment (slot : Bool) (seg : Segment)
  | service
  | recv (len : Nat)
  | send (data : List UInt8)
  | shutdown (how : Shut)
  | close

structure Done extends Work where
  returned : List UInt8
  queued : List UInt8

def Call.run (io : Io) (c : Conn) : Call → Done
  | .segment slot seg => ⟨(Work.start c).input io slot seg, [], []⟩
  | .service => ⟨(Work.start c).maybeRetransmit io, [], []⟩
  | .recv len =>
    let r := (Work.start c).recv len
    ⟨r.1, r.2.toOption.getD [], []⟩
  | .send data =>
    let r := (Work.start c).send io data
    ⟨r.1, [], data.take (r.2.toOption.getD 0)⟩
  | .shutdown how => ⟨((Work.start c).shutdown io how).1, [], []⟩
  | .close => ⟨(Work.start c).closeConnection io, [], []⟩

end SmallOS.Net
