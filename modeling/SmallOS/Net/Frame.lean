import Mathlib.Algebra.Group.Nat.Defs
import SmallOS.Lib.Packet

/-! Received frames: `net_poll_once` and the parsers it hands a frame to. A frame is the list
of its bytes; the parsers return what they take from it for the rest of the network code. -/

namespace SmallOS.Net
open Packet

abbrev Frame := List UInt8

def wordSum : List UInt8 → Nat
  | [] => 0
  | [a] => a.toNat * 256
  | a :: b :: rest => a.toNat * 256 + b.toNat + wordSum rest

/-- Carries are added back while there are any; a 32-bit sum has none after two rounds. -/
def foldCarry : (fuel : Nat) → Nat → Nat
  | 0, sum => sum
  | fuel + 1, sum =>
    if sum / 65536 = 0 then sum else foldCarry fuel (sum % 65536 + sum / 65536)

def checksum16 (data : List UInt8) : Nat := 65535 - foldCarry 3 (wordSum data)

def ethertypeIpv4 : Nat := 0x0800
def ethertypeArp : Nat := 0x0806

def headerLen (x : UInt8) : Nat := (x.toNat % 16) * 4

def version (x : UInt8) : Nat := x.toNat / 16

structure Ping where
  senderIp : Nat
  targetIp : Nat
  ident : Nat
  seq : Nat

inductive UdpState
  | opened | bound | connected
deriving DecidableEq

structure UdpSocket where
  localPort : Nat
  state : UdpState
  remoteIp : Nat
  remotePort : Nat

/-- What the parsers compare a frame with: the address of the machine, the requests it waits
for, and the UDP sockets with what is left of their queue. -/
structure Env where
  localIp : Option Nat
  ping : Option Ping
  dhcp : Option Nat
  ntp : Option Nat
  udpSockets : List UdpSocket
  udpRoom : Bool

/-! ARP. -/

inductive Arp
  | ignored
  | learned (senderIp targetIp : Nat) (mac : List UInt8)
  | answered (dstMac targetMac : List UInt8) (targetIp : Nat)

def arpHandleFrame (env : Env) (f : Frame) : Except Fault Arp := do
  if f.length < 42 then pure .ignored
  else if (← readU16 f 12) ≠ ethertypeArp then pure .ignored
  else if (← readU16 f 14) ≠ 1 then pure .ignored
  else if (← readU16 f 16) ≠ ethertypeIpv4 then pure .ignored
  else if (← byte f 18) ≠ 6 ∨ (← byte f 19) ≠ 4 then pure .ignored
  else if (← readU16 f 20) = 2 then
    let senderIp ← readU32 f 38
    let targetIp ← readU32 f 28
    pure (.learned senderIp targetIp (← bytes f 22 6))
  else if (← readU16 f 20) ≠ 1 then pure .ignored
  else if env.localIp ≠ some (← readU32 f 38) then pure .ignored
  else
    let dstMac ← bytes f 6 6
    let targetMac ← bytes f 22 6
    pure (.answered dstMac targetMac (← readU32 f 28))

/-! ICMP. -/

def ipv4ParseEchoReply (f : Frame) (p : Ping) : Except Fault Bool := do
  if f.length < 42 then pure false
  else if (← readU16 f 12) ≠ ethertypeIpv4 then pure false
  else
    let hlen := headerLen (← byte f 14)
    if hlen < 20 ∨ f.length < 14 + hlen + 8 then pure false
    else
      let declared ← readU16 f 16
      let totalLen := if declared + 14 > f.length then (f.length - 14) % 65536 else declared
      if (← byte f 23) ≠ 1 then pure false
      else if (← readU32 f 26) ≠ p.targetIp then pure false
      else if (← readU32 f 30) ≠ p.senderIp then pure false
      else if (← byte f (14 + hlen)) ≠ 0 then pure false
      else if checksum16 (← bytes f 14 hlen) ≠ 0 then pure false
      else
        let icmpLen ← sub totalLen hlen
        if checksum16 (← bytes f (14 + hlen) icmpLen) ≠ 0 then pure false
        else if (← readU16 f (14 + hlen + 4)) ≠ p.ident then pure false
        else pure ((← readU16 f (14 + hlen + 6)) == p.seq)

def ipv4HandleFrame (env : Env) (f : Frame) : Except Fault Bool :=
  match env.ping with
  | none => pure false
  | some p => ipv4ParseEchoReply f p

/-! TCP. -/

def tcpMaxFrame : Nat := 1518

structure Segment where
  mac : List UInt8
  srcIp : Nat
  srcPort : Nat
  dstPort : Nat
  seq : UInt32
  ackNo : UInt32
  fin : Bool
  syn : Bool
  rst : Bool
  ack : Bool
  window : Nat
  payload : List UInt8

/-- The lengths of the header and of the packet, if the frame is for TCP on this machine. -/
def tcpValidateIpv4 (env : Env) (f : Frame) : Except Fault (Option (Nat × Nat)) := do
  if f.length < 54 then pure none
  else if (← readU16 f 12) ≠ ethertypeIpv4 then pure none
  else if version (← byte f 14) ≠ 4 then pure none
  else
    let hlen := headerLen (← byte f 14)
    if hlen < 20 ∨ f.length < 14 + hlen then pure none
    else
      let totalLen ← readU16 f 16
      if totalLen + 14 > f.length then pure none
      else if totalLen < hlen then pure none
      else if (← byte f 23) ≠ 6 then pure none
      else if env.localIp ≠ some (← readU32 f 30) then pure none
      else if checksum16 (← bytes f 14 hlen) ≠ 0 then pure none
      else pure (some (hlen, totalLen))

def beBytes (n v : Nat) : List UInt8 :=
  (List.range n).map fun i => UInt8.ofNat (v / 256 ^ (n - 1 - i))

def tcpSegmentChecksum (srcIp dstIp : Nat) (segment : List UInt8) : Nat :=
  checksum16 (beBytes 4 srcIp ++ beBytes 4 dstIp ++ [0, 6] ++ beBytes 2 segment.length ++ segment)

def tcpSegment (f : Frame) (hlen totalLen : Nat) : Except Fault (Option Segment) := do
  let off := 14 + hlen
  let tcpLen ← sub totalLen hlen
  let flags ← byte f (off + 13)
  let dataOffset := (← byte f (off + 12)).toNat / 16
  let seq ← readU32 f (off + 4)
  let ackNo ← readU32 f (off + 8)
  let srcIp ← readU32 f 26
  let srcPort ← readU16 f off
  let dstPort ← readU16 f (off + 2)
  if totalLen < hlen + 20 then pure none
  else if tcpLen > tcpMaxFrame then pure none
  else if tcpSegmentChecksum srcIp (← readU32 f 30) (← bytes f off tcpLen) ≠ 0 then pure none
  else if dataOffset < 5 ∨ tcpLen < dataOffset * 4 then pure none
  else
    let payloadLen ← sub tcpLen (dataOffset * 4)
    pure (some {
      mac := ← bytes f 6 6
      srcIp := srcIp
      srcPort := srcPort
      dstPort := dstPort
      seq := UInt32.ofNat seq
      ackNo := UInt32.ofNat ackNo
      fin := flags.toNat.testBit 0
      syn := flags.toNat.testBit 1
      rst := flags.toNat.testBit 2
      ack := flags.toNat.testBit 4
      window := ← readU16 f (off + 14)
      payload := ← bytes f (off + dataOffset * 4) payloadLen })

def tcpHandleIpv4Frame (env : Env) (f : Frame) : Except Fault (Option Segment) := do
  match ← tcpValidateIpv4 env f with
  | none => pure none
  | some (hlen, totalLen) => tcpSegment f hlen totalLen

/-! DHCP and NTP. -/

structure DhcpOptions where
  msgType : Nat
  serverIp : Nat
  netmask : Nat
  gateway : Nat
  dns : Nat
  lease : Nat

def dhcpOption (f : Frame) (code len off : Nat) (o : DhcpOptions) : Except Fault DhcpOptions := do
  if code = 53 ∧ 1 ≤ len then pure { o with msgType := (← byte f off).toNat }
  else if code = 54 ∧ 4 ≤ len then pure { o with serverIp := ← readU32 f off }
  else if code = 1 ∧ 4 ≤ len then pure { o with netmask := ← readU32 f off }
  else if code = 3 ∧ 4 ≤ len then pure { o with gateway := ← readU32 f off }
  else if code = 6 ∧ 4 ≤ len then pure { o with dns := ← readU32 f off }
  else if code = 51 ∧ 4 ≤ len then pure { o with lease := ← readU32 f off }
  else pure o

/-- The options in `[off, stop)`; each round of the loop takes a byte, so `fuel` is the number
of bytes left. -/
def dhcpOptions (f : Frame) (stop : Nat) :
    (fuel : Nat) → (off : Nat) → DhcpOptions → Except Fault DhcpOptions
  | 0, _, o => pure o
  | fuel + 1, off, o => do
    if stop ≤ off then pure o
    else
      let code := (← byte f off).toNat
      if code = 0 then dhcpOptions f stop fuel (off + 1) o
      else if code = 255 then pure o
      else if stop ≤ off + 1 then pure o
      else
        let len := (← byte f (off + 1)).toNat
        if off + 2 + len > stop then pure o
        else
          let o ← dhcpOption f code len (off + 2) o
          dhcpOptions f stop fuel (off + 2 + len) o

def dhcpBaseLen : Nat := 240

/-- The offered address and the options of an offer or acknowledgement with number `xid`. -/
def dhcpHandleIpv4Frame (env : Env) (f : Frame) : Except Fault (Option (Nat × DhcpOptions)) := do
  match env.dhcp with
  | none => pure none
  | some xid =>
    if f.length < 14 + 20 + 8 + dhcpBaseLen then pure none
    else if (← readU16 f 12) ≠ ethertypeIpv4 then pure none
    else if version (← byte f 14) ≠ 4 ∨ headerLen (← byte f 14) < 20 then pure none
    else
      let hlen := headerLen (← byte f 14)
      if f.length < 14 + hlen + 8 + dhcpBaseLen then pure none
      else if (← byte f 23) ≠ 17 then pure none
      else
        let udp := 14 + hlen
        if (← readU16 f udp) ≠ 67 then pure none
        else if (← readU16 f (udp + 2)) ≠ 68 then pure none
        else
          let udpLen ← readU16 f (udp + 4)
          if udpLen < 8 + dhcpBaseLen ∨ f.length < udp + udpLen then pure none
          else
            let bootp := udp + 8
            if (← byte f bootp) ≠ 2 then pure none
            else if (← byte f (bootp + 1)) ≠ 1 then pure none
            else if (← byte f (bootp + 2)) ≠ 6 then pure none
            else if (← readU32 f (bootp + 4)) ≠ xid then pure none
            else if (← readU32 f (bootp + 236)) ≠ 0x63825363 then pure none
            else
              let offered ← readU32 f (bootp + 16)
              let first := bootp + dhcpBaseLen
              let o ← dhcpOptions f (udp + udpLen) (udp + udpLen - first) first ⟨0, 0, 0, 0, 0, 0⟩
              if o.msgType ≠ 2 ∧ o.msgType ≠ 5 then pure none
              else if offered = 0 then pure none
              else pure (some (offered,
                { o with netmask := if o.netmask ≠ 0 then o.netmask else 0xFFFFFF00 }))

def ntpPacketLen : Nat := 48
def ntpUnixEpochDelta : Nat := 2208988800

def ntpHandleIpv4Frame (env : Env) (f : Frame) : Except Fault (Option Nat) := do
  match env.ntp with
  | none => pure none
  | some serverIp =>
    if f.length < 14 + 20 + 8 + ntpPacketLen then pure none
    else if (← readU16 f 12) ≠ ethertypeIpv4 then pure none
    else if version (← byte f 14) ≠ 4 ∨ headerLen (← byte f 14) < 20 then pure none
    else
      let hlen := headerLen (← byte f 14)
      if f.length < 14 + hlen + 8 + ntpPacketLen then pure none
      else if (← byte f 23) ≠ 17 then pure none
      else if (← readU32 f 26) ≠ serverIp then pure none
      else if some (← readU32 f 30) ≠ env.localIp then pure none
      else
        let udp := 14 + hlen
        if (← readU16 f udp) ≠ 123 then pure none
        else if (← readU16 f (udp + 2)) ≠ 49123 then pure none
        else
          let udpLen ← readU16 f (udp + 4)
          if udpLen < 8 + ntpPacketLen ∨ f.length < udp + udpLen then pure none
          else
            let seconds ← readU32 f (udp + 8 + 40)
            if seconds < ntpUnixEpochDelta then pure none
            else pure (some (← sub seconds ntpUnixEpochDelta))

/-! UDP sockets. -/

structure UdpPacket where
  srcIp : Nat
  srcPort : Nat
  dstIp : Nat
  dstPort : Nat
  payload : List UInt8

def socketUdpMaxPacket : Nat := 576

def UdpSocket.hears (sock : UdpSocket) (srcIp srcPort dstPort : Nat) : Bool :=
  sock.localPort = dstPort && match sock.state with
    | .opened => false
    | .bound => true
    | .connected => (sock.remoteIp = 0 || sock.remoteIp = srcIp) &&
        (sock.remotePort = 0 || sock.remotePort = srcPort)

def socketUdpDeliver (env : Env) (srcIp srcPort dstIp dstPort : Nat) (f : Frame) (off len : Nat) :
    Except Fault (Option UdpPacket) := do
  if len = 0 ∨ len > socketUdpMaxPacket ∨ srcPort = 0 ∨ dstPort = 0 then pure none
  else if !env.udpSockets.any (·.hears srcIp srcPort dstPort) then pure none
  else if !env.udpRoom then pure none
  else pure (some ⟨srcIp, srcPort, dstIp, dstPort, ← bytes f off len⟩)

/-! The dispatch. -/

inductive Received
  | dropped
  | arp (r : Arp)
  | icmp (raw : Option (List UInt8)) (echo : Bool)
  | tcp (r : Option Segment)
  | udp (r : UdpPacket)
  | dhcp (offered : Nat) (options : DhcpOptions)
  | ntp (r : Option Nat)

def rawIcmpMaxPacket : Nat := 1600

/-- The two transport headers that the dispatch looks at itself start after a whole IPv4 header
and lie inside the packet. -/
def headerFits (f : Frame) (hlen totalLen : Nat) : Bool :=
  20 ≤ hlen && hlen + 8 ≤ totalLen && 14 + totalLen ≤ f.length

def rawIcmp (f : Frame) : Except Fault (Option (List UInt8)) := do
  let hlen := headerLen (← byte f 14)
  let totalLen ← readU16 f 16
  if headerFits f hlen totalLen then pure (some (← bytes f 14 (min totalLen rawIcmpMaxPacket)))
  else pure none

def udpPacket (env : Env) (f : Frame) : Except Fault (Option UdpPacket) := do
  let hlen := headerLen (← byte f 14)
  let totalLen ← readU16 f 16
  if !headerFits f hlen totalLen then pure none
  else
    let udp := 14 + hlen
    let srcPort ← readU16 f udp
    let dstPort ← readU16 f (udp + 2)
    let udpLen ← readU16 f (udp + 4)
    if 8 ≤ udpLen ∧ udp + udpLen ≤ f.length then
      let srcIp ← readU32 f 26
      let dstIp ← readU32 f 30
      socketUdpDeliver env srcIp srcPort dstIp dstPort f (udp + 8) (← sub udpLen 8)
    else pure none

def netMaxFrame : Nat := 1600

def nicRecv (wire : List UInt8) : Frame := wire.take netMaxFrame

def netPollOnce (env : Env) (wire : List UInt8) : Except Fault Received := do
  let f := nicRecv wire
  if f.length < 14 then pure .dropped
  else
    let etherType ← readU16 f 12
    if etherType = ethertypeArp then pure (.arp (← arpHandleFrame env f))
    else if etherType = ethertypeIpv4 ∧ 34 ≤ f.length then
      let proto ← byte f 23
      if proto = 1 then
        let raw ← rawIcmp f
        pure (.icmp raw (← ipv4HandleFrame env f))
      else if proto = 6 then pure (.tcp (← tcpHandleIpv4Frame env f))
      else if proto = 17 then
        match ← udpPacket env f with
        | some packet => pure (.udp packet)
        | none =>
          match ← dhcpHandleIpv4Frame env f with
          | some (offered, o) => pure (.dhcp offered o)
          | none => pure (.ntp (← ntpHandleIpv4Frame env f))
      else pure .dropped
    else pure .dropped

end SmallOS.Net
