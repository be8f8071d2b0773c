import SmallOS.Net.Frame

/-! Which frames are read past their end. Two parsers check the wrong length: the TCP header is read
before the packet is known to hold it, and the ICMP part of an echo reply may have a negative
length. -/

namespace SmallOS.Net

open Packet Bool

variable {env : Env} {f : Frame} {p : Ping}

theorem arpHandleFrame_inBounds (env : Env) (f : Frame) : InBounds (arpHandleFrame env f) := by
  refine .unless fun long => ?_
  refine .u16 (by omega) (.unless fun _ => ?_)
  refine .u16 (by omega) (.unless fun _ => ?_)
  refine .u16 (by omega) (.unless fun _ => ?_)
  refine .byte (by omega) (.byte (by omega) (.unless fun _ => ?_))
  refine .u16 (by omega) (.ite (fun _ => ?_) fun _ => ?_)
  · exact .u32 (by omega) (.u32 (by omega) (.bytes (by omega) (.pure _)))
  refine .u16 (by omega) (.unless fun _ => ?_)
  refine .u32 (by omega) (.unless fun _ => ?_)
  exact .bytes (by omega) (.bytes (by omega) (.u32 (by omega) (.pure _)))

def ipHeaderLen (f : Frame) : Nat := headerLen (byteAt f 14)

def totalLen (f : Frame) : Nat :=
  if u16At f 16 + 14 > f.length then (f.length - 14) % 65536 else u16At f 16

/-- An echo reply to the ping, with a valid header, that says it is shorter than its header. -/
structure ShortEcho (p : Ping) (f : Frame) : Prop where
  ipv4 : u16At f 12 = ethertypeIpv4
  header : 20 ≤ ipHeaderLen f
  long : 14 + ipHeaderLen f + 8 ≤ f.length
  icmp : byteAt f 23 = 1
  src : u32At f 26 = p.targetIp
  dst : u32At f 30 = p.senderIp
  reply : byteAt f (14 + ipHeaderLen f) = 0
  sum : checksum16 (slice f 14 (ipHeaderLen f)) = 0
  short : u16At f 16 < ipHeaderLen f

theorem ipv4ParseEchoReply_inBounds (fits : f.length ≤ netMaxFrame) (ok : ¬ShortEcho p f) :
    InBounds (ipv4ParseEchoReply f p) := by
  refine .unless fun enough => ?_
  refine .u16 (by omega) (.unless fun ipv4 => ?_)
  refine .byte (by omega) (.unless fun header => ?_)
  change ¬(ipHeaderLen f < 20 ∨ f.length < 14 + ipHeaderLen f + 8) at header
  refine .u16 (by omega) (.byte (by omega) (.unless fun icmp => ?_))
  refine .u32 (by omega) (.unless fun src => ?_)
  refine .u32 (by omega) (.unless fun dst => ?_)
  change InBounds (byte f (14 + ipHeaderLen f) >>= _)
  refine .byte (by omega) (.unless fun reply => ?_)
  change InBounds (bytes f 14 (ipHeaderLen f) >>= _)
  refine .bytes (by omega) (.unless fun sum => ?_)
  have whole : ipHeaderLen f ≤ u16At f 16 := by
    by_contra short
    exact ok ⟨not_not.mp ipv4, by omega, by omega, not_not.mp icmp, not_not.mp src,
      not_not.mp dst, not_not.mp reply, not_not.mp sum, by omega⟩
  have total : ipHeaderLen f ≤ totalLen f ∧ totalLen f + 14 ≤ f.length := by
    unfold totalLen
    unfold netMaxFrame at fits
    split_ifs <;> omega
  refine .sub total.1 ?_
  change InBounds (bytes f (14 + ipHeaderLen f) (totalLen f - ipHeaderLen f) >>= _)
  refine .bytes (by omega) (.unless fun _ => ?_)
  change InBounds (readU16 f (14 + ipHeaderLen f + 4) >>= _)
  refine .u16 (by omega) (.unless fun _ => ?_)
  change InBounds (readU16 f (14 + ipHeaderLen f + 6) >>= _)
  exact .u16 (by omega) (.pure _)

theorem not_inBounds_of_shortEcho (h : ShortEcho p f) : ¬InBounds (ipv4ParseEchoReply f p) := by
  have long := h.long
  have header := h.header
  have hlen : headerLen (byteAt f 14) = ipHeaderLen f := rfl
  have declared : ¬u16At f 16 + 14 > f.length := by have := h.short; omega
  unfold ipv4ParseEchoReply
  rw [if_neg (by omega), readU16_ok (by omega), ok_bind, if_neg (not_not.mpr h.ipv4),
    byte_ok (by omega), ok_bind, hlen]
  simp only
  rw [if_neg (by omega), readU16_ok (by omega), ok_bind, if_neg declared, byte_ok (by omega),
    ok_bind, if_neg (not_not.mpr h.icmp), readU32_ok (by omega), ok_bind,
    if_neg (not_not.mpr h.src), readU32_ok (by omega), ok_bind, if_neg (not_not.mpr h.dst),
    byte_ok (by omega), ok_bind, if_neg (not_not.mpr h.reply), bytes_ok (by omega), ok_bind,
    if_neg (not_not.mpr h.sum), sub_error h.short, error_bind]
  exact not_inBounds_error _

structure ForTcp (env : Env) (f : Frame) : Prop where
  enough : 54 ≤ f.length
  ipv4 : u16At f 12 = ethertypeIpv4
  version : version (byteAt f 14) = 4
  header : 20 ≤ ipHeaderLen f
  total : u16At f 16 + 14 ≤ f.length
  whole : ipHeaderLen f ≤ u16At f 16
  tcp : byteAt f 23 = 6
  dst : env.localIp = some (u32At f 30)
  sum : checksum16 (slice f 14 (ipHeaderLen f)) = 0

/-- Such a packet whose frame ends inside the fixed part of the TCP header. -/
def TruncatedTcp (env : Env) (f : Frame) : Prop :=
  ForTcp env f ∧ f.length < 14 + ipHeaderLen f + 14

theorem tcpSegment_inBounds {hlen total : Nat} (whole : hlen ≤ total)
    (inside : 14 + total ≤ f.length) (fixed : 14 + hlen + 14 ≤ f.length) (enough : 34 ≤ f.length) :
    InBounds (tcpSegment f hlen total) := by
  refine .sub whole (.byte (by omega) (.byte (by omega) ?_))
  refine .u32 (by omega) (.u32 (by omega) (.u32 (by omega) (.u16 (by omega) (.u16 (by omega) ?_))))
  refine .unless fun _ => .unless fun _ => ?_
  refine .u32 (by omega) (.bytes (by omega) (.unless fun _ => ?_))
  refine .unless fun offset => ?_
  refine .sub (by omega) (.bytes (by omega) (.u16 (by omega) (.bytes (by omega) (.pure _))))

theorem tcpValidateIpv4_cases (env : Env) (f : Frame) :
    (¬ForTcp env f ∧ tcpValidateIpv4 env f = .ok none) ∨
    (ForTcp env f ∧ tcpValidateIpv4 env f = .ok (some (ipHeaderLen f, u16At f 16))) := by
  have hlen : headerLen (byteAt f 14) = ipHeaderLen f := rfl
  unfold tcpValidateIpv4
  by_cases short : f.length < 54
  · rw [if_pos short]
    exact .inl ⟨fun t => by have := t.enough; omega, rfl⟩
  rw [if_neg short, readU16_ok (by omega), ok_bind]
  by_cases ipv4 : u16At f 12 ≠ ethertypeIpv4
  · rw [if_pos ipv4]
    exact .inl ⟨fun t => ipv4 t.ipv4, rfl⟩
  rw [if_neg ipv4, byte_ok (by omega), ok_bind]
  by_cases ver : version (byteAt f 14) ≠ 4
  · rw [if_pos ver]
    exact .inl ⟨fun t => ver t.version, rfl⟩
  rw [if_neg ver, ok_bind, hlen]
  simp only
  by_cases header : ipHeaderLen f < 20 ∨ f.length < 14 + ipHeaderLen f
  · rw [if_pos header]
    refine .inl ⟨fun t => ?_, rfl⟩
    have := t.header
    have := t.whole
    have := t.total
    omega
  rw [if_neg header, readU16_ok (by omega), ok_bind]
  by_cases total : u16At f 16 + 14 > f.length
  · rw [if_pos total]
    exact .inl ⟨fun t => by have := t.total; omega, rfl⟩
  rw [if_neg total]
  by_cases whole : u16At f 16 < ipHeaderLen f
  · rw [if_pos whole]
    exact .inl ⟨fun t => by have := t.whole; omega, rfl⟩
  rw [if_neg whole, byte_ok (by omega), ok_bind]
  by_cases tcp : byteAt f 23 ≠ 6
  · rw [if_pos tcp]
    exact .inl ⟨fun t => tcp t.tcp, rfl⟩
  rw [if_neg tcp, readU32_ok (by omega), ok_bind]
  by_cases dst : env.localIp ≠ some (u32At f 30)
  · rw [if_pos dst]
    exact .inl ⟨fun t => dst t.dst, rfl⟩
  rw [if_neg dst, bytes_ok (by omega), ok_bind]
  by_cases sum : checksum16 (slice f 14 (ipHeaderLen f)) ≠ 0
  · rw [if_pos sum]
    exact .inl ⟨fun t => sum t.sum, rfl⟩
  rw [if_neg sum]
  exact .inr ⟨⟨by omega, not_not.mp ipv4, not_not.mp ver, by omega, by omega, by omega,
    not_not.mp tcp, not_not.mp dst, not_not.mp sum⟩, rfl⟩

theorem tcpHandleIpv4Frame_inBounds :
    InBounds (tcpHandleIpv4Frame env f) ↔ ¬TruncatedTcp env f := by
  unfold tcpHandleIpv4Frame
  obtain ⟨other, result⟩ | ⟨tcp, result⟩ := tcpValidateIpv4_cases env f
  · rw [result, ok_bind]
    exact ⟨fun _ t => other t.1, fun _ => .pure _⟩
  · rw [result, ok_bind]
    have enough := tcp.enough
    have total := tcp.total
    constructor
    · intro inside ⟨_, truncated⟩
      simp only [tcpSegment] at inside
      rw [sub_ok tcp.whole, ok_bind, byte_error (by omega), error_bind] at inside
      exact not_inBounds_error _ inside
    · intro ok
      have fixed : ¬f.length < 14 + ipHeaderLen f + 14 := fun h => ok ⟨tcp, h⟩
      exact tcpSegment_inBounds tcp.whole (by omega) (by omega) (by omega)

theorem dhcpOption_inBounds {len off : Nat} (inside : off + len ≤ f.length) (code : Nat)
    (o : DhcpOptions) : InBounds (dhcpOption f code len off o) := by
  refine .ite (fun c => .byte (by omega) (.pure _)) fun _ => ?_
  refine .ite (fun c => .u32 (by omega) (.pure _)) fun _ => ?_
  refine .ite (fun c => .u32 (by omega) (.pure _)) fun _ => ?_
  refine .ite (fun c => .u32 (by omega) (.pure _)) fun _ => ?_
  refine .ite (fun c => .u32 (by omega) (.pure _)) fun _ => ?_
  exact .ite (fun c => .u32 (by omega) (.pure _)) fun _ => .pure _

theorem dhcpOptions_inBounds {stop : Nat} (inside : stop ≤ f.length) (fuel off : Nat)
    (o : DhcpOptions) : InBounds (dhcpOptions f stop fuel off o) := by
  induction fuel generalizing off o with
  | zero => exact .pure _
  | succ fuel ih =>
    refine .unless fun more => .byte (by omega) ?_
    refine .ite (fun _ => ih _ _) fun _ => .unless fun _ => ?_
    refine .unless fun len => .byte (by omega) ?_
    refine .unless fun fits => ?_
    exact .bind (dhcpOption_inBounds (by omega) _ o) fun o _ => ih _ o

theorem dhcpHandleIpv4Frame_inBounds (env : Env) (f : Frame) :
    InBounds (dhcpHandleIpv4Frame env f) := by
  have baseLen : dhcpBaseLen = 240 := rfl
  unfold dhcpHandleIpv4Frame
  cases env.dhcp with
  | none => exact .pure _
  | some xid =>
    refine .unless fun enough => ?_
    refine .u16 (by omega) (.unless fun _ => ?_)
    refine .byte (by omega) (.byte (by omega) (.unless fun _ => ?_))
    refine .byte (by omega) (.unless fun base => ?_)
    refine .byte (by omega) (.unless fun _ => ?_)
    refine .u16 (by omega) (.unless fun _ => ?_)
    refine .u16 (by omega) (.unless fun _ => ?_)
    refine .u16 (by omega) (.unless fun udp => ?_)
    refine .byte (by omega) (.unless fun _ => ?_)
    refine .byte (by omega) (.unless fun _ => ?_)
    refine .byte (by omega) (.unless fun _ => ?_)
    refine .u32 (by omega) (.unless fun _ => ?_)
    refine .u32 (by omega) (.unless fun _ => ?_)
    refine .u32 (by omega) (.bind (dhcpOptions_inBounds (by omega) _ _ _) fun o _ => ?_)
    exact .unless fun _ => .unless fun _ => .pure _

theorem ntpHandleIpv4Frame_inBounds (env : Env) (f : Frame) :
    InBounds (ntpHandleIpv4Frame env f) := by
  have packetLen : ntpPacketLen = 48 := rfl
  unfold ntpHandleIpv4Frame
  cases env.ntp with
  | none => exact .pure _
  | some serverIp =>
    refine .unless fun enough => ?_
    refine .u16 (by omega) (.unless fun _ => ?_)
    refine .byte (by omega) (.byte (by omega) (.unless fun _ => ?_))
    refine .byte (by omega) (.unless fun base => ?_)
    refine .byte (by omega) (.unless fun _ => ?_)
    refine .u32 (by omega) (.unless fun _ => ?_)
    refine .u32 (by omega) (.unless fun _ => ?_)
    refine .u16 (by omega) (.unless fun _ => ?_)
    refine .u16 (by omega) (.unless fun _ => ?_)
    refine .u16 (by omega) (.unless fun udp => ?_)
    refine .u32 (by omega) (.unless fun epoch => ?_)
    exact .sub (by omega) (.pure _)

theorem udpPacket_inBounds (env : Env) (enough : 34 ≤ f.length) : InBounds (udpPacket env f) := by
  refine .byte (by omega) (.u16 (by omega) (.unless fun fits => ?_))
  simp only [headerFits, not_eq_true, not_eq_false', and_eq_true, decide_eq_true_eq] at fits
  refine .u16 (by omega) (.u16 (by omega) (.u16 (by omega) (.ite (fun udp => ?_) fun _ => .pure _)))
  refine .u32 (by omega) (.u32 (by omega) (.sub udp.1 ?_))
  refine .unless fun _ => .unless fun _ => ?_
  exact .unless fun _ => .bytes (by omega) (.pure _)

theorem rawIcmp_inBounds (enough : 34 ≤ f.length) : InBounds (rawIcmp f) := by
  refine .byte (by omega) (.u16 (by omega) (.ite (fun fits => ?_) fun _ => .pure _))
  simp only [headerFits, and_eq_true, decide_eq_true_eq] at fits
  exact .bytes (by omega) (.pure _)

theorem ipv4HandleFrame_inBounds (fits : f.length ≤ netMaxFrame) :
    InBounds (ipv4HandleFrame env f) ↔ ∀ p, env.ping = some p → ¬ShortEcho p f := by
  unfold ipv4HandleFrame
  cases env.ping with
  | none => exact ⟨fun _ p h => absurd h (by simp), fun _ => .pure _⟩
  | some p =>
    constructor
    · rintro inside q same short
      rw [Option.some_inj.mp same] at inside
      exact not_inBounds_of_shortEcho short inside
    · exact fun ok => ipv4ParseEchoReply_inBounds fits (ok p rfl)

/-- A frame is read inside its bounds if and only if it is neither an echo reply to the ping that
says it is shorter than its header nor a TCP packet cut inside the TCP header. -/
theorem frame_inBounds_iff (env : Env) (wire : List UInt8) : InBounds (netPollOnce env wire) ↔
      (∀ p, env.ping = some p → ¬ShortEcho p (nicRecv wire)) ∧
        ¬TruncatedTcp env (nicRecv wire) := by
  have fits : (nicRecv wire).length ≤ netMaxFrame := List.length_take_le _ _
  unfold netPollOnce
  generalize nicRecv wire = f at fits
  simp only
  by_cases short : f.length < 14
  · rw [if_pos short]
    refine ⟨fun _ => ⟨fun p _ h => ?_, fun h => ?_⟩, fun _ => .pure _⟩
    · have := h.long
      omega
    · have := h.1.enough
      omega
  rw [if_neg short, readU16_ok (by omega), ok_bind]
  by_cases arp : u16At f 12 = ethertypeArp
  · rw [if_pos arp]
    have other : u16At f 12 ≠ ethertypeIpv4 := by rw [arp]; decide
    exact ⟨fun _ => ⟨fun p _ h => other h.ipv4, fun h => other h.1.ipv4⟩,
      fun _ => inBounds_bind_pure.mpr (arpHandleFrame_inBounds env f)⟩
  rw [if_neg arp]
  by_cases ipv4 : u16At f 12 = ethertypeIpv4 ∧ 34 ≤ f.length
  · rw [if_pos ipv4, byte_ok (by omega), ok_bind]
    by_cases icmp : byteAt f 23 = 1
    · rw [if_pos icmp]
      obtain ⟨raw, hraw⟩ := rawIcmp_inBounds ipv4.2
      rw [hraw, ok_bind, inBounds_bind_pure, ipv4HandleFrame_inBounds fits]
      have other : ¬TruncatedTcp env f := fun h => by
        have := h.1.tcp
        rw [icmp] at this
        exact absurd this (by decide)
      exact ⟨fun h => ⟨h, other⟩, fun h => h.1⟩
    have noEcho : ∀ p, env.ping = some p → ¬ShortEcho p f := fun p _ h => icmp h.icmp
    rw [if_neg icmp]
    by_cases tcp : byteAt f 23 = 6
    · rw [if_pos tcp, inBounds_bind_pure, tcpHandleIpv4Frame_inBounds]
      exact ⟨fun h => ⟨noEcho, h⟩, fun h => h.2⟩
    rw [if_neg tcp]
    refine ⟨fun _ => ⟨noEcho, fun h => tcp h.1.tcp⟩, fun _ => .ite (fun _ => ?_) fun _ => .pure _⟩
    refine .bind (udpPacket_inBounds env ipv4.2) fun packet _ => ?_
    cases packet with
    | some packet => exact .pure _
    | none =>
      refine .bind (dhcpHandleIpv4Frame_inBounds env f) fun r _ => ?_
      cases r with
      | some r => exact .pure _
      | none => exact inBounds_bind_pure.mpr (ntpHandleIpv4Frame_inBounds env f)
  · rw [if_neg ipv4]
    refine ⟨fun _ => ⟨fun p _ h => ?_, fun h => ?_⟩, fun _ => .pure _⟩
    · have := h.long
      have := h.header
      exact ipv4 ⟨h.ipv4, by omega⟩
    · have := h.1.enough
      exact ipv4 ⟨h.1.ipv4, by omega⟩

def sampleHeader (words length proto sum : Nat) : List UInt8 :=
  List.replicate 12 0 ++ [8, 0] ++ [UInt8.ofNat (64 + words), 0] ++ beBytes 2 length ++
    [0, 0, 0, 0, 0, UInt8.ofNat proto] ++ beBytes 2 sum ++ [10, 0, 2, 2, 10, 0, 2, 15] ++
    List.replicate (4 * words - 20) 0

def sampleEnv : Env where
  localIp := some 0x0A00020F
  ping := some ⟨0x0A00020F, 0x0A000202, 0x4A50, 1⟩
  dhcp := none
  ntp := none
  udpSockets := []
  udpRoom := true

/-- A TCP packet that is all IPv4 header, and an echo reply of length zero. -/
theorem frames_read_out_of_bounds : ¬(∀ env wire, InBounds (netPollOnce env wire)) ∧
    ¬InBounds (netPollOnce sampleEnv (sampleHeader 15 60 6 0x98AC)) ∧
    ¬InBounds (netPollOnce sampleEnv (sampleHeader 5 0 1 0xA2ED ++ List.replicate 8 0)) := by
  have tcp : ¬InBounds (netPollOnce sampleEnv (sampleHeader 15 60 6 0x98AC)) :=
    not_inBounds_of_isNone (by decide)
  have echo : ¬InBounds (netPollOnce sampleEnv (sampleHeader 5 0 1 0xA2ED ++ List.replicate 8 0)) :=
    not_inBounds_of_isNone (by decide)
  exact ⟨fun all => tcp (all _ _), tcp, echo⟩

end SmallOS.Net
