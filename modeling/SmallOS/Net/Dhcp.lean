import SmallOS.Net.Frame

/-! The DHCP client. Every accepted message overwrites the variables of the one before, and a wait
ends when the last one is of the type that is waited for. That an acknowledgement answers the
request is not checked. -/

namespace SmallOS.Net

open Packet List Option

abbrev DhcpMessage := Nat × DhcpOptions

def dhcpMessage (xid : Nat) (f : Frame) : Option DhcpMessage :=
  match dhcpHandleIpv4Frame ⟨none, none, some xid, none, [], false⟩ f with
  | .ok m => m
  | .error _ => none

structure DhcpReply where
  messageType : Nat
  offeredIp : Nat
  ackIp : Nat
  serverIp : Nat
  netmask : Nat
  gateway : Nat
  dns : Nat
  leaseSeconds : Nat

def DhcpReply.reset : DhcpReply := ⟨0, 0, 0, 0, 0, 0, 0, 0⟩

def DhcpReply.forgetType (r : DhcpReply) : DhcpReply := { r with messageType := 0 }

def DhcpReply.accept (r : DhcpReply) (m : DhcpMessage) : DhcpReply where
  messageType := m.2.msgType
  offeredIp := if m.2.msgType = 2 then m.1 else r.offeredIp
  ackIp := if m.2.msgType = 2 then r.ackIp else m.1
  serverIp := m.2.serverIp
  netmask := m.2.netmask
  gateway := m.2.gateway
  dns := m.2.dns
  leaseSeconds := m.2.lease

def DhcpReply.poll (xid : Nat) (r : DhcpReply) (frames : List Frame) : DhcpReply :=
  (frames.filterMap (dhcpMessage xid)).foldl .accept r

/-- `wait_for_message`: what comes in between two looks at the type, up to the deadline. -/
def waitForMessage (xid type : Nat) : List (List Frame) → DhcpReply → Option DhcpReply
  | [], _ => none
  | frames :: rounds, r =>
    if r.messageType = type then some r else waitForMessage xid type rounds (r.poll xid frames)

/-- What the outside does in one attempt: whether the two frames can be sent, and what comes in
during the two waits. -/
structure DhcpAttempt where
  discoverSent : Bool
  offers : List (List Frame)
  requestSent : Bool
  acks : List (List Frame)

structure Lease where
  requestedIp : Nat
  requestedServer : Nat
  ip : Nat
  netmask : Nat
  gateway : Nat
  dns : Nat
  server : Nat
  seconds : Nat
deriving DecidableEq

def dhcpAttempts (xid : Nat) : List DhcpAttempt → Option Lease
  | [] => none
  | a :: rest =>
    if !a.discoverSent then none
    else match waitForMessage xid 2 a.offers .reset with
      | none => dhcpAttempts xid rest
      | some r =>
        if r.offeredIp = 0 ∨ r.serverIp = 0 then dhcpAttempts xid rest
        else if !a.requestSent then none
        else match waitForMessage xid 5 a.acks r.forgetType with
          | none => dhcpAttempts xid rest
          | some s =>
            if s.ackIp = 0 then dhcpAttempts xid rest
            else some ⟨r.offeredIp, r.serverIp, s.ackIp, s.netmask, s.gateway, s.dns, s.serverIp,
              s.leaseSeconds⟩

def dhcpConfigure (xid : Nat) (attempts : List DhcpAttempt) : Option Lease :=
  dhcpAttempts xid (attempts.take 8)

def Lease.of (offer ack : DhcpMessage) : Lease :=
  ⟨offer.1, offer.2.serverIp, ack.1, ack.2.netmask, ack.2.gateway, ack.2.dns, ack.2.serverIp,
    ack.2.lease⟩

/-- One acknowledgement that came in says all that was requested and all that is configured. -/
def Lease.FromOneAck (l : Lease) (xid : Nat) (attempts : List DhcpAttempt) : Prop :=
  ∃ a ∈ attempts, ∃ f ∈ a.acks.flatten, ∃ ack, dhcpMessage xid f = some ack ∧
    ack.2.msgType = 5 ∧ l = .of ack ack

structure Traffic where
  offers : Frame → Prop
  acks : Frame → Prop

def FedBy (F : Nat → Traffic) (attempts : List DhcpAttempt) : Prop :=
  ∀ i a, attempts[i]? = some a →
    (∀ f ∈ a.offers.flatten, (F i).offers f) ∧ ∀ f ∈ a.acks.flatten, (F i).acks f

def Brings (xid type : Nat) (P : Frame → Prop) (m : DhcpMessage) : Prop :=
  m.1 ≠ 0 ∧ m.2.msgType = type ∧ ∃ f, P f ∧ dhcpMessage xid f = some m

variable {xid type : Nat} {rounds : List (List Frame)} {r r' : DhcpReply} {a : DhcpAttempt}
  {attempts : List DhcpAttempt} {m offer ack : DhcpMessage}

theorem DhcpReply.poll_cases (r : DhcpReply) (xid : Nat) (frames : List Frame) :
    r.poll xid frames = r ∨
      ∃ f ∈ frames, ∃ m s, dhcpMessage xid f = some m ∧ r.poll xid frames = .accept s m := by
  unfold DhcpReply.poll
  obtain none | ⟨front, m, eq⟩ := (frames.filterMap (dhcpMessage xid)).eq_nil_or_concat
  · exact .inl (by rw [none]; rfl)
  · have mem : m ∈ frames.filterMap (dhcpMessage xid) := by simp [eq]
    obtain ⟨f, mem, got⟩ := mem_filterMap.mp mem
    exact .inr ⟨f, mem, m, front.foldl .accept r, got, by simp [eq]⟩

theorem wait_frame (done : waitForMessage xid type rounds r = some r') :
    r' = r ∧ r.messageType = type ∨
      ∃ f ∈ rounds.flatten, ∃ m s, dhcpMessage xid f = some m ∧ m.2.msgType = type ∧
        r' = .accept s m := by
  induction rounds generalizing r with
  | nil => cases done
  | cons frames rounds ih =>
    unfold waitForMessage at done
    split_ifs at done with found
    · exact .inl ⟨(Option.some.inj done).symm, found⟩
    obtain ⟨rfl, at_⟩ | ⟨f, mem, rest⟩ := ih done
    · obtain same | ⟨f, mem, m, s, got, eq⟩ := r.poll_cases xid frames
      · rw [same] at at_
        exact absurd at_ found
      · rw [eq] at at_ ⊢
        exact .inr ⟨f, by simp [mem], m, s, got, at_, rfl⟩
    · exact .inr ⟨f, by simp [mem], rest⟩

def Settles (xid : Nat) (l : Lease) (a : DhcpAttempt) : Prop :=
  ∃ offer ack, Brings xid 2 (· ∈ a.offers.flatten) offer ∧ offer.2.serverIp ≠ 0 ∧
    Brings xid 5 (· ∈ a.acks.flatten) ack ∧ l = .of offer ack

theorem dhcpAttempts_settles {l : Lease} (done : dhcpAttempts xid attempts = some l) :
    ∃ (i : Nat) (a : DhcpAttempt), attempts[i]? = some a ∧ Settles xid l a := by
  induction attempts with
  | nil => cases done
  | cons a rest ih =>
    have later (done : dhcpAttempts xid rest = some l) :
        ∃ (i : Nat) (b : DhcpAttempt), (a :: rest)[i]? = some b ∧ Settles xid l b := by
      obtain ⟨i, b, at_, settles⟩ := ih done
      exact ⟨i + 1, b, at_, settles⟩
    unfold dhcpAttempts at done
    cases wait : waitForMessage xid 2 a.offers .reset with
    | none =>
      simp only [wait] at done
      split_ifs at done
      exact later done
    | some r =>
      obtain ⟨rfl, no⟩ | ⟨f, mem, m, s, got, at_, rfl⟩ := wait_frame wait
      · cases no
      cases wait' : waitForMessage xid 5 a.acks (s.accept m).forgetType with
      | none =>
        simp only [wait, wait'] at done
        split_ifs at done
        · exact later done
        · exact later done
      | some r' =>
        obtain ⟨rfl, no⟩ | ⟨f', mem', m', s', got', at', rfl⟩ := wait_frame wait'
        · cases no
        have offered : (s.accept m).offeredIp = m.1 := if_pos at_
        have acked : (s'.accept m').ackIp = m'.1 := if_neg (by omega)
        simp only [wait, wait', offered, acked] at done
        split_ifs at done with _ bad _ zero
        · exact later done
        · exact later done
        obtain ⟨address, server⟩ := not_or.mp bad
        exact ⟨0, a, rfl, m, m', ⟨address, at_, f, mem, got⟩, server, ⟨zero, at', f', mem', got'⟩,
          (Option.some.inj done).symm⟩

def answeredAt (i : Nat) (f g : Frame) : List DhcpAttempt :=
  replicate i ⟨true, [], true, []⟩ ++ [⟨true, [[f], []], true, [[g], []]⟩]

theorem dhcpAttempts_answeredAt {f g : Frame} (i : Nat) (gotOffer : dhcpMessage xid f = some offer)
    (gotAck : dhcpMessage xid g = some ack) (isOffer : offer.2.msgType = 2)
    (isAck : ack.2.msgType = 5) (offered : offer.1 ≠ 0) (server : offer.2.serverIp ≠ 0)
    (acked : ack.1 ≠ 0) : dhcpAttempts xid (answeredAt i f g) = some (.of offer ack) := by
  induction i with
  | zero =>
    simp [answeredAt, dhcpAttempts, waitForMessage, DhcpReply.reset, DhcpReply.poll, gotOffer, gotAck,
      DhcpReply.accept, DhcpReply.forgetType, isOffer, isAck, offered, server, acked, Lease.of]
  | succ i ih => exact ih

/-- Whatever comes in, a lease is from one exchange just if all the acknowledgements that can come
in during an attempt repeat all the offers that can. -/
theorem lease_from_one_ack_iff (xid : Nat) (F : Nat → Traffic) :
    (∀ attempts, FedBy F attempts → ∀ l, dhcpConfigure xid attempts = some l →
      l.FromOneAck xid attempts) ↔
    ∀ i < 8, ∀ offer ack, Brings xid 2 (F i).offers offer → Brings xid 5 (F i).acks ack →
      offer.2.serverIp ≠ 0 → ack.1 = offer.1 ∧ ack.2.serverIp = offer.2.serverIp := by
  constructor
  · rintro all i lt offer ack ⟨offered, isOffer, f, may, gotOffer⟩ ⟨acked, isAck, g, may', gotAck⟩ server
    have carries : FedBy F (answeredAt i f g) := by
      intro j a at_
      unfold answeredAt at at_
      rw [getElem?_append, length_replicate] at at_
      split_ifs at at_ with early
      · obtain rfl := eq_of_mem_replicate (mem_of_getElem? at_)
        exact ⟨nofun, nofun⟩
      · obtain ⟨last, rfl⟩ := List.getElem?_eq_some_iff.mp at_
        obtain rfl : j = i := by simp at last; omega
        simp [may, may']
    have done : dhcpConfigure xid (answeredAt i f g) = some (.of offer ack) := by
      rw [dhcpConfigure, take_of_length_le (by simp [answeredAt]; omega)]
      exact dhcpAttempts_answeredAt i gotOffer gotAck isOffer isAck offered server acked
    obtain ⟨_, _, _, _, ack', _, _, eq⟩ := all _ carries _ done
    simp only [Lease.of, Lease.mk.injEq] at eq
    obtain ⟨ip, server, ip', _, _, _, server', _⟩ := eq
    exact ⟨ip'.trans ip.symm, server'.trans server.symm⟩
  · intro agree attempts carries l done
    obtain ⟨i, a, at_, offer, ack, ⟨offered, isOffer, f, mem, got⟩, server,
      ⟨acked, isAck, g, mem', got'⟩, rfl⟩ := dhcpAttempts_settles done
    rw [getElem?_take] at at_
    split_ifs at at_ with lt
    obtain ⟨inOffers, inAcks⟩ := carries i a at_
    obtain ⟨ip, server⟩ := agree i lt offer ack ⟨offered, isOffer, f, inOffers f mem, got⟩
      ⟨acked, isAck, g, inAcks g mem', got'⟩ server
    exact ⟨a, mem_of_getElem? at_, g, mem', ack, got', isAck, by simp [Lease.of, ip, server]⟩

def replyFrame (xid type ip server : Nat) : Frame :=
  List.replicate 12 0 ++ [8, 0, 0x45] ++ List.replicate 8 0 ++ [17] ++ List.replicate 10 0 ++
    beBytes 2 67 ++ beBytes 2 68 ++ beBytes 2 258 ++ [0, 0, 2, 1, 6, 0] ++ beBytes 4 xid ++
    List.replicate 8 0 ++ beBytes 4 ip ++ List.replicate 216 0 ++ beBytes 4 0x63825363 ++
    [53, 1, UInt8.ofNat type, 54, 4] ++ beBytes 4 server ++ [255]

/-- Server 1 offers the address 5, and the request for it is acknowledged by `server`. -/
def oneOffer (ip server : Nat) : DhcpAttempt :=
  ⟨true, [[replyFrame 7 2 5 1], []], true, [[replyFrame 7 5 ip server], []]⟩

theorem dhcpConfigure_oneOffer :
    dhcpConfigure 7 [oneOffer 5 1] = some ⟨5, 1, 5, 0xFFFFFF00, 0, 0, 1, 0⟩ ∧
      dhcpConfigure 7 [oneOffer 6 2] = some ⟨5, 1, 6, 0xFFFFFF00, 0, 0, 2, 0⟩ := by
  decide +kernel

theorem replyFrame_message (type : Nat) (h : type = 2 ∨ type = 5) :
    (dhcpMessage 7 (replyFrame 7 type 5 1)).map (fun m => (m.1, m.2.serverIp)) = some (5, 1) := by
  rcases h with rfl | rfl <;> decide +kernel

theorem lease_from_one_ack_oneOffer :
    ∃ l, dhcpConfigure 7 [oneOffer 5 1] = some l ∧ l.FromOneAck 7 [oneOffer 5 1] := by
  have names {type : Nat} (h : type = 2 ∨ type = 5) {m : DhcpMessage}
      (got : dhcpMessage 7 (replyFrame 7 type 5 1) = some m) : m.1 = 5 ∧ m.2.serverIp = 1 := by
    have := replyFrame_message type h
    rw [got] at this
    exact Prod.mk.inj (Option.some.inj this)
  refine ⟨_, dhcpConfigure_oneOffer.1, (lease_from_one_ack_iff 7 fun _ =>
    ⟨(· = replyFrame 7 2 5 1), (· = replyFrame 7 5 5 1)⟩).mpr ?_ _ ?_ _ dhcpConfigure_oneOffer.1⟩
  · rintro i - offer ack ⟨-, -, _, rfl, got⟩ ⟨-, -, _, rfl, got'⟩ -
    obtain ⟨ip, server⟩ := names (.inl rfl) got
    obtain ⟨ip', server'⟩ := names (.inr rfl) got'
    exact ⟨ip'.trans ip.symm, server'.trans server.symm⟩
  · intro i a at_
    obtain rfl := mem_singleton.mp (mem_of_getElem? at_)
    simp [oneOffer]

/-- The acknowledgement is of another server and for another address. -/
theorem lease_of_another_server :
    ∃ l, dhcpConfigure 7 [oneOffer 6 2] = some l ∧ l.requestedIp = 5 ∧ l.requestedServer = 1 ∧
      l.ip = 6 ∧ l.server = 2 ∧ ¬l.FromOneAck 7 [oneOffer 6 2] := by
  refine ⟨_, dhcpConfigure_oneOffer.2, rfl, rfl, rfl, rfl, ?_⟩
  rintro ⟨_, _, _, _, ack, _, _, eq⟩
  simp only [Lease.of, Lease.mk.injEq] at eq
  omega

end SmallOS.Net
