import SmallOS.Net.TcpTransmit
import SmallOS.Net.TcpQuiet

/-! One direction between two copies of the implementation, over a network that loses, repeats and
reorders. What the second end gives to its application is what the first one took from its own, in
this order, until a FIN arrives. -/

namespace SmallOS.Net

open List Work

variable {isn : UInt32} {h : Hist} {seg : Segment} {queued : List UInt8} {s : Sent}

/-- The end that sends, the one that receives, and all segments that the first has emitted. -/
structure Channel where
  sender : Hist
  receiver : Hist
  sent : List Sent

/-- A segment without bytes and FIN, whoever made it; a SYN has the number `isn`. -/
structure Bare (isn : UInt32) (seg : Segment) : Prop where
  payload : seg.payload = []
  fin : seg.fin = false
  syn : seg.syn = true → seg.seq = isn

namespace Channel

def sends (p : Channel) (io : Io) (call : Call) : Channel :=
  ⟨p.sender.step io call, p.receiver, p.sent ++ (call.run io p.sender.conn).out⟩

def receives (p : Channel) (io : Io) (call : Call) : Channel :=
  { p with receiver := p.receiver.step io call }

/-- A segment that reaches the second end: bare, or a copy of a data segment sent so far. -/
def Brings (isn : UInt32) (p : Channel) (seg : Segment) : Prop :=
  Bare isn seg ∨ ∃ s ∈ p.sent, s.kind = .data ∧ ∃ c, seg = s.arrives c

/-- Any calls of both ends in any order, from new connections on. The first end hears anything. -/
inductive Runs (isn : UInt32) : Channel → Prop
  | start {peer : UInt32} {s r : Hist} (hs : ∀ ok, Reaches peer ok s) (hr : ∀ ok, Reaches isn ok r)
    (first : s.first = isn + 1) : Runs isn ⟨s, r, []⟩
  | sends {p : Channel} (run : Runs isn p) (io : Io) (call : Call) : Runs isn (p.sends io call)
  | receives {p : Channel} (run : Runs isn p) (io : Io) (call : Call)
    (brings : ∀ slot seg, call = .segment slot seg → p.Brings isn seg) :
    Runs isn (p.receives io call)

end Channel

def Placed (isn : UInt32) (queued : List UInt8) (s : Sent) : Prop :=
  ∃ pos ≤ queued.length, s.seq = isn + UInt32.ofNat (1 + pos) ∧ s.payload <+: queued.drop pos

theorem Placed.mono {more : List UInt8} (placed : Placed isn queued s) (pre : queued <+: more) :
    Placed isn more s := by
  obtain ⟨pos, le, seq, bytes⟩ := placed
  exact ⟨pos, le.trans pre.length_le, seq, bytes.trans (pre.drop pos)⟩

theorem Reaches.placed {peer : UInt32} {ok : Io → Hist → Call → Prop} (r : Reaches peer ok h)
    (first : h.first = isn + 1) (io : Io) (call : Call) (hs : s ∈ (call.run io h.conn).out)
    (data : s.kind = .data) : Placed isn (h.step io call).queued s := by
  have after := (r.txStands.call io call).1
  by_cases est : (call.run io h.conn).conn.state = .established
  · obtain ⟨pos, seq, -, inside, bytes, -⟩ := (after.ok est).carries s hs data
    refine ⟨pos, (Nat.le_add_right ..).trans inside, ?_, bytes ▸ take_prefix ..⟩
    rw [seq, first, Serial.add_ofNat]
    rfl
  · exact absurd data ((after.idle est).2 s hs)

def padded (queued : List UInt8) (z : UInt8) (i : Nat) : UInt8 := queued.getD i z

theorem bytes_padded {l : List UInt8} {pos : Nat} (pre : l <+: queued.drop pos) (z : UInt8) :
    l = (range l.length).map fun i => padded queued z (pos + i) := by
  obtain ⟨rest, bytes⟩ := pre
  refine ext_getElem (by simp) fun i hi _ => ?_
  have byte : queued[pos + i]? = some l[i] := by
    rw [← getElem?_drop, ← bytes, getElem?_append_left hi, getElem?_eq_getElem hi]
  simp [padded, byte]

theorem Placed.fromPeer (placed : Placed isn queued s) (data : s.kind = .data) (c : Conn)
    (z : UInt8) : ∃ off ≤ 1 + queued.length, 0 < off ∧
      FromPeer isn (padded queued z) none (s.arrives c) off := by
  obtain ⟨pos, le, seq, bytes⟩ := placed
  refine ⟨1 + pos, by omega, by omega, seq, by simp [Sent.arrives, data], ?_,
    by simp [Sent.arrives, data], by simp⟩
  rw [Nat.add_sub_cancel_left]
  exact bytes_padded bytes z

theorem Bare.fromPeer (bare : Bare isn seg) (stream : Nat → UInt8) :
    ∃ off ≤ 4294967296, FromPeer isn stream none seg off := by
  by_cases syn : seg.syn = true
  · exact ⟨0, by omega, by simp [bare.syn syn], by simp [syn], by simp [bare.payload],
      by simp [bare.fin], by simp⟩
  · refine ⟨1 + (seg.seq - (isn + 1)).toNat, ?_, ?_, by simp [syn], by simp [bare.payload],
      by simp [bare.fin], by simp⟩
    · have := (seg.seq - (isn + 1)).toNat_lt
      omega
    · rw [Serial.add_ofNat]
      exact Serial.eq_add_ofNat _ _

theorem accepted_front (all : ∀ z, InStream (padded queued z) none h) :
    h.accepted <+: queued ∧ h.fins = 0 := by
  have same := map_inj_left.mp ((all 0).accepted.symm.trans (all 1).accepted)
  have le : h.accepted.length ≤ queued.length := by
    by_contra lt
    have := same queued.length (mem_range.mpr (by omega))
    simp [padded] at this
  constructor
  · have pre : queued.take h.accepted.length <+: queued.drop 0 := take_prefix ..
    have front := bytes_padded pre 0
    simp only [length_take, Nat.min_eq_left le, Nat.zero_add] at front
    rw [(all 0).accepted, ← front]
    exact take_prefix ..
  · by_contra some
    simpa using ((all 0).fins (Nat.pos_of_ne_zero some)).2

namespace Channel

variable {p : Channel}

structure Sound (isn : UInt32) (p : Channel) : Prop where
  sender : ∃ peer, Reaches peer (fun _ _ _ => True) p.sender
  first : p.sender.first = isn + 1
  placed : ∀ s ∈ p.sent, s.kind = .data → Placed isn p.sender.queued s
  receiver : ∀ queued, p.sender.queued <+: queued → queued.length < 4294967295 →
    ∀ z, Reaches isn (Heard isn (padded queued z) none) p.receiver

theorem Sound.heard (sound : p.Sound isn) (pre : p.sender.queued <+: queued)
    (small : queued.length < 4294967295) (brings : p.Brings isn seg) (z : UInt8) :
    ∃ off, FromPeer isn (padded queued z) none seg off ∧ InTime p.receiver off := by
  obtain ⟨front, fins⟩ := accepted_front fun z => (sound.receiver queued pre small z).inStream
  have count : p.receiver.count ≤ queued.length := by
    rw [Hist.count, fins]
    exact front.length_le
  obtain bare | ⟨s, hs, data, c, rfl⟩ := brings
  · obtain ⟨off, le, peer⟩ := bare.fromPeer (padded queued z)
    exact ⟨off, peer, by omega, by omega⟩
  · obtain ⟨off, le, pos, peer⟩ := ((sound.placed s hs data).mono pre).fromPeer data c z
    exact ⟨off, peer, by omega, by omega⟩

theorem Runs.sound (run : p.Runs isn) : p.Sound isn := by
  induction run with
  | start hs hr first =>
    exact ⟨⟨_, hs _⟩, first, by simp, fun _ _ _ _ => hr _⟩
  | sends run io call ih =>
    obtain ⟨peer, r⟩ := ih.sender
    refine ⟨⟨peer, r.call io call trivial⟩, ih.first, fun s hs data => ?_, fun queued pre => ?_⟩
    · obtain old | new := mem_append.mp hs
      · exact (ih.placed s old data).mono (prefix_append _ _)
      · exact r.placed ih.first io call new data
    · exact ih.receiver queued ((prefix_append _ _).trans pre)
  | receives run io call brings ih =>
    refine ⟨ih.sender, ih.first, ih.placed, fun queued pre small z => ?_⟩
    refine (ih.receiver queued pre small z).call io call fun slot seg same => .inr ?_
    exact ih.heard pre small (brings slot seg same) z

end Channel

/-- Whatever the network does with the segments, the application of one end reads a front of what
that of the other has queued, and nothing else is accepted. -/
theorem delivered_in_order {p : Channel} (run : p.Runs isn)
    (small : p.sender.queued.length < 4294967295) :
    p.receiver.returned <+: p.receiver.accepted ∧ p.receiver.accepted <+: p.sender.queued := by
  have all := fun z => (run.sound.receiver _ prefix_rfl small z).inStream
  exact ⟨(all 0).returned, (accepted_front all).1⟩

def twoSent : Sent := ⟨.data, 0x534D414D, 1, 65535, [7, 8], 0⟩

/-- Two bytes are queued, and their segment arrives twice. -/
theorem delivered_in_order_two_bytes : ∃ p : Channel, p.Runs 0x534D414C ∧
    p.receiver.returned = [7, 8] ∧ p.receiver.accepted <+: p.sender.queued := by
  have data {s r : Hist} (slot : Bool) (seg : Segment)
      (same : Call.segment true (twoSent.arrives .zero) = .segment slot seg) :
      Channel.Brings 0x534D414C ⟨s, r, [twoSent]⟩ seg := by
    cases same
    exact .inr ⟨twoSent, mem_singleton_self _, rfl, .zero, rfl⟩
  have sent := ((Channel.Runs.start (fun _ => .accept plainIo 0 0 (dataSegment 0 []) rfl)
    (fun _ => .accept plainIo 0 0 (dataSegment 0x534D414C []) rfl) rfl).sends plainIo
    (.segment true { openSegment with window := 2 })).sends plainIo (.send [7, 8])
  have opened := sent.receives plainIo (.segment true openSegment) fun slot seg same => by
    cases same
    exact .inl ⟨rfl, rfl, by decide⟩
  have run := ((opened.receives plainIo _ data).receives plainIo _ data).receives plainIo (.recv 9)
    (by simp)
  exact ⟨_, run, by decide, (delivered_in_order run (by decide)).2⟩

end SmallOS.Net
