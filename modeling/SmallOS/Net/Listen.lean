import SmallOS.Net.Tcp

/-! The slots of the TCP listeners. A slot belongs to its port for good: closing the listener makes
it inactive and leaves the port in it, so the slots hold the first ports that were ever listened
on. -/

namespace SmallOS.Net

open Function List Option

structure TcpSlot where
  localPort : Nat
  active : Bool
  backlog : Nat

def tcpMaxListeners : Nat := 8

def tcpSlotForPort (slots : List TcpSlot) (port : Nat) : Option Nat :=
  slots.findIdx? (·.localPort == port)

def tcpSlotForPortCreate (slots : List TcpSlot) (port : Nat) : Option (Nat × List TcpSlot) :=
  match tcpSlotForPort slots port with
  | some i => some (i, slots)
  | none => (tcpSlotForPort slots 0).map fun i => (i, slots.set i ⟨port, false, 0⟩)

def TcpSlot.listen (backlog : Nat) (slot : TcpSlot) : TcpSlot :=
  { slot with active := true, backlog := backlog }

def tcpSocketBind (slots : List TcpSlot) (port : Nat) : Option (List TcpSlot) :=
  if port = 0 ∨ 0xFFFF < port then none
  else (tcpSlotForPortCreate slots port).map fun r => r.2.modify r.1 (.listen 1)

def tcpSocketListen (slots : List TcpSlot) (port backlog : Nat) : Option (List TcpSlot) :=
  (tcpSlotForPort slots port).map fun i =>
    slots.modify i (.listen (min (if backlog = 0 then 1 else backlog) 32))

def tcpSocketCloseListener (slots : List TcpSlot) (port : Nat) : List TcpSlot :=
  match tcpSlotForPort slots port with
  | none => slots
  | some i => slots.modify i fun slot => { slot with active := false, backlog := 0 }

def tcpPortInUse (slots : List TcpSlot) (conns : List Conn) (port : Nat) : Bool :=
  port == 0 || (tcpSlotForPort slots port).isSome ||
    conns.any fun c => c.state != .closed && c.localPort == port

inductive TcpSocketState
  | opened
  | bound
  | listening
  deriving DecidableEq

structure TcpSocket where
  state : TcpSocketState
  localPort : Nat
  backlog : Nat

inductive SocketErrno
  | inval
  | acces
  | io
  | nfile
  deriving DecidableEq

/-- The slots and the sockets, `none` for an entry without references. Beside them stand the ports
for which `socket_listen_tcp` was called, each once. -/
structure TcpSockets where
  slots : List TcpSlot
  socket : Nat → Option TcpSocket
  tried : List Nat

abbrev SocketResult := Except SocketErrno Unit × TcpSockets

namespace TcpSockets

def put (s : TcpSockets) (k : Nat) (sock : TcpSocket) : TcpSockets :=
  { s with socket := update s.socket k (some sock) }

def create (s : TcpSockets) : SocketResult :=
  match (List.range' 0 256).find? fun k => (s.socket k).isNone with
  | none => (.error .nfile, s)
  | some k => (.ok (), s.put k ⟨.opened, 0, 0⟩)

def bind (s : TcpSockets) (k port : Nat) : SocketResult :=
  match s.socket k with
  | some ⟨.opened, _, backlog⟩ =>
    if port = 0 ∨ 0xFFFF < port then (.error .inval, s)
    else (.ok (), s.put k ⟨.bound, port, backlog⟩)
  | _ => (.error .inval, s)

def note (s : TcpSockets) (port : Nat) : TcpSockets :=
  { s with tried := if port ∈ s.tried then s.tried else s.tried ++ [port] }

def listen (s : TcpSockets) (k : Nat) (backlog : Int) : SocketResult :=
  match s.socket k with
  | some ⟨.bound, port, _⟩ =>
    if port = 0 then (.error .inval, s)
    else
      let effective := min (if backlog ≤ 0 then 1 else backlog.toNat) 32
      let s := s.note port
      match tcpSocketBind s.slots port with
      | none => (.error .acces, s)
      | some slots => match tcpSocketListen slots port effective with
        | none => (.error .io, { s with slots := slots })
        | some slots => (.ok (), { s with slots := slots }.put k ⟨.listening, port, effective⟩)
  | _ => (.error .inval, s)

def close (s : TcpSockets) (k : Nat) : TcpSockets :=
  match s.socket k with
  | none => s
  | some sock => { s with
      slots := if sock.state = .listening then tcpSocketCloseListener s.slots sock.localPort
        else s.slots
      socket := update s.socket k none }

inductive Call
  | create
  | bind (k port : Nat)
  | listen (k : Nat) (backlog : Int)
  | close (k : Nat)

def step (s : TcpSockets) : Call → TcpSockets
  | .create => s.create.2
  | .bind k port => (s.bind k port).2
  | .listen k backlog => (s.listen k backlog).2
  | .close k => s.close k

def init : TcpSockets where
  slots := ⟨2323, false, 0⟩ :: List.replicate 7 ⟨0, false, 0⟩
  socket _ := none
  tried := [2323]

def run (calls : List Call) : TcpSockets := calls.foldl step init

structure Sound (s : TcpSockets) : Prop where
  ports : s.slots.map (·.localPort) =
    s.tried.take tcpMaxListeners ++ List.replicate (tcpMaxListeners - s.tried.length) 0
  nodup : s.tried.Nodup
  nonzero : 0 ∉ s.tried
  sockets : ∀ k sock, s.socket k = some sock → sock.state ≠ .opened →
    sock.localPort ≠ 0 ∧ sock.localPort ≤ 0xFFFF

/-- The port is one of the first eight for which `socket_listen_tcp` was called, or would be. -/
def HasSlot (s : TcpSockets) (port : Nat) : Prop :=
  port ∈ s.tried.take tcpMaxListeners ∨ s.tried.length < tcpMaxListeners

end TcpSockets

variable {slots slots' : List TcpSlot} {port i n : Nat} {s : TcpSockets}

theorem localPort_modify {f : TcpSlot → TcpSlot} (h : ∀ slot, (f slot).localPort = slot.localPort)
    (slots : List TcpSlot) (i : Nat) :
    (slots.modify i f).map (·.localPort) = slots.map (·.localPort) := by
  induction slots generalizing i with
  | nil => simp
  | cons slot slots ih => cases i <;> simp [h, ih]

theorem tcpSlotForPort_map :
    tcpSlotForPort slots port = (slots.map (·.localPort)).findIdx? (· == port) := by
  rw [findIdx?_map]
  rfl

theorem tcpSlotForPort_isSome :
    (tcpSlotForPort slots port).isSome ↔ port ∈ slots.map (·.localPort) := by
  rw [tcpSlotForPort_map, findIdx?_isSome, List.any_eq_true]
  simp

namespace TcpSockets

theorem Sound.mem_iff (h : s.Sound) (hp : port ≠ 0) :
    (tcpSlotForPort s.slots port).isSome ↔ port ∈ s.tried.take tcpMaxListeners := by
  rw [tcpSlotForPort_isSome, h.ports, mem_append, mem_replicate]
  exact ⟨fun mem => mem.resolve_right fun zero => hp zero.2, .inl⟩

theorem Sound.create (h : s.Sound) (hp : port ≠ 0) :
    ∃ slots : List TcpSlot, slots.map (·.localPort) = (s.note port).tried.take tcpMaxListeners ++
          List.replicate (tcpMaxListeners - (s.note port).tried.length) 0 ∧
      (tcpSlotForPortCreate s.slots port = none ∧ slots = s.slots ∧ ¬s.HasSlot port ∨
        ∃ i, tcpSlotForPortCreate s.slots port = some (i, slots) ∧ s.HasSlot port ∧
          port ∈ slots.map (·.localPort)) := by
  have mem := h.mem_iff hp
  unfold tcpSlotForPortCreate
  cases found : tcpSlotForPort s.slots port with
  | some i =>
    rw [found] at mem
    have old := mem.mp rfl
    have same : (s.note port).tried = s.tried := if_pos (mem_of_mem_take old)
    rw [same]
    exact ⟨s.slots, h.ports, .inr ⟨i, rfl, .inl old, tcpSlotForPort_isSome.mp (by rw [found]; rfl)⟩⟩
  | none =>
    rw [found] at mem
    have new : port ∉ s.tried.take tcpMaxListeners := fun old => nomatch mem.mpr old
    have ports := h.ports
    simp only [tcpSlotForPort_map, ports]
    by_cases room : s.tried.length < tcpMaxListeners
    · have all : s.tried.take tcpMaxListeners = s.tried := take_of_length_le (by omega)
      rw [all] at new ports ⊢
      obtain ⟨n, hn⟩ : ∃ n, tcpMaxListeners - s.tried.length = n + 1 :=
        ⟨tcpMaxListeners - s.tried.length - 1, by omega⟩
      have free : (s.tried ++ replicate (n + 1) 0).findIdx? (· == 0) = some s.tried.length := by
        rw [findIdx?_append, findIdx?_eq_none_iff.mpr (by
          intro x mem
          simpa using fun zero : x = 0 => h.nonzero (zero ▸ mem))]
        simp [replicate_succ, findIdx?_cons]
      have noted : (s.note port).tried = s.tried ++ [port] := if_neg new
      have left : tcpMaxListeners - (s.tried ++ [port]).length = n := by simp; omega
      have eq : (s.slots.set s.tried.length ⟨port, false, 0⟩).map (·.localPort) =
          s.tried ++ [port] ++ replicate n 0 := by
        rw [map_set, ports, hn]
        simp [replicate_succ]
      rw [hn, free, noted, left, take_of_length_le (by simp; omega)]
      exact ⟨_, eq, .inr ⟨_, rfl, .inr room, by simp [eq]⟩⟩
    · have full : tcpMaxListeners - s.tried.length = 0 := by omega
      have kept : (s.note port).tried.take tcpMaxListeners = s.tried.take tcpMaxListeners ∧
          tcpMaxListeners ≤ (s.note port).tried.length := by
        unfold note
        simp only
        split_ifs
        · exact ⟨rfl, by omega⟩
        · exact ⟨take_append_of_le_length (by omega), by simp; omega⟩
      rw [full, replicate_zero, append_nil] at ports ⊢
      rw [findIdx?_eq_none_iff.mpr (by
        intro x mem
        simpa using fun zero : x = 0 => h.nonzero (zero ▸ mem_of_mem_take mem))]
      refine ⟨s.slots, ?_, .inl ⟨rfl, rfl, fun has => has.elim new room⟩⟩
      rw [kept.1, Nat.sub_eq_zero_of_le kept.2, ports, replicate_zero, append_nil]

theorem Sound.noted (h : s.Sound) (hp : port ≠ 0) :
    (s.note port).tried.Nodup ∧ 0 ∉ (s.note port).tried := by
  unfold note
  simp only
  split_ifs with old
  · exact ⟨h.nodup, h.nonzero⟩
  · refine ⟨nodup_append.mpr ⟨h.nodup, by simp, ?_⟩, by simpa using ⟨h.nonzero, hp.symm⟩⟩
    rintro x mem y last rfl
    exact old (mem_singleton.mp last ▸ mem)

theorem Sound.put (h : s.Sound) (k : Nat) (sock : TcpSocket)
    (ok : sock.state ≠ .opened → sock.localPort ≠ 0 ∧ sock.localPort ≤ 0xFFFF) :
    (s.put k sock).Sound := by
  refine ⟨h.ports, h.nodup, h.nonzero, fun j other at_ => ?_⟩
  by_cases hj : j = k
  · subst hj
    obtain rfl : sock = other := by simpa [TcpSockets.put] using at_
    exact ok
  · exact h.sockets j other (by simpa [TcpSockets.put, hj] using at_)

theorem Sound.listen (h : s.Sound) {k : Nat} {sock : TcpSocket} (at_ : s.socket k = some sock)
    (bound : sock.state = .bound) (backlog : Int) : (s.listen k backlog).2.Sound ∧
      ((s.listen k backlog).1 = .ok () ↔ s.HasSlot sock.localPort) := by
  obtain ⟨state, port, old⟩ := sock
  obtain rfl : state = .bound := bound
  obtain ⟨hp, hmax⟩ := h.sockets k _ at_ nofun
  simp only at hp hmax
  obtain ⟨nodup, nonzero⟩ := h.noted hp
  have range : ¬(port = 0 ∨ 0xFFFF < port) := by omega
  obtain ⟨slots, ports, ⟨made, rfl, full⟩ | ⟨i, made, room, mem⟩⟩ := h.create hp
  · simp only [TcpSockets.listen, tcpSocketBind, at_, if_neg hp, if_neg range, made,
      show (s.note port).slots = s.slots from rfl, map_none]
    exact ⟨⟨ports, nodup, nonzero, h.sockets⟩, nofun, fun has => absurd has full⟩
  · have listens := localPort_modify (f := .listen 1) (fun _ => rfl) slots i
    obtain ⟨j, found⟩ := isSome_iff_exists.mp (tcpSlotForPort_isSome.mpr (listens.symm ▸ mem))
    simp only [TcpSockets.listen, tcpSocketBind, tcpSocketListen, at_, if_neg hp, if_neg range,
      made,
      show (s.note port).slots = s.slots from rfl, map_some, found]
    have sockets : ∀ b, ∀ j sock, (s.put k ⟨.listening, port, b⟩).socket j = some sock → _ :=
      fun b => (h.put k ⟨.listening, port, b⟩ fun _ => ⟨hp, hmax⟩).sockets
    refine ⟨⟨?_, nodup, nonzero, sockets _⟩, fun _ => room, fun _ => trivial⟩
    exact (localPort_modify (f := .listen _) (fun _ => rfl) _ _).trans (listens.trans ports)

theorem Sound.step (h : s.Sound) (call : Call) : (s.step call).Sound := by
  cases call with
  | create =>
    change s.create.2.Sound
    unfold TcpSockets.create
    split
    · exact h
    · exact h.put _ _ fun no => absurd rfl no
  | bind k port =>
    change (s.bind k port).2.Sound
    unfold TcpSockets.bind
    split
    · split_ifs with range
      · exact h
      · exact h.put k _ fun _ => not_or.mp range |>.imp_right not_lt.mp
    · exact h
  | listen k backlog =>
    change (s.listen k backlog).2.Sound
    by_cases bound : ∃ sock, s.socket k = some sock ∧ sock.state = .bound
    · obtain ⟨sock, at_, bound⟩ := bound
      exact (h.listen at_ bound backlog).1
    · unfold TcpSockets.listen
      split
      · exact absurd ⟨_, ‹_›, rfl⟩ bound
      · exact h
  | close k =>
    change (s.close k).Sound
    unfold TcpSockets.close
    split
    · exact h
    · refine ⟨Eq.trans ?_ h.ports, h.nodup, h.nonzero, fun j other at_ => ?_⟩
      · simp only
        split_ifs
        · unfold tcpSocketCloseListener
          split
          · rfl
          · refine localPort_modify ?_ _ _
            exact fun _ => rfl
        · rfl
      · refine h.sockets j other ?_
        by_cases hj : j = k
        · simp [hj] at at_
        · simpa [hj] using at_

theorem run_sound (calls : List Call) : (run calls).Sound := by
  suffices all : ∀ s : TcpSockets, s.Sound → (calls.foldl TcpSockets.step s).Sound from
    all init ⟨rfl, by decide, by decide, nofun⟩
  induction calls with
  | nil => exact fun s h => h
  | cons call calls ih => exact fun s h => ih _ (h.step call)

end TcpSockets

/-- Whether a port can be listened on, and whether a connection can be made from it once nothing
uses it, depends on the ports that were ever listened on. -/
theorem listen_finds_slot_iff (calls : List TcpSockets.Call) (k : Nat) (sock : TcpSocket)
    (at_ : (TcpSockets.run calls).socket k = some sock) (bound : sock.state = .bound)
    (backlog : Int) (conns : List Conn)
    (unused : ∀ c ∈ conns, c.state ≠ .closed → c.localPort ≠ sock.localPort) :
    (((TcpSockets.run calls).listen k backlog).1 = .ok () ↔
        (TcpSockets.run calls).HasSlot sock.localPort) ∧
      (tcpPortInUse (TcpSockets.run calls).slots conns sock.localPort = false ↔
        sock.localPort ∉ (TcpSockets.run calls).tried.take tcpMaxListeners) := by
  have sound := TcpSockets.run_sound calls
  have nonzero := (sound.sockets k sock at_ (by rw [bound]; exact nofun)).1
  refine ⟨(sound.listen at_ bound backlog).2, ?_⟩
  have none : (conns.any fun c => c.state != .closed && c.localPort == sock.localPort) = false := by
    simpa using unused
  rw [← sound.mem_iff nonzero, tcpPortInUse, none, beq_false_of_ne nonzero]
  simp

/-- A socket that is bound to a port and listens on it, and is closed again. -/
def TcpSockets.visit (port : Nat) : List TcpSockets.Call :=
  [.create, .bind 0 port, .listen 0 1, .close 0]

theorem listen_finds_slot_again :
    ((TcpSockets.run (TcpSockets.visit 80 ++ [.create, .bind 0 80])).listen 0 1).1 = .ok () :=
  (listen_finds_slot_iff _ 0 ⟨.bound, 80, 0⟩ rfl rfl 1 [] (by simp)).1.mpr (.inl (by decide))

/-- Seven ports were listened on and all sockets are closed again: the eighth finds no slot, and
none of the seven can be connected from. -/
def TcpSockets.seven : TcpSockets :=
  run ((List.range' 1 7).flatMap visit ++ [.create, .bind 0 8])

theorem seven_listeners_exhaust :
    (List.range 256).all (fun k => (TcpSockets.seven.socket k).all (·.state != .listening)) ∧
      (TcpSockets.seven.listen 0 1).1 = .error .acces ∧
      tcpPortInUse TcpSockets.seven.slots [] 1 = true := by
  decide +kernel

end SmallOS.Net
