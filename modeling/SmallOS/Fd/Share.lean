import SmallOS.Fd.Table
import SmallOS.Ipc.PtyInput
import SmallOS.Vfs.Array

/-! Two descriptors of one open file. The calls on a file, a pipe, a PTY, a socket and the console
go to an object that the copies share. The timer of a timer descriptor and the position in a virtual
file are in the entry itself, and the watches of an epoll descriptor and the mask of a signal
descriptor in a frame that the copy does not keep. -/

namespace SmallOS.Fd
open Function

variable {a b e : Entry} {k : Kind}

inductive VirtualType
  | regular | null | zero | tty | urandom
  deriving DecidableEq

structure VirtualObject where
  refs : Nat
  type : VirtualType
  data : Option (List UInt8)

structure Watch where
  fd : Int
  events : BitVec 32
  data : BitVec 32
  deriving DecidableEq

structure WaitObject where
  signalMask : BitVec 32
  pendingSignals : BitVec 32
  deriving DecidableEq

def epollMaxWatches : Nat := 64
def siginfoBytes : Nat := 128

inductive CallErrno
  | ebadf | einval | eagain | enomem | eexist | enoent | enfile | efault | eio
  deriving DecidableEq

inductive EpollOp
  | add | mod | del | other

/-- A call through a descriptor. Calls that only a PTY or a socket has are of type `δ`. -/
inductive Op (δ : Type)
  | read (len : Nat)
  | write (data : List UInt8)
  | seek (offset : Int) (whence : Vfs.Whence)
  | truncate (size : Nat)
  | flush
  | device (call : δ)
  | epollCtl (op : EpollOp) (fd : Int) (target : Bool) (events data : BitVec 32)
  | timerfdSettime (first interval : BitVec 32)
  | signalfdMask (mask : BitVec 32)
  | setFlags (flags : BitVec 32)

/-- `sleeps` is a call that waits; it goes on with a call of its own when it is woken. -/
inductive Reply (ρ : Type)
  | done
  | bytes (data : List UInt8)
  | count (n : Nat)
  | position (offset : Int)
  | expirations (n : BitVec 32)
  | signal (signum : Nat)
  | file (reply : Except Vfs.Errno Vfs.Reply)
  | stream (reply : ρ)
  | sleeps
  | error (e : CallErrno)

structure World (σ : Type) where
  files : Vfs.State
  /-- The pipes, the PTYs, the sockets, the console and the random numbers. -/
  streams : σ
  virtuals : Nat → Option VirtualObject
  watches : Nat → List (Option Watch)
  waits : Nat → WaitObject
  pmm : Mem.State
  ticks : BitVec 32

def Entry.nonblock (e : Entry) : Bool := e.flags &&& flagNonblock ≠ 0

/-- What the handlers of a stream read in the entry beside the object. -/
def Entry.handle (e : Entry) : Ipc.Handle := ⟨e.valid, e.readable, e.writable, e.nonblock⟩

structure Streams (σ δ ρ : Type) where
  call : Kind → (object : Nat) → Entry → Op δ → σ → ρ × σ
  retain : Kind → (object : Nat) → Entry → σ → σ
  random : (len : Nat) → σ → List UInt8 × σ
  reads : ∀ {a b : Entry}, a.handle = b.handle →
    ∀ kind object op s, call kind object a op s = call kind object b op s

section
variable {σ δ ρ : Type} (D : Streams σ δ ρ)

def vfsFileRetain (handle : Nat) (s : Vfs.State) : Vfs.State := { s with
  objects := update s.objects handle
    ((s.objects handle).map fun o => { o with refs := o.refs + 1 }) }

def processFdShareRef (w : World σ) (e : Entry) : World σ × Entry :=
  if !e.valid then (w, e)
  else match e.kind with
    | .pipe | .ptyMaster | .ptySlave =>
      ({ w with streams := D.retain e.kind e.auxFrame e w.streams }, e)
    | .socket => ({ w with streams := D.retain .socket e.socket e w.streams }, e)
    | .file => ({ w with files := vfsFileRetain e.auxFrame w.files }, e)
    | .virtual =>
      let retained := (w.virtuals e.auxFrame).map fun o => { o with refs := o.refs + 1 }
      ({ w with virtuals := update w.virtuals e.auxFrame retained }, e)
    | .epoll | .timerfd | .signalfd => (w, { e with auxFrame := 0 })
    | .console | .none => (w, e)

/-- `process_fd_dup`, `process_fd_dup2` and `process_fd_dup_from` set the flags of the new
descriptor; `process_copy_fd_table` keeps those of the old one. -/
def copyEntry (w : World σ) (e : Entry) (fdFlags : BitVec 32) : World σ × Entry :=
  processFdShareRef D w { e with fdFlags := fdFlags }

def timerfdReady (now : BitVec 32) (e : Entry) : Bool :=
  e.timerDeadline ≠ 0 && 0 ≤ (now - e.timerDeadline).toInt

def timerfdConsume (now : BitVec 32) (e : Entry) : BitVec 32 × Entry :=
  if !timerfdReady now e then (0, e)
  else if e.timerInterval ≠ 0 then
    let n := 1 + (now - e.timerDeadline) / e.timerInterval
    (n, { e with timerDeadline := e.timerDeadline + n * e.timerInterval })
  else (1, { e with timerDeadline := 0 })

def specialWaitObject (w : World σ) (e : Entry) (create : Bool) :
    Option Nat × World σ × Entry :=
  if e.auxFrame = 0 then
    if create then
      let (frame, pmm) := Mem.pmmAllocFrame w.pmm
      if frame = 0 then (none, { w with pmm := pmm }, e)
      else (some frame,
        { w with pmm := pmm, waits := update w.waits frame ⟨0, 0⟩ },
        { e with auxFrame := frame })
    else (none, w, e)
  else (some e.auxFrame, w, e)

def waitReadable (w : World σ) (e : Entry) : Reply ρ × World σ × Entry :=
  if e.nonblock then (.error .eagain, w, e)
  else match specialWaitObject w e true with
    | (none, w', e') => (.error .enomem, w', e')
    | (some _, w', e') => (.sleeps, w', e')

def timerfdCall (w : World σ) (e : Entry) : Op δ → Reply ρ × World σ × Entry
  | .read len =>
    if len < 8 then (.error .einval, w, e)
    else if timerfdReady w.ticks e then
      let (n, e') := timerfdConsume w.ticks e
      (.expirations n, w, e')
    else waitReadable w e
  | .write _ => (.error .ebadf, w, e)
  | .timerfdSettime first interval =>
    if first = 0xFFFFFFFF ∨ interval = 0xFFFFFFFF then (.error .einval, w, e)
    else (.done, w, { e with
      timerInterval := interval
      timerDeadline := if first = 0 then 0 else w.ticks + first })
  | _ => (.error .einval, w, e)

def signalPending (w : World σ) (e : Entry) : Option Nat :=
  if e.auxFrame = 0 then none
  else
    let obj := w.waits e.auxFrame
    (List.range' 1 31).find? fun n => (obj.pendingSignals &&& obj.signalMask).getLsbD n

def signalfdCall (w : World σ) (e : Entry) : Op δ → Reply ρ × World σ × Entry
  | .read len =>
    if len < siginfoBytes then (.error .einval, w, e)
    else match signalPending w e with
      | some n =>
        let obj := w.waits e.auxFrame
        let taken := { obj with pendingSignals := obj.pendingSignals &&& ~~~(1#32 <<< n) }
        (.signal n, { w with waits := update w.waits e.auxFrame taken }, e)
      | none => waitReadable w e
  | .write _ => (.error .ebadf, w, e)
  | .signalfdMask mask =>
    match specialWaitObject w e true with
    | (none, w', e') => (.error .enomem, w', e')
    | (some frame, w', e') =>
      let obj : WaitObject := ⟨mask, (w'.waits frame).pendingSignals &&& mask⟩
      (.done, { w' with waits := update w'.waits frame obj }, e')
  | _ => (.error .einval, w, e)

def epollWatches (w : World σ) (e : Entry) (create : Bool) : Option Nat × World σ × Entry :=
  if e.auxFrame = 0 then
    if create then
      let (frame, pmm) := Mem.pmmAllocFrame w.pmm
      if frame = 0 then (none, { w with pmm := pmm }, e)
      else (some frame,
        { w with
          pmm := pmm
          watches := update w.watches frame (List.replicate epollMaxWatches none) },
        { e with auxFrame := frame })
    else (none, w, e)
  else (some e.auxFrame, w, e)

def epollFindWatch (watches : List (Option Watch)) (fd : Int) : Option Nat :=
  watches.findIdx? fun slot => slot.any fun watch => watch.fd = fd

def changeWatches (watches : List (Option Watch)) (op : EpollOp) (watch : Watch) :
    Except CallErrno (List (Option Watch)) :=
  match op, epollFindWatch watches watch.fd with
  | .add, some _ => .error .eexist
  | .add, none =>
    match watches.findIdx? Option.isNone with
    | some i => .ok (watches.set i (some watch))
    | none => .error .enfile
  | .mod, some i => .ok (watches.set i (some watch))
  | .del, some i => .ok (watches.set i none)
  | .mod, none | .del, none => .error .enoent
  | .other, _ => .error .einval

def sysEpollCtl (w : World σ) (self : Int) (e : Entry) (op : EpollOp) (target : Bool)
    (watch : Watch) : Reply ρ × World σ × Entry :=
  if !target then (.error .ebadf, w, e)
  else if watch.fd = self then (.error .einval, w, e)
  else match epollWatches w e (match op with | .del => false | _ => true) with
    | (none, w', e') => (.error .enomem, w', e')
    | (some frame, w', e') =>
      match changeWatches (w'.watches frame) op watch with
      | .error err => (.error err, w', e')
      | .ok slots => (.done, { w' with watches := update w'.watches frame slots }, e')

def epollCall (w : World σ) (self : Int) (e : Entry) : Op δ → Reply ρ × World σ × Entry
  | .epollCtl op fd target events data => sysEpollCtl w self e op target ⟨fd, events, data⟩
  | .write _ => (.error .ebadf, w, e)
  | _ => (.error .einval, w, e)

def streamCall (w : World σ) (e : Entry) (kind : Kind) (object : Nat) (op : Op δ) :
    Reply ρ × World σ × Entry :=
  let (reply, streams) := D.call kind object e op w.streams
  (.stream reply, { w with streams := streams }, e)

def virtualRead (w : World σ) (e : Entry) (obj : VirtualObject) (len : Nat) :
    Reply ρ × World σ × Entry :=
  if !e.readable then (.error .ebadf, w, e)
  else if len = 0 then (.bytes [], w, e)
  else match obj.type with
    | .null => (.bytes [], w, e)
    | .zero => (.bytes (List.replicate len 0), w, e)
    | .tty => streamCall D w e .console 0 (.read len)
    | .urandom =>
      let (data, streams) := D.random len w.streams
      (.bytes data, { w with streams := streams }, e)
    | .regular =>
      if e.size ≤ e.offset then (.bytes [], w, e)
      else match obj.data with
        | none => (.error .eio, w, e)
        | some data =>
          let len := min len (e.size - e.offset)
          (.bytes ((data.drop e.offset).take len), w, { e with offset := e.offset + len })

def virtualSeek (e : Entry) (obj : VirtualObject) (offset : Int) (whence : Vfs.Whence) :
    Reply ρ × Entry :=
  match obj.type with
  | .tty | .urandom => (.error .einval, e)
  | .regular | .null | .zero =>
    let base : Option Nat := match whence with
      | .start => some 0
      | .current => some e.offset
      | .stop => some e.size
      | .other => none
    match base with
    | none => (.error .einval, e)
    | some base =>
      let next := Vfs.seekTarget base offset
      if next < 0 then (.error .einval, e)
      else (.position next, { e with offset := next.toNat })

def virtualCall (w : World σ) (e : Entry) (op : Op δ) : Reply ρ × World σ × Entry :=
  match w.virtuals e.auxFrame with
  | none => (.error .efault, w, e)
  | some obj =>
    match op with
    | .read len => virtualRead D w e obj len
    | .write data =>
      if !e.writable then (.error .ebadf, w, e)
      else match obj.type with
        | .null => (.count data.length, w, e)
        | .tty => streamCall D w e .console 0 (.write data)
        | _ => (.error .ebadf, w, e)
    | .seek offset whence =>
      let (reply, e') := virtualSeek e obj offset whence
      (reply, w, e')
    | _ => (.error .einval, w, e)

def Op.toFile : Op δ → Option Vfs.Op
  | .read len => some (.read len)
  | .write data => some (.write data)
  | .seek offset whence => some (.seek offset whence)
  | .truncate size => some (.truncate size)
  | .flush => some .flush
  | _ => none

/-- The fields of the object that the source copies to the entry are read by no call on a file. -/
def fileCall (w : World σ) (e : Entry) (op : Op δ) : Reply ρ × World σ × Entry :=
  match op.toFile with
  | none => (.error .einval, w, e)
  | some fop =>
    let (reply, files) := Vfs.outcome (fop.run e.auxFrame w.files)
    (.file reply, { w with files := files }, e)

def kindCall (w : World σ) (self : Int) (e : Entry) (op : Op δ) : Reply ρ × World σ × Entry :=
  match e.kind with
  | .none => (.error .ebadf, w, e)
  | .file => fileCall w e op
  | .socket => streamCall D w e .socket e.socket op
  | .console => streamCall D w e .console 0 op
  | .pipe | .ptyMaster | .ptySlave => streamCall D w e e.kind e.auxFrame op
  | .epoll => epollCall w self e op
  | .timerfd => timerfdCall w e op
  | .signalfd => signalfdCall w e op
  | .virtual => virtualCall D w e op

def call (w : World σ) (self : Int) (e : Entry) (op : Op δ) : Reply ρ × World σ × Entry :=
  if !e.valid then (.error .ebadf, w, e)
  else match op with
    | .setFlags flags => (.done, w, { e with flags := flags &&& flagNonblock })
    | op => kindCall D w self e op

structure Two (σ : Type) where
  world : World σ
  first : Entry
  second : Entry

/-- Between the calls the rest of the system does what it likes to the world. -/
inductive Event (σ δ : Type)
  | call (second : Bool) (op : Op δ)
  | outside (change : World σ → World σ)

def Event.toFirst : Event σ δ → Event σ δ
  | .call _ op => .call false op
  | .outside change => .outside change

def Two.step (nums : Int × Int) (s : Two σ) : Event σ δ → Two σ
  | .call false op =>
    let (_, w, e) := call D s.world nums.1 s.first op
    { s with world := w, first := e }
  | .call true op =>
    let (_, w, e) := call D s.world nums.2 s.second op
    { s with world := w, second := e }
  | .outside change => { s with world := change s.world }

def Two.run (nums : Int × Int) (s : Two σ) (events : List (Event σ δ)) : Two σ :=
  events.foldl (Two.step D nums) s

def Two.copy (w : World σ) (e : Entry) (fdFlags : BitVec 32) : Two σ :=
  let (w', e') := copyEntry D w e fdFlags
  ⟨w', e, e'⟩

inductive View (σ : Type)
  | none
  | file (handle : Nat) (files : Vfs.State)
  | stream (kind : Kind) (object : Nat) (streams : σ)
  | epoll (watches : List (Option Watch))
  | timer (deadline interval : BitVec 32)
  | signals (obj : WaitObject)
  | virtual (obj : Option VirtualObject) (size offset : Nat)

def view (w : World σ) (e : Entry) : View σ :=
  match e.kind with
  | .none => .none
  | .file => .file e.auxFrame w.files
  | .socket => .stream .socket e.socket w.streams
  | .console => .stream .console 0 w.streams
  | .pipe | .ptyMaster | .ptySlave => .stream e.kind e.auxFrame w.streams
  | .epoll => .epoll (if e.auxFrame = 0 then [] else w.watches e.auxFrame)
  | .timerfd => .timer e.timerDeadline e.timerInterval
  | .signalfd => .signals (if e.auxFrame = 0 then ⟨0, 0⟩ else w.waits e.auxFrame)
  | .virtual => .virtual (w.virtuals e.auxFrame) e.size e.offset

/-- Through either descriptor one sees what one would see if all calls had gone through the
first. -/
def OneDescription (nums : Int × Int) (s : Two σ) (events : List (Event σ δ)) : Prop :=
  let both := s.run D nums events
  let one := s.run D nums (events.map Event.toFirst)
  view both.world both.first = view one.world one.first ∧
    view both.world both.second = view one.world one.first

def Kind.Shared : Kind → Prop
  | .file | .pipe | .ptyMaster | .ptySlave | .socket | .console => True
  | _ => False

def Op.SetsFlags : Op δ → Prop
  | .setFlags _ => True
  | _ => False

def Event.SetsFlags : Event σ δ → Prop
  | .call _ op => op.SetsFlags
  | .outside _ => False

structure Twin (k : Kind) (a b : Entry) : Prop where
  left : a.kind = k
  right : b.kind = k
  valid : a.valid = b.valid
  readable : a.readable = b.readable
  writable : a.writable = b.writable
  object : a.auxFrame = b.auxFrame
  socket : a.socket = b.socket
  flags : k = .file ∨ a.flags = b.flags

theorem Twin.refl (h : e.kind = k) : Twin k e e :=
  ⟨h, h, rfl, rfl, rfl, rfl, rfl, .inr rfl⟩

theorem Twin.symm (h : Twin k a b) : Twin k b a :=
  ⟨h.right, h.left, h.valid.symm, h.readable.symm, h.writable.symm, h.object.symm,
    h.socket.symm, h.flags.imp_right Eq.symm⟩

theorem Twin.trans {c : Entry} (h : Twin k a b) (h' : Twin k b c) : Twin k a c := by
  refine ⟨h.left, h'.right, h.valid.trans h'.valid, h.readable.trans h'.readable,
    h.writable.trans h'.writable, h.object.trans h'.object, h.socket.trans h'.socket, ?_⟩
  rcases h.flags with hfile | hflags
  · exact .inl hfile
  · exact h'.flags.imp_right hflags.trans

theorem Twin.handle (h : Twin k a b) (hk : k ≠ .file) : a.handle = b.handle := by
  have hflags := h.flags.resolve_left hk
  unfold Entry.handle Entry.nonblock
  rw [h.valid, h.readable, h.writable, hflags]

theorem Twin.view (h : Twin k a b) (hk : k.Shared) (w : World σ) : view w a = view w b := by
  unfold Fd.view
  rw [h.left, h.right, h.object, h.socket]
  cases k <;> first | rfl | exact hk.elim

variable {D}

theorem streamCall_twin (h : Twin k a b) (hk : k ≠ .file) (w : World σ)
    (kind : Kind) (object : Nat) (op : Op δ) :
    (streamCall D w a kind object op).2 = ((streamCall D w b kind object op).2.1, a) := by
  unfold streamCall
  rw [D.reads (h.handle hk)]

theorem kindCall_twin (h : Twin k a b) (hk : k.Shared) (w : World σ) (m n : Int) (op : Op δ) :
    (kindCall D w m a op).2 = ((kindCall D w n b op).2.1, a) := by
  unfold kindCall
  rw [h.left, h.right]
  cases k with
  | file =>
    unfold fileCall
    rw [h.object]
    cases op.toFile <;> rfl
  | socket =>
    rw [h.socket]
    exact streamCall_twin h nofun w _ _ op
  | console => exact streamCall_twin h nofun w _ _ op
  | pipe | ptyMaster | ptySlave =>
    rw [h.object]
    exact streamCall_twin h nofun w _ _ op
  | none | epoll | timerfd | signalfd | virtual => exact hk.elim

theorem call_twin (h : Twin k a b) (hk : k.Shared) {op : Op δ}
    (hop : k = .file ∨ ¬op.SetsFlags) (w : World σ) (m n : Int) :
    (call D w m a op).2.1 = (call D w n b op).2.1 ∧ Twin k (call D w m a op).2.2 a := by
  unfold call
  rw [h.valid]
  split
  · exact ⟨rfl, .refl h.left⟩
  · split
    · rename_i flags
      have hfile : k = .file := hop.resolve_right fun hnot => hnot trivial
      exact ⟨rfl, h.left, h.left, h.valid.symm, rfl, rfl, rfl, rfl, .inl hfile⟩
    · rw [kindCall_twin h hk w m n op]
      exact ⟨rfl, .refl h.left⟩

structure Follows (k : Kind) (both one : Two σ) : Prop where
  world : both.world = one.world
  first : Twin k both.first one.first
  second : Twin k both.second one.first

theorem Follows.step (hk : k.Shared) {both one : Two σ} (h : Follows k both one)
    (nums : Int × Int) {event : Event σ δ} (hevent : k = .file ∨ ¬event.SetsFlags) :
    Follows k (both.step D nums event) (one.step D nums event.toFirst) := by
  cases event with
  | outside change => exact ⟨congrArg change h.world, h.first, h.second⟩
  | call second op =>
    have hone := (call_twin (D := D) (.refl h.first.right) hk hevent one.world nums.1 nums.1).2.symm
    cases second with
    | false =>
      have hcall := call_twin (D := D) h.first hk hevent both.world nums.1 nums.1
      refine ⟨?_, (hcall.2.trans h.first).trans hone, h.second.trans hone⟩
      exact hcall.1.trans (by rw [h.world]; rfl)
    | true =>
      have hcall := call_twin (D := D) h.second hk hevent both.world nums.2 nums.1
      refine ⟨?_, h.first.trans hone, (hcall.2.trans h.second).trans hone⟩
      exact hcall.1.trans (by rw [h.world]; rfl)

theorem Follows.run (hk : k.Shared) (nums : Int × Int) (events : List (Event σ δ))
    (hevents : ∀ event ∈ events, k = .file ∨ ¬event.SetsFlags) {both one : Two σ}
    (h : Follows k both one) :
    Follows k (both.run D nums events) (one.run D nums (events.map Event.toFirst)) := by
  induction events generalizing both one with
  | nil => exact h
  | cons event events ih =>
    exact ih (fun e he => hevents e (List.mem_cons_of_mem _ he))
      (h.step hk nums (hevents event List.mem_cons_self))

theorem copyEntry_twin (hk : k.Shared) (w : World σ) (he : e.kind = k)
    (fdFlags : BitVec 32) : Twin k (copyEntry D w e fdFlags).2 e := by
  have hcopy : (copyEntry D w e fdFlags).2 = { e with fdFlags := fdFlags } := by
    unfold copyEntry processFdShareRef
    split
    · rfl
    · dsimp only
      rw [he]
      cases k <;> first | rfl | exact hk.elim
  rw [hcopy]
  exact ⟨he, he, rfl, rfl, rfl, rfl, rfl, .inr rfl⟩

/-- Copies of a descriptor are one open file if the kind keeps its state in the shared object
and, but for a file, no call changes how one of the entries blocks. -/
theorem copies_are_one_description (D : Streams σ δ ρ) (w : World σ) (e : Entry)
    (fdFlags : BitVec 32) (nums : Int × Int) (events : List (Event σ δ)) (hk : e.kind.Shared)
    (hevents : ∀ event ∈ events, e.kind = .file ∨ ¬event.SetsFlags) :
    OneDescription D nums (Two.copy D w e fdFlags) events := by
  have hstart : Follows e.kind (Two.copy D w e fdFlags) (Two.copy D w e fdFlags) :=
    ⟨rfl, .refl rfl, copyEntry_twin hk w rfl fdFlags⟩
  have hrun := hstart.run (D := D) hk nums events hevents
  unfold OneDescription
  dsimp only
  rw [hrun.world]
  exact ⟨hrun.first.view hk _, hrun.second.view hk _⟩

end

/-- `waitNode` says that a process that has to sleep finds a node of the wait queue. -/
structure Channels where
  pipes : Nat → Ipc.Pipe
  ptys : Nat → Ipc.Pty
  waitNode : Bool

/-- No answer means that the call sleeps. -/
inductive ChannelReply
  | read (answer : Option (Except Ipc.Errno (List UInt8)))
  | line (bytes : List UInt8)
  | wrote (answer : Option (Except Ipc.Errno Nat))
  | typed (answer : Option (Except Ipc.PtyErrno Nat)) (notices : List Ipc.Notice)
  | none

/-- The turns of a call behind the checks of the entry, which are those of a pipe for a PTY too. -/
def channelCall (kind : Kind) (object : Nat) (e : Ipc.Handle) (op : Op Unit) (s : Channels) :
    ChannelReply × Channels :=
  let p := s.pipes object
  let t := s.ptys object
  let toPty := fun t => { s with ptys := update s.ptys object t }
  match op with
  | .read len =>
    match Ipc.readChecks e true len, kind with
    | some answer, _ => (.read (some answer), s)
    | none, .pipe =>
      let (p, answer) := Ipc.readTurn p e.nonblock len s.waitNode
      (.read answer, { s with pipes := update s.pipes object p })
    | none, .ptyMaster =>
      let (ring, answer) := Ipc.readTurn t.output.ring e.nonblock len s.waitNode
      (.read answer, toPty { t with output := { t.output with ring := ring } })
    | none, .ptySlave =>
      let (t, bytes) := Ipc.Pty.read true e.nonblock s.waitNode len t
      (.line bytes, toPty t)
    | none, _ => (.none, s)
  | .write data =>
    match Ipc.writeChecks e (some data), kind with
    | some answer, _ => (.wrote (some answer), s)
    | none, .pipe =>
      let (p, _, answer) := Ipc.writeTurn e.nonblock s.waitNode data data.length p 0
      (.wrote answer, { s with pipes := update s.pipes object p })
    | none, .ptyMaster =>
      let (t, answer, notices) := t.write e.nonblock s.waitNode data
      (.typed answer notices, toPty t)
    | none, .ptySlave =>
      if t.termios.opost && t.termios.onlcr then
        let (out, _, _, answer) := Ipc.ptyBufferWriteOutput e.nonblock s.waitNode data 0 0 t.output
        (.typed answer [], toPty { t with output := out })
      else
        let (ring, _, answer) :=
          Ipc.ptyBufferWrite e.nonblock s.waitNode data data.length t.output.ring 0
        (.typed answer [], toPty { t with output := { t.output with ring := ring } })
    | none, _ => (.none, s)
  | _ => (.none, s)

/-- What the master reads the slave writes, and the other way round. -/
def ptyRef (t : Ipc.Pty) (master : Bool) : Ipc.Pty := { t with
  input := t.input.ref ⟨true, !master, master, false⟩
  output := { t.output with ring := t.output.ring.ref ⟨true, master, !master, false⟩ } }

/-- Nothing is said of sockets and the console. -/
def channels : Streams Channels Unit ChannelReply where
  call kind object e := channelCall kind object e.handle
  retain kind object e s := match kind with
    | .pipe => { s with pipes := update s.pipes object ((s.pipes object).ref e.handle) }
    | .ptyMaster => { s with ptys := update s.ptys object (ptyRef (s.ptys object) true) }
    | .ptySlave => { s with ptys := update s.ptys object (ptyRef (s.ptys object) false) }
    | _ => s
  random _ s := ([], s)
  reads h kind object op s := by rw [h]

def oneObject : World Channels where
  files := Vfs.openState "/f".toUTF8.toList
  streams := ⟨fun _ => Ipc.newPipe, fun _ => Ipc.newPty, true⟩
  virtuals _ := some ⟨1, .regular, some [104, 105]⟩
  watches _ := [some ⟨5, 1, 0⟩]
  waits _ := ⟨2, 0⟩
  pmm := ⟨Bytes.zeros, fun _ => 0, 0, 0, 0, 0, 0, true⟩
  ticks := 9

def sampleEntry (k : Kind) : Entry := { Entry.zero with
  valid := true, kind := k, readable := true, auxFrame := 1, timerDeadline := 5, size := 2 }

def firstReads (k : Kind) : List (Event Channels Unit) :=
  if k = .timerfd ∨ k = .virtual then [.call false (.read 8)] else []

def Drifts (k : Kind) : Prop :=
  ¬OneDescription channels (3, 4) (Two.copy channels oneObject (sampleEntry k) 0) (firstReads k)

/-- A timer that has run out for one of the copies is still to run out for the other, the
position of the other in a virtual file stays, and a copy has no watches and no signals. -/
theorem copies_drift_apart :
    Drifts .epoll ∧ Drifts .timerfd ∧ Drifts .signalfd ∧ Drifts .virtual := by
  refine ⟨?_, ?_, ?_, ?_⟩
  · rintro ⟨-, hsecond⟩
    exact absurd (View.epoll.inj hsecond) (by decide)
  · rintro ⟨-, hsecond⟩
    exact absurd (View.timer.inj hsecond).1 (by decide)
  · rintro ⟨-, hsecond⟩
    exact absurd (View.signals.inj hsecond) (by decide)
  · rintro ⟨-, hsecond⟩
    exact absurd (View.virtual.inj hsecond).2.2 (by decide)

theorem copies_are_one_description_file : Kind.file.Shared ∧ OneDescription channels (3, 4)
      (Two.copy channels oneObject { sampleEntry .file with auxFrame := 3 } 0)
      [.call false (.read 4), .call true (.setFlags flagNonblock), .call true (.read 4)] :=
  ⟨trivial, copies_are_one_description channels oneObject _ 0 (3, 4) _ trivial
    fun _ _ => .inl rfl⟩

end SmallOS.Fd
