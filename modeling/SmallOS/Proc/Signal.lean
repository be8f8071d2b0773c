import SmallOS.Lib.Bytes

/-! Signal delivery and return. A fault in user mode stores the interrupted context in a frame on
the user stack and enters the handler; `sigreturn` loads a context from an address the program
chooses. -/

namespace SmallOS.Signal

open Bytes Nat

variable {code err faultAddr vector : Nat}

def userCodeBase : Nat := 0x400000
def userStackTop : Nat := 0xC0000000

/-- `access page write` is the answer of `user_page_access_ok`. -/
structure UserMem where
  bytes : Buf
  access : Nat → Bool → Bool

def pageOf (addr : Nat) : Nat := addr / 4096 * 4096

def userBufOk (m : UserMem) (write : Bool) (ptr len : Nat) : Bool :=
  decide (userCodeBase ≤ ptr ∧ ptr < userStackTop ∧ len ≠ 0 ∧ len ≤ userStackTop - ptr) &&
    (List.range ((ptr + len - 1) / 4096 + 1 - ptr / 4096)).all fun i =>
      m.access (pageOf ptr + 4096 * i) write

structure Action where
  handler : Nat
  sigaction : Nat
  restorer : Nat
  mask : Nat
  flags : Nat

/-- The words a trap saves: the twelve registers the stub pushes, in the order of
`SYS_REG_GS` to `SYS_REG_EAX`, and the words the processor pushes. -/
structure Context where
  general : Nat → Nat
  eip : Nat
  cs : Nat
  eflags : Nat
  userEsp : Nat
  ss : Nat

structure Frame where
  retaddr : Nat
  signum : Nat
  siginfo : Nat
  ucontext : Nat
  siSigno : Nat
  siErrno : Nat
  siCode : Nat
  siAddr : Nat
  ucFlags : Nat
  ucLink : Nat
  ucSigmask : Nat
  gregs : Nat → Nat

def frameWords : Nat := 11 + 19

def Frame.word (f : Frame) : Nat → Nat
  | 0 => f.retaddr
  | 1 => f.signum
  | 2 => f.siginfo
  | 3 => f.ucontext
  | 4 => f.siSigno
  | 5 => f.siErrno
  | 6 => f.siCode
  | 7 => f.siAddr
  | 8 => f.ucFlags
  | 9 => f.ucLink
  | 10 => f.ucSigmask
  | i + 11 => f.gregs i

def Frame.ofWords (w : Nat → Nat) : Frame :=
  ⟨w 0, w 1, w 2, w 3, w 4, w 5, w 6, w 7, w 8, w 9, w 10, fun i => w (i + 11)⟩

def storeFrame (b : Buf) (addr : Nat) (f : Frame) : Buf := writeU32s b addr f.word frameWords

def loadFrame (b : Buf) (addr : Nat) : Frame := .ofWords fun i => readU32 b (addr + 4 * i)

structure Task where
  signalMask : Nat
  actions : Nat → Action
  context : Context
  mem : UserMem

inductive Errno
  | invalid
  | fault
  deriving DecidableEq, Repr

def sigKill : Nat := 9
def sigStop : Nat := 19
def unmaskable : Nat := 2 ^ sigKill ||| 2 ^ sigStop

def clearUnmaskable (mask : Nat) : Nat := mask &&& (0xFFFFFFFF ^^^ unmaskable)

inductive How
  | block
  | unblock
  | setMask

def sysSigprocmaskImpl (t : Task) (how : How) (set : Nat) : Task :=
  let input := clearUnmaskable set
  let next := match how with
    | .block => t.signalMask ||| input
    | .unblock => t.signalMask &&& (0xFFFFFFFF ^^^ input)
    | .setMask => input
  { t with signalMask := clearUnmaskable next }

def sysSigactionImpl (t : Task) (signum : Nat) (act : Action) : Except Errno Task :=
  if signum = 0 ∨ 32 ≤ signum then .error .invalid
  else .ok { t with actions := Function.update t.actions signum act }

def Frame.context (f : Frame) : Context where
  general i := f.gregs i
  eip := f.gregs 14
  cs := f.gregs 15
  eflags := f.gregs 16
  userEsp := f.gregs 17
  ss := f.gregs 18

def sysSigreturnImpl (t : Task) (userFrame : Nat) : Except Errno Task :=
  if userFrame = 0 then .error .invalid
  else if !userBufOk t.mem false userFrame (4 * frameWords) then .error .fault
  else
    let frame := loadFrame t.mem.bytes userFrame
    .ok { t with signalMask := frame.ucSigmask, context := frame.context }

def frameAddr (userEsp : Nat) : Nat :=
  (userEsp + 4294967296 - 4 * frameWords) % 4294967296 / 16 * 16

def makeFrame (t : Task) (action : Action) (vector err signal code faultAddr : Nat) : Frame where
  retaddr := action.restorer
  signum := signal
  siginfo := frameAddr t.context.userEsp + 16
  ucontext := frameAddr t.context.userEsp + 32
  siSigno := signal
  siErrno := 0
  siCode := code
  siAddr := faultAddr
  ucFlags := 0
  ucLink := 0
  ucSigmask := t.signalMask
  gregs i :=
    if i < 12 then t.context.general i
    else if i = 12 then vector
    else if i = 13 then err
    else if i = 14 then t.context.eip
    else if i = 15 then t.context.cs
    else if i = 16 then t.context.eflags
    else if i = 17 then t.context.userEsp
    else t.context.ss

def Action.entry (action : Action) : Nat :=
  if action.flags &&& 4 ≠ 0 then action.sigaction else action.handler

def Task.deliver (t : Task) (vector err signal code faultAddr : Nat) : Task :=
  let action := t.actions signal
  let addr := frameAddr t.context.userEsp
  { t with
    signalMask := t.signalMask ||| action.mask ||| 2 ^ signal
    context := { t.context with eip := action.entry, userEsp := addr }
    mem := { t.mem with
      bytes := storeFrame t.mem.bytes addr (makeFrame t action vector err signal code faultAddr) } }

def processUserFaultSignal (t : Task) (vector err signal code faultAddr : Nat) : Option Task :=
  let action := t.actions signal
  let addr := frameAddr t.context.userEsp
  if signal = 0 ∨ 32 ≤ signal then none
  else if action.entry = 0 ∨ action.entry = 1 ∨ action.restorer = 0 then none
  else if t.context.cs &&& 3 ≠ 3 then none
  else if addr = 0 ∨ !userBufOk t.mem true addr (4 * frameWords) then none
  else some (t.deliver vector err signal code faultAddr)

structure Context.Unprivileged (c : Context) : Prop where
  cs : c.cs &&& 3 = 3
  ss : c.ss &&& 3 = 3
  interrupts : c.eflags &&& 0x200 ≠ 0
  iopl : c.eflags &&& 0x3000 = 0

structure MaskOk (mask : Nat) : Prop where
  kill : mask.testBit sigKill = false
  stop : mask.testBit sigStop = false

structure Task.Unprivileged (t : Task) : Prop where
  context : t.context.Unprivileged
  mask : MaskOk t.signalMask

structure Frame.Unprivileged (f : Frame) : Prop where
  context : f.context.Unprivileged
  mask : MaskOk f.ucSigmask

section

variable {t t' : Task} {addr : Nat}

theorem clearUnmaskable_ok (mask : Nat) : MaskOk (clearUnmaskable mask) := by
  constructor <;>
    · simp only [clearUnmaskable, testBit_and, Bool.and_eq_false_iff]
      exact .inr (by decide)

theorem MaskOk.or {m n : Nat} (hm : MaskOk m) (hn : MaskOk n) : MaskOk (m ||| n) :=
  ⟨by rw [testBit_or, hm.kill, hn.kill, Bool.or_self],
    by rw [testBit_or, hm.stop, hn.stop, Bool.or_self]⟩

theorem MaskOk.signal {signal : Nat} (hk : signal ≠ sigKill) (hs : signal ≠ sigStop) :
    MaskOk (2 ^ signal) :=
  ⟨by rw [testBit_two_pow, decide_eq_false hk], by rw [testBit_two_pow, decide_eq_false hs]⟩

theorem sysSigreturnImpl_ok (h : sysSigreturnImpl t addr = .ok t') :
    addr ≠ 0 ∧ userBufOk t.mem false addr (4 * frameWords) = true ∧ t' = { t with
        signalMask := (loadFrame t.mem.bytes addr).ucSigmask
        context := (loadFrame t.mem.bytes addr).context } := by
  unfold sysSigreturnImpl at h
  split_ifs at h with h0 hbuf
  exact ⟨h0, by simpa using hbuf, (Except.ok.inj h).symm⟩

theorem sysSigreturnImpl_eq (h0 : addr ≠ 0)
    (hbuf : userBufOk t.mem false addr (4 * frameWords) = true) :
    sysSigreturnImpl t addr = .ok { t with
      signalMask := (loadFrame t.mem.bytes addr).ucSigmask
      context := (loadFrame t.mem.bytes addr).context } := by
  unfold sysSigreturnImpl
  rw [if_neg h0, hbuf]
  rfl

theorem sysSigreturnImpl_unprivileged (h : sysSigreturnImpl t addr = .ok t') :
    t'.Unprivileged ↔ (loadFrame t.mem.bytes addr).Unprivileged := by
  obtain ⟨_, _, rfl⟩ := sysSigreturnImpl_ok h
  exact ⟨fun h => ⟨h.context, h.mask⟩, fun h => ⟨h.context, h.mask⟩⟩

structure Task.Words (t : Task) : Prop where
  general : ∀ i, i < 12 → t.context.general i < 4294967296
  eip : t.context.eip < 4294967296
  cs : t.context.cs < 4294967296
  eflags : t.context.eflags < 4294967296
  userEsp : t.context.userEsp < 4294967296
  ss : t.context.ss < 4294967296
  mask : t.signalMask < 4294967296

theorem loadFrame_storeFrame (b : Buf) (addr : Nat) (f : Frame) :
    (loadFrame (storeFrame b addr f) addr).ucSigmask = f.ucSigmask % 4294967296 ∧
      ∀ i, i < 19 → (loadFrame (storeFrame b addr f) addr).gregs i = f.gregs i % 4294967296 :=
  ⟨readU32_writeU32s (show 10 < frameWords by decide),
    fun i hi => readU32_writeU32s (show i + 11 < frameWords by unfold frameWords; omega)⟩

structure Context.Agrees (c d : Context) : Prop where
  general : ∀ i, i < 12 → c.general i = d.general i
  eip : c.eip = d.eip
  cs : c.cs = d.cs
  eflags : c.eflags = d.eflags
  userEsp : c.userEsp = d.userEsp
  ss : c.ss = d.ss

theorem deliver_frame (hw : t.Words) (vector err signal code faultAddr : Nat) :
    let t' := t.deliver vector err signal code faultAddr
    let frame := loadFrame t'.mem.bytes t'.context.userEsp
    frame.context.Agrees t.context ∧ frame.ucSigmask = t.signalMask := by
  obtain ⟨hmask, hregs⟩ := loadFrame_storeFrame t.mem.bytes (frameAddr t.context.userEsp)
    (makeFrame t (t.actions signal) vector err signal code faultAddr)
  refine ⟨⟨fun i hi => ?_, ?_, ?_, ?_, ?_, ?_⟩, hmask.trans (mod_eq_of_lt hw.mask)⟩
  · refine (hregs i (by omega)).trans ?_
    simp only [makeFrame, hi, if_true]
    exact mod_eq_of_lt (hw.general i hi)
  · exact (hregs 14 (by decide)).trans (mod_eq_of_lt hw.eip)
  · exact (hregs 15 (by decide)).trans (mod_eq_of_lt hw.cs)
  · exact (hregs 16 (by decide)).trans (mod_eq_of_lt hw.eflags)
  · exact (hregs 17 (by decide)).trans (mod_eq_of_lt hw.userEsp)
  · exact (hregs 18 (by decide)).trans (mod_eq_of_lt hw.ss)

theorem processUserFaultSignal_some {signal : Nat}
    (h : processUserFaultSignal t vector err signal code faultAddr = some t') :
    t' = t.deliver vector err signal code faultAddr := by
  unfold processUserFaultSignal at h
  simp only at h
  split_ifs at h
  exact (Option.some.inj h).symm

end

inductive Event
  | user (c : Context) (m : UserMem)
  | sigaction (signum : Nat) (act : Action)
  | sigprocmask (how : How) (set : Nat)
  | fault (vector err signal code faultAddr : Nat)
  | sigreturn (userFrame : Nat)

def faultSignals : List Nat := [4, 5, 7, 8, 11]

/-- The user program may change its memory, its registers and its mappings at will; the
processor keeps an unprivileged program unprivileged. -/
inductive Step : Task → Event → Task → Prop
  | user {t : Task} {c : Context} {m : UserMem}
      (keeps : t.context.Unprivileged → c.Unprivileged) :
      Step t (.user c m) { t with context := c, mem := m }
  | sigaction {t t' : Task} {signum : Nat} {act : Action}
      (h : sysSigactionImpl t signum act = .ok t') : Step t (.sigaction signum act) t'
  | sigprocmask {t : Task} (how : How) (set : Nat) :
      Step t (.sigprocmask how set) (sysSigprocmaskImpl t how set)
  | fault {t t' : Task} {vector err signal code faultAddr : Nat} (hsignal : signal ∈ faultSignals)
      (h : processUserFaultSignal t vector err signal code faultAddr = some t') :
      Step t (.fault vector err signal code faultAddr) t'
  | sigreturn {t t' : Task} {userFrame : Nat} (h : sysSigreturnImpl t userFrame = .ok t') :
      Step t (.sigreturn userFrame) t'

/-- A frame is loaded from a place that holds an unprivileged context, and no handler is
set up to run with `SIGKILL` or `SIGSTOP` blocked. -/
def Event.Safe (t : Task) : Event → Prop
  | .sigaction _ act => MaskOk act.mask
  | .sigreturn userFrame => (loadFrame t.mem.bytes userFrame).Unprivileged
  | _ => True

inductive Run : Task → List Event → Task → Prop
  | done (t : Task) : Run t [] t
  | event {t t₁ t₂ : Task} {e : Event} {es : List Event} (hsafe : e.Safe t) (hstep : Step t e t₁)
      (rest : Run t₁ es t₂) : Run t (e :: es) t₂

structure Task.Sound (t : Task) : Prop extends t.Unprivileged where
  actions : ∀ signum, MaskOk (t.actions signum).mask

section

variable {t t' : Task} {e : Event} {es : List Event}

theorem Step.sound (hstep : Step t e t') (hsafe : e.Safe t) (h : t.Sound) : t'.Sound := by
  cases hstep with
  | user keeps => exact ⟨⟨keeps h.context, h.mask⟩, h.actions⟩
  | sigaction hact =>
    unfold sysSigactionImpl at hact
    split_ifs at hact
    obtain rfl := Except.ok.inj hact
    refine ⟨⟨h.context, h.mask⟩, fun s => ?_⟩
    simp only [Function.update_apply]
    split_ifs
    · exact hsafe
    · exact h.actions s
  | sigprocmask how set => exact ⟨⟨h.context, clearUnmaskable_ok _⟩, h.actions⟩
  | @fault _ vector err signal code faultAddr hsignal hfault =>
    obtain rfl := processUserFaultSignal_some hfault
    have hbit : MaskOk (2 ^ signal) := by
      refine MaskOk.signal ?_ ?_ <;> rintro rfl <;> exact absurd hsignal (by decide)
    have hc := h.context
    exact ⟨⟨⟨hc.cs, hc.ss, hc.interrupts, hc.iopl⟩, (h.mask.or (h.actions signal)).or hbit⟩,
      h.actions⟩
  | sigreturn hret =>
    have hnext := (sysSigreturnImpl_unprivileged hret).mpr hsafe
    obtain ⟨_, _, rfl⟩ := sysSigreturnImpl_ok hret
    exact ⟨hnext, h.actions⟩

theorem Run.sound (hrun : Run t es t') (h : t.Sound) : t'.Sound := by
  induction hrun with
  | done t => exact h
  | event hsafe hstep _ ih => exact ih (hstep.sound hsafe h)

end

/-- A return from a handler leaves the task unprivileged exactly when the frame it loads
is, and a task stays so along every run in which the loaded frames are and no action
blocks `SIGKILL` or `SIGSTOP`. -/
theorem sigreturn_unprivileged (t : Task) : (∀ addr t', sysSigreturnImpl t addr = .ok t' →
      (t'.Unprivileged ↔ (loadFrame t.mem.bytes addr).Unprivileged)) ∧
    ∀ es t', t.Sound → Run t es t' → t'.Unprivileged :=
  ⟨fun _ _ h => sysSigreturnImpl_unprivileged h, fun _ _ h hrun => (hrun.sound h).toUnprivileged⟩

def freshTask (bytes : Buf) : Task where
  signalMask := 0
  actions _ := ⟨0, 0, 0, 0, 0⟩
  context := ⟨fun _ => 0, userCodeBase, 0x1B, 0x202, userStackTop, 0x23⟩
  mem := ⟨bytes, fun _ _ => true⟩

theorem freshTask_sound (bytes : Buf) : (freshTask bytes).Sound where
  context := ⟨show 0x1B &&& 3 = 3 by decide, show 0x23 &&& 3 = 3 by decide,
    show 0x202 &&& 0x200 ≠ 0 by decide, show 0x202 &&& 0x3000 = 0 by decide⟩
  mask := ⟨zero_testBit _, zero_testBit _⟩
  actions _ := ⟨zero_testBit _, zero_testBit _⟩

def frameOf (cs eflags ss mask : Nat) : Frame where
  retaddr := 0
  signum := 11
  siginfo := 0
  ucontext := 0
  siSigno := 11
  siErrno := 0
  siCode := 0
  siAddr := 0
  ucFlags := 0
  ucLink := 0
  ucSigmask := mask
  gregs i := if i = 14 then userCodeBase else if i = 15 then cs else if i = 16 then eflags
    else if i = 17 then userStackTop else if i = 18 then ss else 0

theorem freshTask_access (bytes : Buf) :
    userBufOk (freshTask bytes).mem false userCodeBase (4 * frameWords) = true := by
  simp [userBufOk, freshTask, userCodeBase, userStackTop, frameWords]

/-- An honest frame at the start of the program. -/
theorem sigreturn_unprivileged_honest : ∃ t',
    sysSigreturnImpl (freshTask (storeFrame zeros userCodeBase (frameOf 0x1B 0x202 0x23 0)))
      userCodeBase = .ok t' ∧ t'.Unprivileged := by
  obtain ⟨hmask, hregs⟩ := loadFrame_storeFrame zeros userCodeBase (frameOf 0x1B 0x202 0x23 0)
  have hret := sysSigreturnImpl_eq (by decide)
    (freshTask_access (storeFrame zeros userCodeBase (frameOf 0x1B 0x202 0x23 0)))
  refine ⟨_, hret, ((sigreturn_unprivileged _).1 _ _ hret).mpr ⟨⟨?_, ?_, ?_, ?_⟩, ?_⟩⟩
  · exact (congrArg (· &&& 3) (hregs 15 (by decide))).trans rfl
  · exact (congrArg (· &&& 3) (hregs 18 (by decide))).trans rfl
  · exact ne_of_eq_of_ne (congrArg (· &&& 0x200) (hregs 16 (by decide))) (by decide)
  · exact (congrArg (· &&& 0x3000) (hregs 16 (by decide))).trans rfl
  · change MaskOk (loadFrame (storeFrame zeros userCodeBase _) userCodeBase).ucSigmask
    rw [hmask]
    exact ⟨zero_testBit _, zero_testBit _⟩

/-- A frame with kernel selectors and I/O privilege: the program goes on in ring 0. -/
theorem forged_frame_returns : ¬∀ t addr t', t.Sound → sysSigreturnImpl t addr = .ok t' →
    t'.Unprivileged := by
  intro hall
  have hret := sysSigreturnImpl_eq (by decide)
    (freshTask_access (storeFrame zeros userCodeBase (frameOf 0x08 0x3202 0x10 0xFFFFFFFF)))
  have hcs := (hall _ _ _ (freshTask_sound _) hret).context.cs
  have hload := (loadFrame_storeFrame zeros userCodeBase
    (frameOf 0x08 0x3202 0x10 0xFFFFFFFF)).2 15 (by decide)
  exact absurd ((congrArg (· &&& 3) hload).symm.trans hcs) (by decide)

end SmallOS.Signal
