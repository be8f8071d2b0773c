import SmallOS.Proc.Signal

/-! Handlers that are interrupted by faults themselves. The index of a word in a trap frame depends
on whether the processor pushed an error code. Every frame that is left alone gives back the context
it was made from, in whatever order the handlers return. -/

namespace SmallOS.Signal

open Bytes List Option

variable {b c : Buf} {code err faultAddr signal vector : Nat} {frame : Nat → Nat}

def eipIdx (hasErr : Bool) : Nat := if hasErr then 13 else 12

def trapContext (hasErr : Bool) (frame : Nat → Nat) : Context where
  general := frame
  eip := frame (eipIdx hasErr)
  cs := frame (eipIdx hasErr + 1)
  eflags := frame (eipIdx hasErr + 2)
  userEsp := frame (eipIdx hasErr + 3)
  ss := frame (eipIdx hasErr + 4)

def faultSignal (t : Task) (hasErr : Bool) (frame : Nat → Nat)
    (vector err signal code faultAddr : Nat) : Option (Task × (Nat → Nat)) :=
  (processUserFaultSignal { t with context := trapContext hasErr frame } vector err signal code
    faultAddr).map fun t' => (t', Function.update (Function.update frame (eipIdx hasErr)
      t'.context.eip) (eipIdx hasErr + 3) t'.context.userEsp)

def sigreturnWords (t : Task) (frame : Nat → Nat) (userFrame : Nat) :
    Except Errno (Task × (Nat → Nat)) :=
  (sysSigreturnImpl t userFrame).map fun t' => (t', fun i =>
    if i < 12 then t'.context.general i
    else if i = 12 then t'.context.eip
    else if i = 13 then t'.context.cs
    else if i = 14 then t'.context.eflags
    else if i = 15 then t'.context.userEsp
    else if i = 16 then t'.context.ss
    else frame i)

def frameBytes : Nat := 4 * frameWords

structure Live where
  addr : Nat
  context : Context
  mask : Nat

structure Nest where
  task : Task
  live : List Live

def Nest.Spares (n : Nest) (t' : Task) : Prop :=
  ∀ f ∈ n.live, ∀ i, f.addr ≤ i → i < f.addr + frameBytes → t'.mem.bytes i = n.task.mem.bytes i

/-- A handler runs below its frame, from which its return has taken one word, or on a stack with
room for another frame above it. -/
def Nest.Below (n : Nest) (esp : Nat) : Prop :=
  ∀ f ∈ n.live, esp ≤ f.addr + 4 ∨ f.addr + frameBytes ≤ frameAddr esp

def Live.Apart (f g : Live) : Prop :=
  f.addr + frameBytes ≤ g.addr ∨ g.addr + frameBytes ≤ f.addr

inductive Nest.Step : Nest → Nest → Prop
  | user {n : Nest} {t' : Task} (spares : n.Spares t') : Step n { n with task := t' }
  | fault {n : Nest} {t' : Task} {hasErr : Bool} {frame frame' : Nat → Nat}
      {vector err signal code faultAddr : Nat} (words : ∀ i, frame i < 4294967296)
      (mask : n.task.signalMask < 4294967296) (below : n.Below (trapContext hasErr frame).userEsp)
      (run : faultSignal n.task hasErr frame vector err signal code faultAddr =
        some (t', frame')) :
      Step n ⟨t', ⟨(trapContext hasErr frame').userEsp, trapContext hasErr frame,
        n.task.signalMask⟩ :: n.live⟩
  | ret {n : Nest} {t' : Task} {frame frame' : Nat → Nat} {inner outer : List Live} {f : Live}
      (split : n.live = inner ++ f :: outer)
      (run : sigreturnWords n.task frame f.addr = .ok (t', frame')) : Step n ⟨t', outer⟩

inductive Nest.Run : Nest → Nest → Prop
  | done (n : Nest) : Run n n
  | step {n m k : Nest} (rest : Run n m) (last : m.Step k) : Run n k

structure Live.Holds (f : Live) (b : Buf) : Prop where
  addr : f.addr ≠ 0
  context : (loadFrame b f.addr).context.Agrees f.context
  mask : (loadFrame b f.addr).ucSigmask = f.mask

/-- The frames lie apart, each below what it interrupted. -/
structure Nest.Sound (n : Nest) : Prop where
  holds : ∀ f ∈ n.live, f.Holds n.task.mem.bytes
  below : ∀ f ∈ n.live, f.addr + frameBytes ≤ f.context.userEsp
  apart : n.live.Pairwise Live.Apart
  aligned : ∀ f ∈ n.live, f.addr % 16 = 0

section

variable {n m k : Nest} {t t' : Task} {f : Live}

theorem loadFrame_congr {addr : Nat} (same : ∀ i, addr ≤ i → i < addr + frameBytes → c i = b i) :
    (loadFrame c addr).ucSigmask = (loadFrame b addr).ucSigmask ∧
      ∀ i, i < 19 → (loadFrame c addr).gregs i = (loadFrame b addr).gregs i := by
  have word : ∀ i, i < frameWords → readU32 c (addr + 4 * i) = readU32 b (addr + 4 * i) := by
    intro i hi
    refine readU32_congr fun j low high => same j (by omega) ?_
    unfold frameBytes
    omega
  exact ⟨word 10 (by decide), fun i hi => word (i + 11) (by unfold frameWords; omega)⟩

theorem Live.Holds.congr (h : f.Holds b)
    (same : ∀ i, f.addr ≤ i → i < f.addr + frameBytes → c i = b i) : f.Holds c := by
  obtain ⟨mask, regs⟩ := loadFrame_congr same
  refine ⟨h.addr, ⟨fun i hi => ?_, ?_, ?_, ?_, ?_, ?_⟩, mask.trans h.mask⟩
  · exact (regs i (by omega)).trans (h.context.general i hi)
  · exact (regs 14 (by decide)).trans h.context.eip
  · exact (regs 15 (by decide)).trans h.context.cs
  · exact (regs 16 (by decide)).trans h.context.eflags
  · exact (regs 17 (by decide)).trans h.context.userEsp
  · exact (regs 18 (by decide)).trans h.context.ss

theorem frameAddr_below {esp : Nat} (word : esp < 4294967296)
    (inside : frameAddr esp < userStackTop) :
    frameAddr esp + frameBytes ≤ esp ∧ frameAddr esp % 16 = 0 := by
  unfold frameAddr userStackTop frameBytes frameWords at *
  omega

theorem processUserFaultSignal_addr
    (run : processUserFaultSignal t vector err signal code faultAddr = some t') :
    frameAddr t.context.userEsp ≠ 0 ∧ frameAddr t.context.userEsp < userStackTop := by
  unfold processUserFaultSignal at run
  simp only at run
  split_ifs at run with signals entry ring buffer
  simp only [not_or, Bool.not_eq_true', Bool.not_eq_false] at buffer
  refine ⟨buffer.1, ?_⟩
  have range := (Bool.and_eq_true_iff.mp buffer.2).1
  exact (of_decide_eq_true range).2.1

theorem trapContext_words (words : ∀ i, frame i < 4294967296) (mask : t.signalMask < 4294967296)
    (hasErr : Bool) : ({ t with context := trapContext hasErr frame } : Task).Words :=
  ⟨fun i _ => words i, words _, words _, words _, words _, words _, mask⟩

theorem faultSignal_some {hasErr : Bool} {frame' : Nat → Nat}
    (run : faultSignal t hasErr frame vector err signal code faultAddr = some (t', frame')) :
    ∃ esp, esp = frameAddr (trapContext hasErr frame).userEsp ∧
      (trapContext hasErr frame').userEsp = esp ∧ esp ≠ 0 ∧ esp < userStackTop ∧
      t' = ({ t with context := trapContext hasErr frame } : Task).deliver vector err signal code
        faultAddr := by
  obtain ⟨t1, run1, pair⟩ := map_eq_some_iff.mp run
  obtain ⟨rfl, rfl⟩ := Prod.mk.inj pair
  obtain ⟨nonzero, inside⟩ := processUserFaultSignal_addr run1
  obtain rfl := processUserFaultSignal_some run1
  exact ⟨_, rfl, Function.update_self .., nonzero, inside, rfl⟩

theorem Nest.Step.sound (step : n.Step m) (h : n.Sound) : m.Sound := by
  cases step with
  | user spares =>
    exact ⟨fun f hf => (h.holds f hf).congr (spares f hf), h.below, h.apart, h.aligned⟩
  | @fault t' hasErr frame frame' vector err signal code faultAddr words mask below run =>
    obtain ⟨esp, hesp, hframe, nonzero, inside, rfl⟩ := faultSignal_some run
    have word : (trapContext hasErr frame).userEsp < 4294967296 := words _
    obtain ⟨under, aligned⟩ := frameAddr_below word (hesp ▸ inside)
    rw [← hesp] at under aligned
    have made := deliver_frame (trapContext_words words mask hasErr) vector err signal code
      faultAddr
    have apart : ∀ g ∈ n.live, esp + frameBytes ≤ g.addr ∨ g.addr + frameBytes ≤ esp := by
      intro g hg
      have align := h.aligned g hg
      obtain limit | above := below g hg
      · refine .inl ?_
        unfold frameBytes frameWords at under ⊢
        omega
      · exact .inr (hesp ▸ above)
    rw [hframe]
    refine ⟨?_, ?_, pairwise_cons.mpr ⟨apart, h.apart⟩, ?_⟩
    · intro g hg
      rcases mem_cons.mp hg with rfl | hg
      · subst hesp
        exact ⟨nonzero, made.1, made.2⟩
      · refine (h.holds g hg).congr fun i low high => writeU32s_of_outside ?_
        have := apart g hg
        unfold frameBytes at this high
        change i < frameAddr (trapContext hasErr frame).userEsp ∨
          frameAddr (trapContext hasErr frame).userEsp + 4 * frameWords ≤ i
        omega
    · intro g hg
      rcases mem_cons.mp hg with rfl | hg
      · exact under
      · exact h.below g hg
    · intro g hg
      rcases mem_cons.mp hg with rfl | hg
      · exact aligned
      · exact h.aligned g hg
  | @ret t' frame frame' inner outer f split run =>
    have outside : ∀ g ∈ outer, g ∈ n.live := fun g hg => by
      rw [split]
      exact mem_append_right _ (mem_cons_of_mem _ hg)
    have same : t'.mem = n.task.mem := by
      obtain ⟨t1, run1, pair⟩ : ∃ t1, sysSigreturnImpl n.task f.addr = .ok t1 ∧ t1 = t' := by
        unfold sigreturnWords at run
        cases hret : sysSigreturnImpl n.task f.addr with
        | error e => rw [hret] at run; cases run
        | ok t1 =>
          rw [hret] at run
          exact ⟨t1, rfl, (Prod.mk.inj (Except.ok.inj run)).1⟩
      obtain ⟨_, _, rfl⟩ := sysSigreturnImpl_ok run1
      rw [← pair]
    have tail := (pairwise_append.mp (split ▸ h.apart)).2.1
    refine ⟨fun g hg => ?_, fun g hg => h.below g (outside g hg), (pairwise_cons.mp tail).2,
      fun g hg => h.aligned g (outside g hg)⟩
    rw [same]
    exact h.holds g (outside g hg)

theorem Nest.Run.sound (run : Nest.Run n m) (h : n.Sound) : m.Sound := by
  induction run with
  | done => exact h
  | step _ last ih => exact last.sound ih

/-- What a return to a live frame does: it fails when the frame cannot be read, and otherwise
the context and the mask are those of the fault. -/
def Live.Restores (f : Live) (t : Task) : Prop :=
  ∀ frame, (userBufOk t.mem false f.addr frameBytes = false ∧
      sigreturnWords t frame f.addr = .error .fault) ∨
    ∃ t' frame', sigreturnWords t frame f.addr = .ok (t', frame') ∧
      (trapContext false frame').Agrees f.context ∧ t'.signalMask = f.mask

theorem Live.Holds.restores (h : f.Holds t.mem.bytes) : f.Restores t := by
  intro frame
  cases readable : userBufOk t.mem false f.addr frameBytes with
  | false =>
    refine .inl ⟨rfl, ?_⟩
    unfold sigreturnWords sysSigreturnImpl
    rw [if_neg h.addr, show userBufOk t.mem false f.addr (4 * frameWords) = false from readable]
    rfl
  | true =>
    have run : sigreturnWords t frame f.addr = .ok (_, _) :=
      congrArg (Except.map _) (sysSigreturnImpl_eq h.addr readable)
    refine .inr ⟨_, _, run, ?_, ?_⟩
    · refine ⟨fun i hi => ?_, h.context.eip, h.context.cs, h.context.eflags, h.context.userEsp,
        h.context.ss⟩
      refine (if_pos hi).trans (h.context.general i hi)
    · exact h.mask

end

/-- In every nesting of handlers that stay clear of their frames and leave them alone, each frame
gives back what it was made from, and the frames lie apart and below what they interrupted. -/
theorem nested_frames_restore (t : Task) (n : Nest) (run : Nest.Run ⟨t, []⟩ n) :
    (∀ f ∈ n.live, f.Restores n.task ∧ f.addr + frameBytes ≤ f.context.userEsp) ∧
      n.live.Pairwise Live.Apart := by
  have start : Nest.Sound ⟨t, []⟩ :=
    ⟨fun _ hf => (nomatch hf), fun _ hf => (nomatch hf), List.Pairwise.nil,
      fun _ hf => (nomatch hf)⟩
  have sound := run.sound start
  exact ⟨fun f hf => ⟨(sound.holds f hf).restores, sound.below f hf⟩, sound.apart⟩

def armedTask : Task := { freshTask zeros with actions := fun _ => ⟨0x500000, 0, 0x500100, 0, 0⟩ }

def trapWords (esp : Nat) : Nat → Nat := fun i => if i = 13 then 0x1B else if i = 15 then esp else 0

def armedTrap (t : Task) (esp : Nat) : Option (Task × (Nat → Nat)) :=
  faultSignal t false (trapWords esp) 14 0 11 0 0

theorem armedTrap_twice (esp : Nat)
    (runs : ((armedTrap armedTask 0xBFFFFF00).bind fun r => armedTrap r.1 esp).isSome = true) :
    ∃ t' frame' t'' frame'', armedTrap armedTask 0xBFFFFF00 = some (t', frame') ∧
      armedTrap t' esp = some (t'', frame'') ∧ (trapContext false frame').userEsp = 0xBFFFFE80 ∧
      (trapContext false frame'').userEsp = frameAddr esp ∧ t'.signalMask < 4294967296 := by
  obtain ⟨⟨t'', frame''⟩, both⟩ := isSome_iff_exists.mp runs
  obtain ⟨⟨t', frame'⟩, first, second⟩ := bind_eq_some_iff.mp both
  obtain ⟨_, rfl, hframe, -, -, rfl⟩ := faultSignal_some first
  obtain ⟨_, rfl, hframe', -, -, -⟩ := faultSignal_some second
  exact ⟨_, frame', t'', frame'', first, second, hframe.trans (by decide), hframe', by decide⟩

theorem nested_frames_restore_two : ∃ n, n.live.length = 2 ∧ Nest.Run ⟨armedTask, []⟩ n ∧
    (∀ f ∈ n.live, f.Restores n.task ∧ f.addr + frameBytes ≤ f.context.userEsp) ∧
      n.live.Pairwise Live.Apart := by
  obtain ⟨t', frame', t'', frame'', first, second, place, -, mask⟩ :=
    armedTrap_twice 0xBFFFFE00 (by decide)
  have words : ∀ esp, esp < 4294967296 → ∀ i, trapWords esp i < 4294967296 := by
    intro esp hesp i
    unfold trapWords
    split_ifs <;> omega
  have inside : Nest.Below ⟨t', [⟨(trapContext false frame').userEsp,
      trapContext false (trapWords 0xBFFFFF00), armedTask.signalMask⟩]⟩
      (trapContext false (trapWords 0xBFFFFE00)).userEsp := by
    intro f hf
    rw [mem_singleton.mp hf]
    rw [place]
    exact .inl (by decide)
  have run := ((Nest.Run.done ⟨armedTask, []⟩).step (.fault (words _ (by decide)) (by decide)
    (fun _ hf => (nomatch hf)) first)).step (.fault (words _ (by decide)) mask inside second)
  exact ⟨_, rfl, run, nested_frames_restore armedTask _ run⟩

/-- A handler that moves its stack pointer up into its frame and faults there gets a second frame
over the first. -/
theorem raised_stack_overlaps : ∃ t' frame' t'' frame'',
    armedTrap armedTask 0xBFFFFF00 = some (t', frame') ∧
    armedTrap t' ((trapContext false frame').userEsp + 60) = some (t'', frame'') ∧
    (trapContext false frame').userEsp < (trapContext false frame'').userEsp + frameBytes ∧
    (trapContext false frame'').userEsp < (trapContext false frame').userEsp := by
  obtain ⟨t', frame', t'', frame'', first, second, place, place', -⟩ :=
    armedTrap_twice (0xBFFFFE80 + 60) (by decide)
  refine ⟨t', frame', t'', frame'', first, ?_, ?_, ?_⟩
  · rw [place]
    exact second
  · rw [place, place']
    decide
  · rw [place, place']
    decide

end SmallOS.Signal
