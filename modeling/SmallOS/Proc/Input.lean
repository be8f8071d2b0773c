import SmallOS.Lib.Serial

/-! Waiting for input events. Three system calls park a process until an event is pushed, or until
a tick. The queue remembers one of the parked processes, and it is the one that an event wakes. -/

namespace SmallOS.Input
open Serial Function

def queueSize : Nat := 256

/-- What a process is waiting in. A deadline of zero means none in `fdWaitUntil`. -/
inductive Wait
  | read (max : Nat) (nonblock : Bool)
  | waitUntil (deadline : UInt32)
  | fdWaitUntil (deadline : UInt32)
deriving DecidableEq

inductive Standing
  | away
  | inside (w : Wait)
  | blocked (w : Wait)
deriving DecidableEq

def Standing.isBlocked : Standing → Bool
  | .blocked _ => true
  | _ => false

/-- The number of queued events, the process in the slot, and all processes. -/
structure State where
  count : Nat
  waiting : Option Nat
  standing : Nat → Standing

def State.init : State := ⟨0, none, fun _ => .away⟩

def State.rouse (s : State) (p : Nat) : State :=
  match s.standing p with
  | .blocked w => { s with standing := update s.standing p (.inside w) }
  | _ => s

def State.wakeWaiter (s : State) : State :=
  match s.waiting with
  | some p => { s.rouse p with waiting := none }
  | none => s

def State.push (s : State) (motion : Bool) : State :=
  if motion ∧ s.count ≠ 0 then s.wakeWaiter
  else { s with count := (if queueSize ≤ s.count then s.count - 1 else s.count) + 1 : State }.wakeWaiter

def State.forget (s : State) (p : Nat) : State :=
  if s.waiting = some p then { s with waiting := none } else s

def State.leave (s : State) (p : Nat) : State := { s with standing := update s.standing p .away }

def State.park (s : State) (p : Nat) (w : Wait) : State :=
  { s with standing := update s.standing p (.blocked w), waiting := some p }

/-- The calls up to the point where they park or return; `ready` says that a polled descriptor
is. -/
def State.turn (s : State) (p : Nat) (now : UInt32) (ready : Bool) : Wait → State
  | .read max nonblock =>
    if max = 0 then s.leave p
    else if s.count ≠ 0 then { s with count := s.count - max : State }.leave p
    else if nonblock then s.leave p
    else s.park p (.read max nonblock)
  | .waitUntil deadline =>
    if s.count ≠ 0 ∨ reached now deadline then s.leave p else s.park p (.waitUntil deadline)
  | .fdWaitUntil deadline =>
    if s.count ≠ 0 ∨ ready ∨ (deadline ≠ 0 ∧ reached now deadline) then (s.forget p).leave p
    else s.park p (.fdWaitUntil deadline)

def State.resume (s : State) (p : Nat) (now : UInt32) (ready : Bool) : Wait → State
  | .read max nonblock => s.turn p now ready (.read max nonblock)
  | .waitUntil _ => (s.forget p).leave p
  | .fdWaitUntil deadline => (s.forget p).turn p now ready (.fdWaitUntil deadline)

/-- A process makes one of the calls, an event is pushed, a process is woken by its deadline or
by something else, goes on, or exits. -/
inductive Act
  | call (p : Nat) (w : Wait) (now : UInt32) (ready : Bool)
  | push (motion : Bool)
  | wake (p : Nat)
  | resume (p : Nat) (now : UInt32) (ready : Bool)
  | exit (p : Nat)

def State.step (s : State) : Act → State
  | .call p w now ready => if s.standing p = .away then s.turn p now ready w else s
  | .push motion => s.push motion
  | .wake p => s.rouse p
  | .resume p now ready =>
    match s.standing p with
    | .inside w => s.resume p now ready w
    | _ => s
  | .exit p => (s.forget p).leave p

/-- A process that the step parks is the only one. -/
def State.Alone (s : State) (a : Act) : Prop :=
  ∀ p, (s.standing p).isBlocked = false → ((s.step a).standing p).isBlocked = true →
    ∀ q, q ≠ p → (s.standing q).isBlocked = false

inductive Run : State → Prop
  | init : Run .init
  | step {s : State} {a : Act} : Run s → s.Alone a → Run (s.step a)

variable {s : State} {p : Nat}

/-- A process that is parked is in the slot, and the queue is empty. -/
def Inv (s : State) : Prop :=
  ∀ q, (s.standing q).isBlocked = true → s.waiting = some q ∧ s.count = 0

theorem Inv.leave (h : Inv s) (n : Nat) : Inv ({ s with count := s.count - n : State }.leave p) := by
  intro q blocked
  by_cases same : q = p
  · simp [State.leave, same, Standing.isBlocked] at blocked
  · simp only [State.leave, update_of_ne same] at blocked ⊢
    obtain ⟨slot, empty⟩ := h q blocked
    exact ⟨slot, by omega⟩

theorem Inv.forget (h : Inv s) (runs : (s.standing p).isBlocked = false) : Inv (s.forget p) := by
  intro q blocked
  have standing : (s.forget p).standing = s.standing := by
    unfold State.forget
    split_ifs <;> rfl
  rw [standing] at blocked
  obtain ⟨slot, empty⟩ := h q blocked
  have other : s.waiting ≠ some p := by
    rintro here
    obtain rfl := Option.some.inj (slot.symm.trans here)
    simp [runs] at blocked
  simp only [State.forget, other, if_false]
  exact ⟨slot, empty⟩

theorem Inv.gone (h : Inv s) : Inv ((s.forget p).leave p) := by
  have swap : (s.forget p).leave p = (s.leave p).forget p := by
    unfold State.forget State.leave
    split_ifs <;> rfl
  rw [swap]
  exact Inv.forget (h.leave 0) (by simp [State.leave, Standing.isBlocked])

theorem Inv.park (empty : s.count = 0) (alone : ∀ q, q ≠ p → (s.standing q).isBlocked = false)
    (w : Wait) : Inv (s.park p w) := by
  intro q blocked
  by_cases same : q = p
  · exact ⟨same ▸ rfl, empty⟩
  · simp [State.park, update_of_ne same, alone q same] at blocked

theorem Inv.turn (h : Inv s) {now : UInt32} {ready : Bool} {w : Wait}
    (alone : ((s.turn p now ready w).standing p).isBlocked = true →
      ∀ q, q ≠ p → (s.standing q).isBlocked = false) : Inv (s.turn p now ready w) := by
  have parks (w : Wait) : ((s.park p w).standing p).isBlocked = true := by
    simp [State.park, Standing.isBlocked]
  cases w with
  | read max nonblock =>
    rw [State.turn] at alone ⊢
    split_ifs at alone ⊢ with none some polls
    · exact h.leave 0
    · exact h.leave max
    · exact h.leave 0
    · exact .park (not_not.mp some) (alone (parks _)) _
  | waitUntil deadline =>
    rw [State.turn] at alone ⊢
    split_ifs at alone ⊢ with done
    · exact h.leave 0
    · exact .park (not_not.mp (not_or.mp done).1) (alone (parks _)) _
  | fdWaitUntil deadline =>
    rw [State.turn] at alone ⊢
    split_ifs at alone ⊢ with done
    · exact h.gone
    · exact .park (not_not.mp (not_or.mp done).1) (alone (parks _)) _

theorem Inv.resume (h : Inv s) {now : UInt32} {ready : Bool} {w : Wait}
    (inside : s.standing p = .inside w) (alone : ((s.resume p now ready w).standing p).isBlocked =
      true → ∀ q, q ≠ p → (s.standing q).isBlocked = false) : Inv (s.resume p now ready w) := by
  have runs : (s.standing p).isBlocked = false := by rw [inside]; rfl
  have same : (s.forget p).standing = s.standing := by
    unfold State.forget
    split_ifs <;> rfl
  cases w with
  | read max nonblock => exact h.turn alone
  | waitUntil deadline => exact h.gone
  | fdWaitUntil deadline =>
    refine (h.forget runs).turn ?_
    rw [same]
    exact alone

theorem rouse_blocked {q : Nat} (blocked : ((s.rouse p).standing q).isBlocked = true) :
    q ≠ p ∧ (s.standing q).isBlocked = true := by
  unfold State.rouse at blocked
  by_cases same : q = p
  · subst same
    cases here : s.standing q <;> simp [here, Standing.isBlocked] at blocked
  · refine ⟨same, ?_⟩
    split at blocked
    · simpa only [update_of_ne same] using blocked
    · exact blocked

theorem Inv.rouse (h : Inv s) : Inv (s.rouse p) := by
  intro q blocked
  have same : (s.rouse p).waiting = s.waiting ∧ (s.rouse p).count = s.count := by
    unfold State.rouse
    split <;> exact ⟨rfl, rfl⟩
  rw [same.1, same.2]
  exact h q (rouse_blocked blocked).2

theorem wakeWaiter_none (h : ∀ q, (s.standing q).isBlocked = true → s.waiting = some q) (q : Nat) :
    (s.wakeWaiter.standing q).isBlocked = false := by
  by_contra blocked
  rw [Bool.not_eq_false] at blocked
  unfold State.wakeWaiter at blocked
  split at blocked
  · next p slot =>
    obtain ⟨other, before⟩ := rouse_blocked blocked
    exact other (Option.some.inj ((h q before).symm.trans slot))
  · next none => cases (h q blocked).symm.trans none

theorem Inv.push (h : Inv s) (motion : Bool) (q : Nat) :
    ((s.push motion).standing q).isBlocked = false := by
  have slot : ∀ q, (s.standing q).isBlocked = true → s.waiting = some q :=
    fun q blocked => (h q blocked).1
  unfold State.push
  split_ifs <;> exact wakeWaiter_none (by exact slot) q

theorem Inv.step (h : Inv s) {a : Act} (alone : s.Alone a) : Inv (s.step a) := by
  cases a with
  | call p w now ready =>
    have alone := alone p
    rw [State.step] at alone ⊢
    split_ifs at alone ⊢ with away
    · exact h.turn (alone (by rw [away]; rfl))
    · exact h
  | push motion =>
    intro q blocked
    exact absurd blocked (by simp [State.step, h.push motion q])
  | wake p => exact h.rouse
  | resume p now ready =>
    have alone := alone p
    rw [State.step] at alone ⊢
    split at alone
    · next w inside =>
      rw [inside] at alone
      exact h.resume inside (alone rfl)
    · exact h
  | exit p => exact h.gone

theorem Run.inv (run : Run s) : Inv s := by
  induction run with
  | init => exact fun q blocked => nomatch blocked
  | step _ alone ih => exact ih.step alone

end SmallOS.Input
