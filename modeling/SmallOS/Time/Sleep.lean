import SmallOS.Time.Timerfd

/-! Waiting for time to pass: the sleeping calls of the C library, and the timeouts of `poll` and
`epoll_wait` while no descriptor is ready. The library turns a duration into microseconds and ticks;
the kernel looks at every tick. -/

namespace SmallOS.Time
open Serial

variable {k : Nat}

def pollMaxFds : Nat := 256

inductive Call
  | sleep (seconds : UInt32)
  | usleep (usec : UInt32)
  | nanosleep (req : Timespec)
  | poll (nfds : Nat) (timeout : Int)
  | epollWait (timeout : Int)

inductive Standing
  | returned
  | failed
  | sleeping (sleepUntil : UInt32)
  | waiting
deriving DecidableEq

def usecToTicks (usec : UInt32) : UInt32 :=
  let usecPerTick := 1000000 / timerHz
  if usec % usecPerTick ≠ 0 then usec / usecPerTick + 1 else usec / usecPerTick

def nanosleepUsec (req : Timespec) : UInt32 :=
  req.sec * 1000000 + UInt32.ofNat ((req.nsec + 999) / 1000).toNat

def msToTicksRoundUp (ms : UInt32) : UInt32 :=
  ms / 1000 * timerHz + (ms % 1000 * timerHz + 999) / 1000

def pollTimeoutTicks (timeout : Int) : UInt32 :=
  if timeout ≤ 0 then 0 else msToTicksRoundUp (UInt32.ofNat timeout.toNat)

def sysSleep (now ticks : UInt32) : Standing :=
  if ticks = 0 then .returned else .sleeping (now + ticks)

def usleep (now usec : UInt32) : Standing :=
  if usec = 0 then .returned
  else sysSleep now (if usecToTicks usec = 0 then 1 else usecToTicks usec)

def pollTurn (now deadline : UInt32) : Standing :=
  if reached now deadline then .returned else .sleeping deadline

def epollTurn (now deadline : UInt32) : Standing :=
  if reached now deadline then .returned
  else if deadline ≠ 0 then .sleeping deadline
  else .waiting

def Call.start (now : UInt32) : Call → Standing
  | .sleep seconds => if seconds = 0 then .returned else Time.usleep now (seconds * 1000000)
  | .usleep usec => Time.usleep now usec
  | .nanosleep req =>
    if req.nsec < 0 ∨ 1000000000 ≤ req.nsec then .failed else Time.usleep now (nanosleepUsec req)
  | .poll nfds timeout =>
    if nfds = 0 then .returned
    else if pollMaxFds < nfds then .failed
    else if timeout < 0 then .waiting
    else pollTurn now (now + pollTimeoutTicks timeout)
  | .epollWait timeout =>
    if timeout < 0 then .waiting else epollTurn now (now + pollTimeoutTicks timeout)

def Call.resume (now deadline : UInt32) : Call → Standing
  | .poll _ _ => pollTurn now deadline
  | .epollWait _ => epollTurn now deadline
  | _ => .returned

def Call.tick (call : Call) (now : UInt32) : Standing → Standing
  | .sleeping deadline => if reached now deadline then call.resume now deadline
    else .sleeping deadline
  | standing => standing

def Call.after (call : Call) (start : Nat) : Nat → Standing
  | 0 => call.start (UInt32.ofNat start)
  | n + 1 => call.tick (UInt32.ofNat (start + (n + 1))) (call.after start n)

def Call.valid : Call → Prop
  | .nanosleep req => 0 ≤ req.nsec ∧ req.nsec < 1000000000
  | .poll nfds timeout => nfds ≤ pollMaxFds ∧ 0 ≤ timeout ∧ timeout < 2147483648
  | .epollWait timeout => 0 ≤ timeout ∧ timeout < 2147483648
  | _ => True

def Call.due : Call → Nat
  | .sleep seconds => seconds.toNat * 300
  | .usleep usec => (usec.toNat * 3 + 9999) / 10000
  | .nanosleep req => req.ticks
  | .poll _ timeout | .epollWait timeout => (timeout.toNat * 3 + 9) / 10

def NeverEarly (call : Call) (start : Nat) : Prop :=
  ∀ n, call.after start n = .returned → call.due ≤ n

def Fires (call : Call) (start : Nat) : Prop := ∃ n, call.after start n = .returned

def OnTime (call : Call) (start : Nat) : Prop := call.after start call.due = .returned

/-- The duration in microseconds does not wrap, there is a descriptor to poll, and the deadline
of `epoll_wait` is not the tick that means that there is none. -/
def Call.Sound (start : Nat) : Call → Prop
  | .sleep seconds => seconds.toNat * 1000000 < 4294967296
  | .usleep _ => True
  | .nanosleep req => req.sec.toNat * 1000000 + (req.nsec.toNat + 999) / 1000 < 4294967296
  | .poll nfds timeout => nfds ≠ 0 ∨ timeout = 0
  | .epollWait timeout => timeout = 0 ∨ (start + (timeout.toNat * 3 + 9) / 10) % 4294967296 ≠ 0

/-- Rounding to microseconds and to ticks of 3333 of them adds no tick. -/
def Call.Rounds : Call → Prop
  | .sleep seconds => seconds = 0
  | .usleep usec => (usec.toNat + 3332) / 3333 = (usec.toNat * 3 + 9999) / 10000
  | .nanosleep req =>
    (req.sec.toNat * 1000000 + (req.nsec.toNat + 999) / 1000 + 3332) / 3333 = req.ticks
  | _ => True

section
variable {call : Call} {start : Nat}

theorem after_sleeping (pos : 0 < k) (near : k ≤ 2147483648)
    (first : call.after start 0 = .sleeping (UInt32.ofNat (start + k)))
    (last : ∀ now deadline, reached now deadline = true → call.resume now deadline = .returned)
    (n : Nat) : call.after start n =
      if n < k then .sleeping (UInt32.ofNat (start + k)) else .returned := by
  induction n with
  | zero => rw [if_pos pos, first]
  | succ n ih =>
    rw [Call.after, ih]
    by_cases now : n < k
    · have due := reached_iff (m := start + k) (n := start + (n + 1)) (by omega) (by omega)
      simp only [if_pos now, Call.tick]
      by_cases more : n + 1 < k
      · rw [if_pos more, if_neg (by rw [due]; omega)]
      · rw [if_neg more, if_pos (by rw [due]; omega), last _ _ (due.mpr (by omega))]
    · rw [if_neg now, if_neg (by omega)]
      rfl

theorem after_waiting (first : call.after start 0 = .waiting) (n : Nat) :
    call.after start n = .waiting := by
  induction n with
  | zero => exact first
  | succ n ih =>
    rw [Call.after, ih]
    rfl

def Waits (call : Call) (start k : Nat) : Prop := ∀ n, call.after start n = .returned ↔ k ≤ n

theorem waits_zero (first : call.after start 0 = .returned) : Waits call start 0 := by
  intro n
  refine ⟨fun _ => Nat.zero_le n, fun _ => ?_⟩
  induction n with
  | zero => exact first
  | succ n ih =>
    rw [Call.after, ih (Nat.zero_le n)]
    rfl

theorem waits_sleeping (near : k ≤ 2147483648) (first : call.after start 0 =
      if k = 0 then .returned else .sleeping (UInt32.ofNat (start + k))) : Waits call start k := by
  by_cases zero : k = 0
  · rw [if_pos zero] at first
    exact zero ▸ waits_zero first
  · rw [if_neg zero] at first
    intro n
    rw [after_sleeping (by omega) near first fun now deadline due => by
      cases call <;> simp [Call.resume, pollTurn, epollTurn, due]]
    split_ifs with early
    · simp [early]
    · simp [Nat.not_lt.mp early]

theorem Waits.iff (h : Waits call start k) :
    (NeverEarly call start ∧ Fires call start ↔ call.due ≤ k) ∧
      (NeverEarly call start ∧ OnTime call start ↔ k = call.due) := by
  unfold NeverEarly Fires OnTime
  simp only [h _]
  refine ⟨⟨fun early => early.1 k le_rfl, fun le => ⟨fun n hn => le.trans hn, k, le_rfl⟩⟩,
    ⟨fun early => le_antisymm early.2 (early.1 k le_rfl), ?_⟩⟩
  rintro rfl
  exact ⟨fun n hn => hn, le_rfl⟩

end

theorem usecToTicks_toNat (usec : UInt32) : (usecToTicks usec).toNat = (usec.toNat + 3332) / 3333 := by
  have lt := usec.toNat_lt
  have per : (1000000 / timerHz).toNat = 3333 := by decide
  have rest : usec % (1000000 / timerHz) ≠ 0 ↔ usec.toNat % 3333 ≠ 0 := by
    rw [Ne, ← UInt32.toNat_inj, UInt32.toNat_mod, per]
    rfl
  unfold usecToTicks
  simp only [rest]
  split_ifs with more
  · simp only [UInt32.toNat_add, UInt32.toNat_div, per, UInt32.toNat_one]
    omega
  · simp only [UInt32.toNat_div, per]
    omega

theorem usleep_eq (start : Nat) (usec : UInt32) :
    usleep (UInt32.ofNat start) usec = if (usec.toNat + 3332) / 3333 = 0 then .returned
      else .sleeping (UInt32.ofNat (start + (usec.toNat + 3332) / 3333)) := by
  have ticks := usecToTicks_toNat usec
  have eq : usecToTicks usec = UInt32.ofNat ((usec.toNat + 3332) / 3333) := by
    rw [← ticks, UInt32.ofNat_toNat]
  have zero : usec = 0 ↔ (usec.toNat + 3332) / 3333 = 0 := by
    rw [← UInt32.toNat_inj, UInt32.toNat_zero]
    omega
  unfold usleep sysSleep
  simp only [zero]
  split_ifs with none one first
  · rfl
  · simp at first
  · rw [← UInt32.toNat_inj, ticks] at one
    exact absurd one none
  · rw [eq, UInt32.ofNat_add]

theorem pollTimeoutTicks_eq {timeout : Int} (low : 0 ≤ timeout) (high : timeout < 2147483648) :
    pollTimeoutTicks timeout = UInt32.ofNat ((timeout.toNat * 3 + 9) / 10) := by
  have hz : timerHz.toNat = 300 := rfl
  unfold pollTimeoutTicks msToTicksRoundUp
  apply UInt32.toNat_inj.mp
  split_ifs with none
  · rw [show timeout.toNat = 0 by omega]
    rfl
  · have short : timeout.toNat < 2147483648 := by omega
    generalize timeout.toNat = n at short ⊢
    have same : (UInt32.ofNat n).toNat = n := toNat_ofNat_of_lt (by omega)
    have thousand : (1000 : UInt32).toNat = 1000 := rfl
    have last : (999 : UInt32).toNat = 999 := rfl
    have part : (n % 1000 * 300 % 4294967296 + 999) % 4294967296 = n % 1000 * 300 + 999 := by omega
    have whole : n / 1000 * 300 % 4294967296 = n / 1000 * 300 := by omega
    have sum : n / 1000 * 300 + (n % 1000 * 300 + 999) / 1000 = (n * 3 + 9) / 10 := by omega
    rw [toNat_ofNat_of_lt (by omega), UInt32.toNat_add, UInt32.toNat_mul, UInt32.toNat_div,
      UInt32.toNat_div, UInt32.toNat_add, UInt32.toNat_mul, UInt32.toNat_mod, same, hz, thousand,
      last, part, whole, sum]
    exact Nat.mod_eq_of_lt (by omega)

theorem pollTurn_eq (start k : Nat) (near : k ≤ 2147483648) :
    pollTurn (UInt32.ofNat start) (UInt32.ofNat (start + k)) =
      if k = 0 then .returned else .sleeping (UInt32.ofNat (start + k)) := by
  have due := reached_iff (m := start + k) (n := start) (by omega) (by omega)
  unfold pollTurn
  by_cases zero : k = 0
  · rw [if_pos zero, if_pos (due.mpr (by omega))]
  · rw [if_neg zero, if_neg (by rw [due]; omega)]

theorem micros_enough (m : Nat) : (m * 3 + 9999) / 10000 ≤ (m + 3332) / 3333 := by
  omega

theorem wrapped_early {m : Nat} (wraps : 4294967296 ≤ m) :
    (m % 4294967296 + 3332) / 3333 < m * 3 / 10000 := by
  omega

theorem sleep_keeps_time_iff (call : Call) (start : Nat) (valid : call.valid) :
    (NeverEarly call start ∧ Fires call start ↔ call.Sound start) ∧
      (NeverEarly call start ∧ OnTime call start ↔ call.Sound start ∧ call.Rounds) := by
  cases call with
  | sleep seconds =>
    have waits : Waits (.sleep seconds) start (((seconds * 1000000).toNat + 3332) / 3333) := by
      refine waits_sleeping (by have := (seconds * 1000000).toNat_lt; omega) ?_
      rw [← usleep_eq]
      by_cases none : seconds = 0
      · simp [Call.after, Call.start, none, Time.usleep]
      · simp [Call.after, Call.start, none]
    have zero : seconds = 0 ↔ seconds.toNat = 0 := by rw [← UInt32.toNat_inj]; rfl
    rw [waits.iff.1, waits.iff.2, UInt32.toNat_mul]
    simp only [Call.due, Call.Sound, Call.Rounds, UInt32.reduceToNat, Nat.reducePow, zero]
    by_cases wraps : 4294967296 ≤ seconds.toNat * 1000000
    · have early := wrapped_early wraps
      omega
    · rw [Nat.mod_eq_of_lt (by omega)]
      omega
  | usleep usec =>
    have waits : Waits (.usleep usec) start ((usec.toNat + 3332) / 3333) :=
      waits_sleeping (by have := usec.toNat_lt; omega) (usleep_eq start usec)
    rw [waits.iff.1, waits.iff.2]
    simp only [Call.due, Call.Sound, Call.Rounds, micros_enough, true_and, and_self]
  | nanosleep req =>
    obtain ⟨low, high⟩ := valid
    have waits : Waits (.nanosleep req) start (((nanosleepUsec req).toNat + 3332) / 3333) := by
      refine waits_sleeping (by have := (nanosleepUsec req).toNat_lt; omega) ?_
      rw [← usleep_eq, Call.after, Call.start, if_neg (by omega)]
    have usec : ((req.nsec + 999) / 1000).toNat = (req.nsec.toNat + 999) / 1000 := by omega
    rw [waits.iff.1, waits.iff.2, nanosleepUsec, UInt32.toNat_add, UInt32.toNat_mul, usec,
      UInt32.toNat_ofNat']
    simp only [Call.due, Call.Sound, Call.Rounds, UInt32.reduceToNat, Nat.reducePow, Timespec.ticks]
    generalize req.sec.toNat = s at *
    generalize req.nsec.toNat = n at *
    have sum : (s * 1000000 % 4294967296 + (n + 999) / 1000 % 4294967296) % 4294967296 =
        (s * 1000000 + (n + 999) / 1000) % 4294967296 := by omega
    rw [sum]
    by_cases wraps : 4294967296 ≤ s * 1000000 + (n + 999) / 1000
    · have early := wrapped_early wraps
      omega
    · rw [Nat.mod_eq_of_lt (by omega)]
      omega
  | poll nfds timeout =>
    obtain ⟨few, low, high⟩ := valid
    simp only [Call.Sound, Call.Rounds, and_true]
    by_cases none : nfds = 0
    · have waits : Waits (.poll nfds timeout) start 0 :=
        waits_zero (by rw [Call.after, Call.start, if_pos none])
      rw [waits.iff.1, waits.iff.2]
      simp only [Call.due]
      omega
    · have first := pollTurn_eq start ((timeout.toNat * 3 + 9) / 10) (by omega)
      have waits : Waits (.poll nfds timeout) start ((timeout.toNat * 3 + 9) / 10) := by
        refine waits_sleeping (by omega) ?_
        rw [Call.after, Call.start, if_neg none, if_neg (by omega), if_neg (by omega),
          pollTimeoutTicks_eq low high, ← UInt32.ofNat_add, first]
      rw [waits.iff.1, waits.iff.2]
      simp [Call.due, none]
  | epollWait timeout =>
    obtain ⟨low, high⟩ := valid
    simp only [Call.Sound, Call.Rounds, and_true]
    generalize ticks : (timeout.toNat * 3 + 9) / 10 = k
    have due : (Call.epollWait timeout).due = k := ticks
    have reach := reached_iff (m := start + k) (n := start) (by omega) (by omega)
    have first : (Call.epollWait timeout).after start 0 =
        epollTurn (UInt32.ofNat start) (UInt32.ofNat (start + k)) := by
      rw [Call.after, Call.start, if_neg (by omega), pollTimeoutTicks_eq low high, ticks,
        ← UInt32.ofNat_add]
    unfold epollTurn at first
    by_cases lost : k ≠ 0 ∧ (start + k) % 4294967296 = 0
    · have zero : UInt32.ofNat (start + k) = 0 := by
        rw [← UInt32.toNat_inj, UInt32.toNat_ofNat']
        exact lost.2
      rw [if_neg (by rw [reach]; omega), zero, if_neg (by simp)] at first
      have never := after_waiting first
      have silent : ¬Fires (.epollWait timeout) start := by
        rintro ⟨n, fired⟩
        simp [never n] at fired
      have late : ¬OnTime (.epollWait timeout) start := by
        intro onTime
        simp [OnTime, never] at onTime
      simp only [silent, late, and_false, false_iff, not_or]
      omega
    · have waits : Waits (.epollWait timeout) start k := by
        refine waits_sleeping (by omega) ?_
        rw [first]
        by_cases none : k = 0
        · rw [if_pos (reach.mpr (by omega)), if_pos none]
        · rw [if_neg (by rw [reach]; omega), if_neg none, if_pos (ofNat_ne_zero (by omega))]
      rw [waits.iff.1, waits.iff.2, due]
      omega

theorem sleep_keeps_time_ten_millis :
    NeverEarly (.poll 1 10) 4294967290 ∧ OnTime (.poll 1 10) 4294967290 :=
  ((sleep_keeps_time_iff (.poll 1 10) 4294967290
    ⟨by decide, by decide, by decide⟩).2).mpr ⟨.inl (by decide), trivial⟩

/-- `sleep(4295)` returns after ten ticks, `nanosleep` for the same time as well, `poll` of no
descriptors at once, `epoll_wait` never, and `usleep(10000)` is one tick late. -/
theorem sleep_loses_time : ¬NeverEarly (.sleep 4295) 0 ∧ ¬NeverEarly (.nanosleep ⟨4295, 0⟩) 0 ∧
    ¬NeverEarly (.poll 0 1000) 0 ∧ ¬Fires (.epollWait 1000) 4294966996 ∧
    ¬OnTime (.usleep 10000) 0 := by
  refine ⟨fun h => ?_, fun h => ?_, fun h => ?_, fun ⟨n, fired⟩ => ?_, by unfold OnTime; decide⟩
  · exact absurd (h 10 (by decide)) (by decide)
  · exact absurd (h 10 (by decide)) (by decide)
  · exact absurd (h 0 (by decide)) (by decide)
  · have waits : (Call.epollWait 1000).after 4294966996 0 = .waiting := by decide
    simp [after_waiting waits n] at fired

end SmallOS.Time
