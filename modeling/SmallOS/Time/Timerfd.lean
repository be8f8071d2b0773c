import SmallOS.Lib.Serial

/-! Timer descriptors. A timer holds the tick of its next expiry and its interval, both of 32 bits,
and a deadline of zero means that it is not armed. Times are natural numbers of ticks, of which the
kernel sees the last 32 bits. -/

namespace SmallOS.Time
open Serial

def timerHz : UInt32 := 300
def nsPerTick : UInt32 := 1000000000 / timerHz

structure Timespec where
  sec : UInt32
  nsec : Int

def timespecToTicks (t : Timespec) : UInt32 :=
  if t.nsec < 0 ∨ 1000000000 ≤ t.nsec then 0xFFFFFFFF
  else if timerHz = 0 then 0xFFFFFFFF
  else if 0xFFFFFFFE / timerHz < t.sec then 0xFFFFFFFE
  else if 0 < t.nsec then
    t.sec * timerHz + (UInt32.ofNat t.nsec.toNat + nsPerTick - 1) / nsPerTick
  else t.sec * timerHz

structure Timer where
  deadline : UInt32
  interval : UInt32
deriving DecidableEq

def settime (now : UInt32) (value interval : Timespec) : Option Timer :=
  let first := timespecToTicks value
  let next := timespecToTicks interval
  if first = 0xFFFFFFFF ∨ next = 0xFFFFFFFF then none
  else some ⟨if first ≠ 0 then now + first else 0, next⟩

def Timer.readyAt (t : Timer) (now : UInt32) : Bool := t.deadline ≠ 0 && reached now t.deadline

def Timer.consume (t : Timer) (now : UInt32) : Timer × Nat :=
  if !t.readyAt now then (t, 0)
  else if t.interval ≠ 0 then
    let expirations := 1 + (now - t.deadline) / t.interval
    ({ t with deadline := t.deadline + expirations * t.interval }, expirations.toNat)
  else ({ t with deadline := 0 }, 1)

def Timespec.ticks (t : Timespec) : Nat :=
  ((t.sec.toNat * 1000000000 + t.nsec.toNat) * 300 + 999999999) / 1000000000

/-- The nanoseconds of a tick are rounded down, and with them the time left over at its end has
to count for a tick anyway. -/
structure Timespec.Fits (t : Timespec) : Prop where
  valid : 0 ≤ t.nsec ∧ t.nsec < 1000000000
  near : t.ticks ≤ 2147483648
  rounds : t.nsec.toNat % 3333333 = 0 ∨ t.nsec.toNat / 3333333 < 3 * (t.nsec.toNat % 3333333)

theorem Timespec.Fits.timespecToTicks {t : Timespec} (h : t.Fits) :
    timespecToTicks t = UInt32.ofNat t.ticks := by
  obtain ⟨⟨low, high⟩, near, rounds⟩ := h
  unfold Timespec.ticks at *
  generalize hs : t.sec.toNat = s at *
  generalize hn : t.nsec.toNat = n at *
  have whole : ((s * 1000000000 + n) * 300 + 999999999) / 1000000000 =
      s * 300 + (n + 3333332) / 3333333 := by
    rcases rounds with none | some
    · have up : (n + 3333332) / 3333333 = n / 3333333 := by omega
      omega
    · have up : (n + 3333332) / 3333333 = n / 3333333 + 1 := by omega
      omega
  rw [whole] at near ⊢
  have small : s ≤ 14316557 := by omega
  unfold Time.timespecToTicks
  have within : ¬0xFFFFFFFE / timerHz < t.sec := by
    rw [UInt32.lt_iff_toNat_lt, hs]
    exact Nat.not_lt.mpr small
  rw [if_neg (by omega), if_neg (by decide), if_neg within]
  apply UInt32.toNat_inj.mp
  have hz : timerHz.toNat = 300 := rfl
  have per : nsPerTick.toNat = 3333333 := by decide
  split_ifs with pos
  · have up : (4294967296 - 1 + (n % 4294967296 + 3333333) % 4294967296) % 4294967296 =
        n + 3333332 := by omega
    simp only [UInt32.toNat_add, UInt32.toNat_mul, UInt32.toNat_div, UInt32.toNat_sub,
      UInt32.toNat_ofNat', hn, hs, hz, per, UInt32.toNat_one, Nat.reducePow, up]
    omega
  · simp only [UInt32.toNat_mul, UInt32.toNat_ofNat', hs, hz]
    omega

def expirations (first period start now : Nat) : Nat :=
  if now < start + first then 0
  else if period = 0 then 1
  else 1 + (now - (start + first)) / period

def expiry (first period start n : Nat) : Nat := start + first + n * period

/-- A timer is set at `start`; ticks pass, and at some it is read. Beside the timer stand the
expirations up to the last read and the sum of the counts. All states satisfy `ok`. -/
inductive Run (value interval : Timespec) (start : Nat) (ok : Nat → Nat → Prop) :
    Nat → Nat → Timer → Nat → Prop
  | set {t : Timer} : settime (UInt32.ofNat start) value interval = some t → ok start 0 →
      Run value interval start ok start 0 t 0
  | tick {now seen total : Nat} {t : Timer} : Run value interval start ok now seen t total →
      ok (now + 1) seen → Run value interval start ok (now + 1) seen t total
  | read {now seen total : Nat} {t : Timer} : Run value interval start ok now seen t total →
      ok now (expirations value.ticks interval.ticks start now) →
      Run value interval start ok now (expirations value.ticks interval.ticks start now)
        (t.consume (UInt32.ofNat now)).1 (total + (t.consume (UInt32.ofNat now)).2)

section
variable {first period start now seen total : Nat} {t : Timer}

/-- The expiry that is waited for, if there is one, does not fall on a tick that reads as zero,
and lies less than half a round back. -/
def InReach (first period start now seen : Nat) : Prop :=
  0 < period ∨ seen = 0 → expiry first period start seen % 4294967296 ≠ 0 ∧
    now < expiry first period start seen + 2147483648

instance : Decidable (InReach first period start now seen) :=
  inferInstanceAs (Decidable (_ → _))

theorem lt_expirations_iff (more : 0 < period ∨ seen = 0) :
    seen < expirations first period start now ↔ expiry first period start seen ≤ now := by
  unfold expirations expiry
  split_ifs with early once
  · have := Nat.zero_le (seen * period)
    omega
  · have none : seen = 0 := by omega
    simp only [none, Nat.zero_mul]
    omega
  · rw [Nat.add_comm 1, Nat.lt_succ_iff, Nat.le_div_iff_mul_le (by omega)]
    omega

theorem expirations_once (first start now : Nat) (once : period = 0) :
    expirations first period start now ≤ 1 := by
  unfold expirations
  split_ifs
  all_goals omega

theorem expirations_since (pos : 0 < period) (due : expiry first period start seen ≤ now) :
    expirations first period start now =
      seen + (1 + (now - expiry first period start seen) / period) := by
  unfold expiry at *
  have past : now - (start + first) = (now - (start + first + seen * period)) + seen * period := by
    omega
  unfold expirations
  rw [if_neg (by have := Nat.zero_le (seen * period); omega), if_neg (by omega), past,
    Nat.add_mul_div_right _ _ pos]
  omega

/-- How the timer stands, with all expirations up to the last read counted. -/
structure Sound (first period start now seen : Nat) (t : Timer) (total : Nat) : Prop where
  sum : total = seen
  known : seen ≤ expirations first period start now
  interval : t.interval = UInt32.ofNat period
  deadline : (period = 0 ∧ seen = 1 ∧ t.deadline = 0) ∨
    ((0 < period ∨ seen = 0) ∧ t.deadline = UInt32.ofNat (expiry first period start seen) ∧
      expiry first period start seen ≤ now + 2147483648)

theorem expirations_mono {later : Nat} (le : now ≤ later) :
    expirations first period start now ≤ expirations first period start later := by
  unfold expirations
  split_ifs
  all_goals first
    | exact Nat.zero_le _
    | exact Nat.add_le_add_left (Nat.div_le_div_right (by omega)) 1
    | omega

theorem ofNat_ne_zero {n : Nat} (h : n % 4294967296 ≠ 0) : UInt32.ofNat n ≠ 0 := by
  intro zero
  have := congrArg UInt32.toNat zero
  rw [UInt32.toNat_ofNat'] at this
  exact h this

theorem Sound.ready_iff (h : Sound first period start now seen t total)
    (reach : InReach first period start now seen) :
    t.readyAt (UInt32.ofNat now) = true ↔ seen < expirations first period start now := by
  unfold Timer.readyAt
  rcases h.deadline with ⟨once, one, off⟩ | ⟨more, at_, ahead⟩
  · have le := expirations_once first start now once
    simp only [off, one]
    constructor
    · intro ready
      simp at ready
    · omega
  · obtain ⟨nonzero, near⟩ := reach more
    rw [lt_expirations_iff more, at_, Bool.and_eq_true, reached_iff ahead near]
    simp [ofNat_ne_zero nonzero]

theorem consume_periodic (pos : t.interval ≠ 0) (ready : t.readyAt (UInt32.ofNat now) = true)
    {due : Nat} (at_ : t.deadline = UInt32.ofNat due) (le : due ≤ now)
    (near : now < due + 2147483648) (interval : t.interval = UInt32.ofNat period)
    (small : period < 4294967296) :
    t.consume (UInt32.ofNat now) =
      ({ t with deadline := UInt32.ofNat (due + (1 + (now - due) / period) * period) },
        1 + (now - due) / period) := by
  have back : UInt32.ofNat now - UInt32.ofNat due = UInt32.ofNat (now - due) := by
    conv_lhs => rw [← Nat.sub_add_cancel le, UInt32.ofNat_add, UInt32.add_sub_cancel]
  have count : (1 : UInt32) + UInt32.ofNat (now - due) / UInt32.ofNat period =
      UInt32.ofNat (1 + (now - due) / period) := by
    apply UInt32.toNat_inj.mp
    simp only [UInt32.toNat_add, UInt32.toNat_div, UInt32.toNat_ofNat', UInt32.toNat_one,
      Nat.mod_eq_of_lt (show now - due < 2 ^ 32 by omega), Nat.mod_eq_of_lt (show period < 2 ^ 32 from
        small)]
  have le := Nat.div_le_self (now - due) period
  unfold Timer.consume
  rw [if_neg (by simp [ready]), if_pos pos]
  dsimp only
  rw [at_, interval, back, count, ← UInt32.ofNat_mul, ← UInt32.ofNat_add,
    toNat_ofNat_of_lt (by omega)]

theorem Sound.read (h : Sound first period start now seen t total)
    (reach : InReach first period start now seen) (small : period ≤ 2147483648) :
    Sound first period start now (expirations first period start now)
      (t.consume (UInt32.ofNat now)).1 (total + (t.consume (UInt32.ofNat now)).2) := by
  have ready := h.ready_iff reach
  by_cases new : seen < expirations first period start now
  · rcases h.deadline with ⟨once, one, off⟩ | ⟨more, at_, ahead⟩
    · have le := expirations_once first start now once
      omega
    · have due := (lt_expirations_iff more).mp new
      obtain ⟨nonzero, near⟩ := reach more
      by_cases pos : 0 < period
      · have interval : t.interval ≠ 0 := by
          rw [h.interval]
          exact ofNat_ne_zero (by omega)
        have since := expirations_since pos due
        have back := Nat.div_mul_le_self (now - expiry first period start seen) period
        rw [consume_periodic interval (ready.mpr new) at_ due near h.interval (by omega), since]
        have next : expiry first period start (seen +
              (1 + (now - expiry first period start seen) / period)) =
            expiry first period start seen +
              (1 + (now - expiry first period start seen) / period) * period := by
          unfold expiry
          rw [Nat.add_mul seen]
          omega
        refine ⟨by rw [h.sum], since.ge, h.interval, .inr ⟨.inl pos, by rw [next], ?_⟩⟩
        rw [next, Nat.add_mul]
        omega
      · have once : period = 0 := by omega
        have le := expirations_once first start now once
        have consumed : t.consume (UInt32.ofNat now) = ({ t with deadline := 0 }, 1) := by
          unfold Timer.consume
          rw [if_neg (by simp [ready.mpr new]), if_neg (by rw [h.interval, once]; simp)]
        rw [consumed]
        exact ⟨by rw [h.sum]; omega, le_rfl, h.interval, .inl ⟨once, by omega, rfl⟩⟩
  · have consumed : t.consume (UInt32.ofNat now) = (t, 0) := by
      unfold Timer.consume
      rw [if_pos (by simpa using fun r => new (ready.mp r))]
    have same : expirations first period start now = seen :=
      le_antisymm (Nat.not_lt.mp new) h.known
    rw [consumed, same]
    exact h

theorem sound_settime {value interval : Timespec} (fits : value.Fits) (fits' : interval.Fits)
    (some : value.ticks ≠ 0) (call : settime (UInt32.ofNat start) value interval = .some t) :
    Sound value.ticks interval.ticks start start 0 t 0 := by
  have near := fits.near
  have nonzero : UInt32.ofNat value.ticks ≠ 0 := ofNat_ne_zero (by omega)
  unfold settime at call
  simp only [fits.timespecToTicks, fits'.timespecToTicks, if_pos nonzero] at call
  split_ifs at call
  obtain rfl := Option.some.inj call
  refine ⟨rfl, Nat.zero_le _, rfl, .inr ⟨.inr rfl, ?_, ?_⟩⟩
  · simp [expiry, UInt32.ofNat_add]
  · unfold expiry
    omega

end

/-- In a run of a timer whose times fit, and whose expiries stay in reach, the counts add up to
the expirations up to the last read, the timer is ready exactly if there is one more, and a
periodic timer stays armed. -/
theorem timerfd_counts_expirations {value interval : Timespec} {start now seen total : Nat}
    {t : Timer} (first : value.Fits) (next : interval.Fits) (some : value.ticks ≠ 0)
    (run : Run value interval start (InReach value.ticks interval.ticks start) now seen t total) :
    total = seen ∧ (t.readyAt (UInt32.ofNat now) = true ↔
        seen < expirations value.ticks interval.ticks start now) ∧
      (interval.ticks ≠ 0 → t.deadline ≠ 0) := by
  have sound : Sound value.ticks interval.ticks start now seen t total ∧
      InReach value.ticks interval.ticks start now seen := by
    induction run with
    | set call reach =>
      exact ⟨sound_settime first next some call, reach⟩
    | tick _ reach ih =>
      obtain ⟨h, -⟩ := ih
      refine ⟨⟨h.sum, h.known.trans (expirations_mono (Nat.le_succ _)), h.interval, ?_⟩, reach⟩
      exact h.deadline.imp id fun ⟨more, at_, ahead⟩ => ⟨more, at_, by omega⟩
    | read _ reach ih => exact ⟨ih.1.read ih.2 next.near, reach⟩
  obtain ⟨h, reach⟩ := sound
  refine ⟨h.sum, h.ready_iff reach, fun periodic => ?_⟩
  rcases h.deadline with ⟨once, -⟩ | ⟨more, at_, -⟩
  · exact absurd once periodic
  · rw [at_]
    exact ofNat_ne_zero (reach more).1

/-- A timer of one tick with an interval of two, read at the third tick after it was set. -/
theorem timerfd_counts_expirations_ticks : ∃ t total, Run ⟨0, 3333333⟩ ⟨0, 6666666⟩ 0
        (InReach (Timespec.ticks ⟨0, 3333333⟩) (Timespec.ticks ⟨0, 6666666⟩) 0) 3 2 t total ∧
      total = 2 ∧ t.deadline ≠ 0 := by
  have set : Run ⟨0, 3333333⟩ ⟨0, 6666666⟩ 0
      (InReach (Timespec.ticks ⟨0, 3333333⟩) (Timespec.ticks ⟨0, 6666666⟩) 0) 0 0 ⟨1, 2⟩ 0 :=
    .set (by decide) (by decide)
  have run := Run.read (.tick (.tick (.tick set (by decide)) (by decide)) (by decide)) (by decide)
  have counts := timerfd_counts_expirations ⟨by decide, by decide, by decide⟩
    ⟨by decide, by decide, by decide⟩ (by decide) run
  have two : expirations (Timespec.ticks ⟨0, 3333333⟩) (Timespec.ticks ⟨0, 6666666⟩) 0 3 = 2 := by
    decide
  simp only [Nat.zero_add, Nat.reduceAdd, two] at run counts
  exact ⟨_, _, run, counts.1, counts.2.2 (by decide)⟩

/-- Ten milliseconds are three ticks, and the timer takes four; one second before the counter is
zero again the timer is not armed at all; and in a hundred days it is due at once. -/
theorem timerfd_miscounts :
    (settime 0 ⟨0, 10000000⟩ ⟨0, 0⟩).any (fun t => !t.readyAt 3 && t.readyAt 4) = true ∧
    Timespec.ticks ⟨0, 10000000⟩ = 3 ∧
    (settime (UInt32.ofNat 4294966996) ⟨1, 0⟩ ⟨1, 0⟩).any (·.deadline = 0) = true ∧
    (settime 0 ⟨8640000, 0⟩ ⟨0, 0⟩).any (·.readyAt 0) = true := by
  decide

end SmallOS.Time
