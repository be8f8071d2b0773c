import Mathlib.Data.List.Lex
import Mathlib.Data.UInt
import Mathlib.Tactic.Ring
import SmallOS.Lib.Spans

/-! The comparison of version strings of the C library. A C string is a list of bytes other than
the terminator; a digit run counts by its value, then by its leading zeros. -/

namespace SmallOS.Libc

open List Spans

abbrev Byte := {c : UInt8 // c ≠ 0}

def Byte.code (c : Byte) : Nat := c.1.toNat

def isDigit (c : Byte) : Bool := 48 ≤ c.code ∧ c.code ≤ 57

def isZero (c : Byte) : Bool := c.code = 48

def digits (s : List Byte) : List Byte := (s.dropWhile isZero).takeWhile isDigit

def zeros (s : List Byte) : Nat := (s.takeWhile isZero).length

def behind (s : List Byte) : List Byte := (s.dropWhile isZero).dropWhile isDigit

def digitsDiff : List Byte → List Byte → Int
  | x :: xs, y :: ys => if x ≠ y then x.code - y.code else digitsDiff xs ys
  | _, _ => 0

theorem isDigit_iff {c : Byte} : isDigit c = true ↔ 48 ≤ c.code ∧ c.code ≤ 57 :=
  decide_eq_true_iff

theorem isZero.isDigit {c : Byte} (h : isZero c = true) : isDigit c = true := by
  grind [isZero, isDigit]

theorem behind_eq (a : List Byte) : behind a = a.dropWhile isDigit := by
  induction a with
  | nil => rfl
  | cons c a ih =>
    by_cases hz : isZero c = true
    · rwa [behind, dropWhile_cons_of_pos hz, dropWhile_cons_of_pos (isZero.isDigit hz)]
    · rw [behind, dropWhile_cons_of_neg hz]

theorem length_behind {c : Byte} (a : List Byte) (hc : isDigit c = true) :
    (behind (c :: a)).length < (c :: a).length := by
  rw [behind_eq, dropWhile_cons_of_pos hc]
  exact Nat.lt_succ_of_le (dropWhile_sublist _).length_le

def strverscmp : List Byte → List Byte → Int
  | [], [] => 0
  | [], y :: _ => -y.code
  | x :: _, [] => x.code
  | x :: a, y :: b =>
    if isDigit x = true ∧ isDigit y = true then
      if (digits (x :: a)).length ≠ (digits (y :: b)).length then
        if (digits (x :: a)).length < (digits (y :: b)).length then -1 else 1
      else if digitsDiff (digits (x :: a)) (digits (y :: b)) ≠ 0 then
        digitsDiff (digits (x :: a)) (digits (y :: b))
      else if zeros (x :: a) ≠ zeros (y :: b) then
        if zeros (x :: a) < zeros (y :: b) then -1 else 1
      else strverscmp (behind (x :: a)) (behind (y :: b))
    else if x ≠ y then x.code - y.code
    else strverscmp a b
  termination_by a => a.length
  decreasing_by
    · exact length_behind a (And.left ‹_›)
    · exact Nat.lt_succ_self _

def value : List Byte → Nat
  | [] => 0
  | c :: s => (c.code - 48) * 10 ^ s.length + value s

/-- The order of `strverscmp` is the lexicographic one of the keys. -/
def key : List Byte → List Nat
  | [] => []
  | x :: a =>
    if isDigit x = true then
      48 :: value (digits (x :: a)) :: zeros (x :: a) :: key (behind (x :: a))
    else x.code :: key a
  termination_by a => a.length
  decreasing_by
    · exact length_behind a ‹_›
    · exact Nat.lt_succ_self _

/-- The sign of `d` tells the order of `u` and `v`, and 0 means `same`. -/
structure Decides {α : Type} [LT α] (d : Int) (u v : α) (same : Prop) : Prop where
  lt : d < 0 → u < v
  gt : 0 < d → v < u
  eq : d = 0 → same

variable {a b xs ys : List Byte} {x y c : Byte}

theorem Byte.ext (h : x.code = y.code) : x = y :=
  Subtype.ext (UInt8.toNat_inj.mp h)

theorem Byte.code_pos (x : Byte) : 0 < x.code :=
  Nat.pos_of_ne_zero fun h => x.2 (UInt8.toNat_inj.mp h)

theorem value_lt (hxs : ∀ c ∈ xs, isDigit c = true) : value xs < 10 ^ xs.length := by
  induction xs with
  | nil => exact Nat.one_pos
  | cons c xs ih =>
    obtain ⟨hc, hxs⟩ := forall_mem_cons.mp hxs
    have hcode := isDigit_iff.mp hc
    have hmul := Nat.mul_le_mul_right (10 ^ xs.length) (show c.code - 48 ≤ 9 by omega)
    have ih := ih hxs
    rw [value, length_cons, pow_succ]
    omega

theorem value_cons_lt (hlen : xs.length = ys.length) (hxs : ∀ c ∈ xs, isDigit c = true)
    (hx : isDigit x = true) (h : x.code < y.code) : value (x :: xs) < value (y :: ys) := by
  have hcode := isDigit_iff.mp hx
  have hlt := value_lt hxs
  have hmul := Nat.mul_le_mul_right (10 ^ xs.length) (show x.code - 48 + 1 ≤ y.code - 48 by omega)
  rw [Nat.succ_mul] at hmul
  rw [value, value, ← hlen]
  omega

theorem digitsDiff_decides (hlen : xs.length = ys.length) (hxs : ∀ c ∈ xs, isDigit c = true)
    (hys : ∀ c ∈ ys, isDigit c = true) :
    Decides (digitsDiff xs ys) (value xs) (value ys) (xs = ys) := by
  induction xs generalizing ys with
  | nil => exact ⟨nofun, nofun, fun _ => (length_eq_zero_iff.mp hlen.symm).symm⟩
  | cons x xs ih =>
    cases ys with
    | nil => cases hlen
    | cons y ys =>
      obtain ⟨hx, hxs⟩ := forall_mem_cons.mp hxs
      obtain ⟨hy, hys⟩ := forall_mem_cons.mp hys
      have hlen := Nat.succ.inj hlen
      rw [digitsDiff]
      split_ifs with hxy
      · exact ⟨fun h => value_cons_lt hlen hxs hx (by omega),
          fun h => value_cons_lt hlen.symm hys hy (by omega),
          fun h => absurd (Byte.ext (by omega)) hxy⟩
      · have hrest := ih hlen hxs hys
        rw [not_not.mp hxy, value, value, hlen]
        exact ⟨fun h => Nat.add_lt_add_left (hrest.lt h) _,
          fun h => Nat.add_lt_add_left (hrest.gt h) _, fun h => by rw [hrest.eq h]⟩

theorem digits_isDigit (a : List Byte) : ∀ c ∈ digits a, isDigit c = true :=
  fun _ hc => mem_takeWhile_imp hc

theorem digits_head (h : digits b = c :: xs) : 48 < c.code := by
  rw [digits] at h
  cases hs : b.dropWhile isZero with
  | nil => cases hs ▸ h
  | cons x s =>
    rw [hs, takeWhile_cons] at h
    split_ifs at h with hx
    obtain ⟨rfl, -⟩ := cons.inj h
    have hne : x.code ≠ 48 := of_decide_eq_false (head_dropWhile (p := isZero) hs)
    have hcode := isDigit_iff.mp hx
    omega

theorem value_longer (h : (digits a).length < (digits b).length) :
    value (digits a) < value (digits b) := by
  have hlt := value_lt (digits_isDigit a)
  cases hb : digits b with
  | nil => simp [hb] at h
  | cons c xs =>
    have hc := digits_head hb
    have hpow := Nat.pow_le_pow_right (n := 10) (by decide)
      (show (digits a).length ≤ xs.length by rw [hb, length_cons] at h; omega)
    have hmul := Nat.mul_le_mul_right (10 ^ xs.length) (show 1 ≤ c.code - 48 by omega)
    rw [value]
    omega

theorem value_run (a : List Byte) : value (a.takeWhile isDigit) = value (digits a) := by
  induction a with
  | nil => rfl
  | cons c a ih =>
    by_cases hz : isZero c = true
    · rw [digits, dropWhile_cons_of_pos hz, takeWhile_cons_of_pos (isZero.isDigit hz), value,
        of_decide_eq_true hz, ih, Nat.sub_self, Nat.zero_mul, Nat.zero_add, digits]
    · rw [digits, dropWhile_cons_of_neg hz]

theorem run_eq (a : List Byte) :
    replicate (zeros a) ⟨48, by decide⟩ ++ (digits a ++ behind a) = a := by
  have hz : a.takeWhile isZero = replicate (zeros a) ⟨48, by decide⟩ :=
    eq_replicate_iff.mpr ⟨rfl, fun c hc =>
      Byte.ext (of_decide_eq_true (mem_takeWhile_imp (p := isZero) hc))⟩
  rw [← hz, digits, behind, takeWhile_append_dropWhile, takeWhile_append_dropWhile]

theorem digits_decide (hlen : ¬(digits a).length ≠ (digits b).length) :
    Decides (digitsDiff (digits a) (digits b)) (value (digits a)) (value (digits b))
      (digits a = digits b) :=
  digitsDiff_decides (not_not.mp hlen) (digits_isDigit a) (digits_isDigit b)

theorem key_digit (hx : isDigit x = true) : key (x :: a) =
    48 :: value (digits (x :: a)) :: zeros (x :: a) :: key (behind (x :: a)) := by
  rw [key, if_pos hx]

theorem key_other (hx : ¬isDigit x = true) : key (x :: a) = x.code :: key a := by
  rw [key, if_neg hx]

theorem digit_lt (hx : isDigit x = true) (hy : isDigit y = true) : key (x :: a) < key (y :: b) ↔
    value (digits (x :: a)) < value (digits (y :: b)) ∨
      value (digits (x :: a)) = value (digits (y :: b)) ∧ (zeros (x :: a) < zeros (y :: b) ∨
        zeros (x :: a) = zeros (y :: b) ∧ key (behind (x :: a)) < key (behind (y :: b))) := by
  rw [key_digit hx, key_digit hy]
  simp only [cons_lt_cons_iff, lt_irrefl, false_or, true_and]

theorem other_lt (hd : ¬(isDigit x = true ∧ isDigit y = true)) (h : x.code < y.code) :
    key (x :: a) < key (y :: b) := by
  rw [isDigit_iff, isDigit_iff] at hd
  rw [key, key]
  simp only [isDigit_iff]
  split_ifs <;> exact cons_lt_cons_iff.mpr (.inl (by omega))

theorem nil_lt_key (x : Byte) (a : List Byte) : [] < key (x :: a) := by
  rw [key]
  split_ifs <;> exact nil_lt_cons _ _

theorem strverscmp_decides (a b : List Byte) :
    Decides (strverscmp a b) (key a) (key b) (a = b) := by
  fun_induction strverscmp a b with
  | case1 => exact ⟨nofun, nofun, fun _ => rfl⟩
  | case2 y b =>
    have hy := y.code_pos
    rw [key]
    exact ⟨fun _ => nil_lt_key y b, fun _ => by omega, fun _ => by omega⟩
  | case3 x a =>
    have hx := x.code_pos
    rw [key.eq_1]
    exact ⟨fun _ => by omega, fun _ => nil_lt_key x a, fun _ => by omega⟩
  | case4 x a y b hd hlen hlt =>
    exact ⟨fun _ => (digit_lt hd.1 hd.2).mpr (.inl (value_longer hlt)), nofun, nofun⟩
  | case5 x a y b hd hlen hlt =>
    exact ⟨nofun, fun _ => (digit_lt hd.2 hd.1).mpr (.inl (value_longer (by omega))), nofun⟩
  | case6 x a y b hd hlen hdiff =>
    have h := digits_decide hlen
    exact ⟨fun hneg => (digit_lt hd.1 hd.2).mpr (.inl (h.lt hneg)),
      fun hpos => (digit_lt hd.2 hd.1).mpr (.inl (h.gt hpos)), fun h0 => absurd h0 hdiff⟩
  | case7 x a y b hd hlen hdiff hz hlt =>
    have hv := congrArg value ((digits_decide hlen).eq (not_not.mp hdiff))
    exact ⟨fun _ => (digit_lt hd.1 hd.2).mpr (.inr ⟨hv, .inl hlt⟩), nofun, nofun⟩
  | case8 x a y b hd hlen hdiff hz hlt =>
    have hv := congrArg value ((digits_decide hlen).eq (not_not.mp hdiff))
    exact ⟨nofun, fun _ => (digit_lt hd.2 hd.1).mpr (.inr ⟨hv.symm, .inl (by omega)⟩), nofun⟩
  | case9 x a y b hd hlen hdiff hz ih =>
    have hdigits := (digits_decide hlen).eq (not_not.mp hdiff)
    have hv := congrArg value hdigits
    have hz := not_not.mp hz
    refine ⟨fun h => (digit_lt hd.1 hd.2).mpr (.inr ⟨hv, .inr ⟨hz, ih.lt h⟩⟩), fun h =>
      (digit_lt hd.2 hd.1).mpr (.inr ⟨hv.symm, .inr ⟨hz.symm, ih.gt h⟩⟩), fun h => ?_⟩
    rw [← run_eq (x :: a), hz, hdigits, ih.eq h, run_eq]
  | case10 x a y b hd hxy =>
    exact ⟨fun _ => other_lt hd (by omega), fun _ => other_lt (mt And.symm hd) (by omega),
      fun h => absurd (Byte.ext (by omega)) hxy⟩
  | case11 x a y b hd hxy ih =>
    obtain rfl := not_not.mp hxy
    have hx : ¬isDigit x = true := fun hx => hd ⟨hx, hx⟩
    rw [key_other hx, key_other hx]
    exact ⟨fun h => cons_lt_cons_iff.mpr (.inr ⟨rfl, ih.lt h⟩),
      fun h => cons_lt_cons_iff.mpr (.inr ⟨rfl, ih.gt h⟩), fun h => congrArg (x :: ·) (ih.eq h)⟩

theorem strverscmp_iff (a b : List Byte) :
    (strverscmp a b < 0 ↔ key a < key b) ∧ (0 < strverscmp a b ↔ key b < key a) := by
  have h := strverscmp_decides a b
  rcases lt_trichotomy (strverscmp a b) 0 with h0 | h0 | h0
  · have hlt := h.lt h0
    exact ⟨iff_of_true h0 hlt, iff_of_false h0.asymm hlt.asymm⟩
  · obtain rfl := h.eq h0
    exact ⟨iff_of_false h0.not_lt (lt_irrefl _), iff_of_false h0.not_gt (lt_irrefl _)⟩
  · have hgt := h.gt h0
    exact ⟨iff_of_false h0.asymm hgt.asymm, iff_of_true h0 hgt⟩

theorem key_behind (hc : isDigit c = false) (q : List Byte) :
    ∃ w, ∀ a, key (q ++ c :: a) = w ++ key a := by
  have hz : isZero c = false := by
    by_contra h
    exact absurd (isZero.isDigit (by simpa using h)) (by simp [hc])
  fun_induction key q with
  | case1 => exact ⟨[c.code], fun a => key_other (by simp [hc])⟩
  | case2 x q hx ih =>
    obtain ⟨w, hw⟩ := ih
    refine ⟨48 :: value (digits (x :: q)) :: zeros (x :: q) :: w, fun a => ?_⟩
    rw [cons_append, key_digit hx, ← cons_append, digits, zeros, behind, (span_stop hz _ a).1,
      (span_stop hz _ a).2, (span_stop hc _ a).1, (span_stop hc _ a).2, ← behind, hw]
    rfl
  | case3 x q hx ih =>
    obtain ⟨w, hw⟩ := ih
    exact ⟨x.code :: w, fun a => by rw [cons_append, key_other hx, hw]; rfl⟩

theorem key_run (h : a.takeWhile isDigit ≠ []) :
    ∃ s, key a = 48 :: value (a.takeWhile isDigit) :: s := by
  cases a with
  | nil => exact absurd rfl h
  | cons c a =>
    have hc : isDigit c = true := not_not.mp fun hn => h (takeWhile_cons_of_neg hn)
    exact ⟨_, by rw [key_digit hc, value_run]⟩

/-- `strverscmp` is a total order in which numbers behind a common part count by value. -/
theorem strverscmp_total_order : (∀ a b, strverscmp a b < 0 ↔ 0 < strverscmp b a) ∧
    (∀ a b c, strverscmp a b ≤ 0 → strverscmp b c ≤ 0 → strverscmp a c ≤ 0) ∧
    (∀ a b c, strverscmp a b < 0 → strverscmp b c < 0 → strverscmp a c < 0) ∧
    (∀ a b, strverscmp a b = 0 ↔ a = b) ∧
    ∀ q a b, (∀ c ∈ q.getLast?, isDigit c = false) → a.takeWhile isDigit ≠ [] →
      b.takeWhile isDigit ≠ [] → value (a.takeWhile isDigit) < value (b.takeWhile isDigit) →
      strverscmp (q ++ a) (q ++ b) < 0 := by
  refine ⟨fun a b => (strverscmp_iff a b).1.trans (strverscmp_iff b a).2.symm,
    fun a b c => ?_, fun a b c => ?_, fun a b => ⟨(strverscmp_decides a b).eq, ?_⟩,
    fun q a b hq ha hb hlt => ?_⟩
  · simp only [← not_lt, (strverscmp_iff _ _).2]
    simp only [not_lt]
    exact le_trans
  · simp only [(strverscmp_iff _ _).1]
    exact lt_trans
  · rintro rfl
    have hno := strverscmp_iff a a
    grind
  · obtain ⟨s, hs⟩ := key_run ha
    obtain ⟨t, ht⟩ := key_run hb
    have hkey : key a < key b := by
      rw [hs, ht]
      exact cons_lt_cons_iff.mpr (.inr ⟨rfl, cons_lt_cons_iff.mpr (.inl hlt)⟩)
    rw [(strverscmp_iff _ _).1]
    rcases eq_nil_or_concat' q with rfl | ⟨q, c, rfl⟩
    · exact hkey
    · obtain ⟨w, hw⟩ := key_behind (hq c (by simp)) q
      rw [append_assoc, append_assoc, singleton_append, singleton_append, hw, hw]
      exact append_left_lt hkey

theorem strverscmp_total_order_nine_ten : strverscmp [⟨118, by decide⟩, ⟨57, by decide⟩]
      [⟨118, by decide⟩, ⟨49, by decide⟩, ⟨48, by decide⟩] < 0 :=
  strverscmp_total_order.2.2.2.2 [⟨118, by decide⟩] [⟨57, by decide⟩]
    [⟨49, by decide⟩, ⟨48, by decide⟩] (by rintro _ ⟨⟩; rfl) (by decide) (by decide) (by decide)

end SmallOS.Libc
