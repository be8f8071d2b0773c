import Mathlib.Data.UInt

/-! Serial numbers: 32-bit counters that wrap, compared by the sign of their difference. The
lemmas turn differences of counters that started at one number into differences of the
natural numbers they stand for. -/

namespace SmallOS.Serial

open UInt32

variable {m n : Nat}

def before (a b : UInt32) : Bool := 2147483648 ≤ (a - b).toNat

def after (a b : UInt32) : Bool := 0 < (a - b).toNat && (a - b).toNat < 2147483648

theorem add_ofNat (s : UInt32) (m n : Nat) :
    s + UInt32.ofNat (m + n) = s + UInt32.ofNat m + UInt32.ofNat n := by
  rw [ofNat_add, UInt32.add_assoc]

theorem add_sub_self (s d : UInt32) : s + d - s = d := by
  rw [UInt32.add_comm, UInt32.add_sub_cancel]

theorem toNat_ofNat_of_lt (h : n < 4294967296) : (UInt32.ofNat n).toNat = n := by
  rw [toNat_ofNat', Nat.mod_eq_of_lt h]

theorem toNat_add_sub (s : UInt32) (h : n < 4294967296) : (s + UInt32.ofNat n - s).toNat = n := by
  rw [add_sub_self, toNat_ofNat_of_lt h]

theorem toNat_sub_of_le (s : UInt32) (le : m ≤ n) (h : n < m + 4294967296) :
    (s + UInt32.ofNat n - (s + UInt32.ofNat m)).toNat = n - m := by
  rw [← Nat.add_sub_cancel' le, add_ofNat, toNat_add_sub _ (by omega), Nat.add_sub_cancel_left]

theorem eq_add_ofNat (a b : UInt32) : a = b + UInt32.ofNat (a - b).toNat := by
  rw [UInt32.ofNat_toNat, UInt32.add_comm, UInt32.sub_add_cancel]

theorem eq_of_add_eq {s : UInt32} (same : s + UInt32.ofNat m = s + UInt32.ofNat n)
    (le : n < m + 4294967296) (ge : m < n + 4294967296) : m = n := by
  have key : m % 4294967296 = n % 4294967296 := by
    have := congrArg (fun a => (a - s).toNat) same
    simpa only [add_sub_self, toNat_ofNat'] using this
  omega

def reached (a b : UInt32) : Bool := !before a b

theorem reached_iff (le : m ≤ n + 2147483648) (lt : n < m + 2147483648) :
    reached (UInt32.ofNat n) (UInt32.ofNat m) = true ↔ m ≤ n := by
  simp only [reached, before, Bool.not_eq_true', decide_eq_false_iff_not, UInt32.toNat_sub,
    toNat_ofNat']
  omega

end SmallOS.Serial
