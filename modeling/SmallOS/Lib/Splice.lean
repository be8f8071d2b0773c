import Mathlib.Data.List.GetD
import Mathlib.Tactic.SplitIfs

/-! Growable arrays with a default element: a write past the end fills the gap with it, a resize
cuts or fills. -/

namespace SmallOS.Splice

open List

variable {α : Type} (z : α)

def overwrite (xs : List α) (off : Nat) (ys : List α) : List α :=
  (xs ++ List.replicate (off - xs.length) z).take off ++ ys ++ xs.drop (off + ys.length)

def resize (xs : List α) (n : Nat) : List α := xs.take n ++ List.replicate (n - xs.length) z

def tabulate (n : Nat) (f : Nat → α) : List α := (List.range n).map f

theorem eq_of_getD {xs ys : List α} (hlen : xs.length = ys.length)
    (h : ∀ q, xs.getD q z = ys.getD q z) : xs = ys := by
  refine ext_getElem hlen fun i h1 h2 => ?_
  have hi := h i
  rwa [getD_eq_getElem _ _ h1, getD_eq_getElem _ _ h2] at hi

theorem length_overwrite (xs : List α) (off : Nat) (ys : List α) :
    (overwrite z xs off ys).length = max xs.length (off + ys.length) := by
  simp only [overwrite, length_append, length_take, length_replicate, length_drop]
  omega

theorem length_resize (xs : List α) (n : Nat) : (resize z xs n).length = n := by
  simp only [resize, length_append, length_take, length_replicate]
  omega

theorem length_tabulate (n : Nat) (f : Nat → α) : (tabulate n f).length = n := by
  simp only [tabulate, length_map, length_range]

theorem getD_filling (n q : Nat) : (List.replicate n z).getD q z = z := by
  rw [getD_eq_getElem?_getD, getElem?_getD_replicate_default_eq]

theorem getD_append (xs ys : List α) (q : Nat) :
    (xs ++ ys).getD q z = if q < xs.length then xs.getD q z else ys.getD (q - xs.length) z := by
  split_ifs with h
  · rw [List.getD_append _ _ _ _ h]
  · rw [getD_append_right _ _ _ _ (by omega)]

theorem getD_take (xs : List α) (n q : Nat) :
    (xs.take n).getD q z = if q < n then xs.getD q z else z := by
  simp only [getD_eq_getElem?_getD, getElem?_take]
  split_ifs <;> rfl

theorem getD_drop (xs : List α) (n q : Nat) : (xs.drop n).getD q z = xs.getD (n + q) z := by
  simp only [getD_eq_getElem?_getD, getElem?_drop]

theorem getD_overwrite (xs : List α) (off : Nat) (ys : List α) (q : Nat) :
    (overwrite z xs off ys).getD q z =
      if off ≤ q ∧ q < off + ys.length then ys.getD (q - off) z else xs.getD q z := by
  have hlen : ((xs ++ replicate (off - xs.length) z).take off).length = off := by
    simp only [length_take, length_append, length_replicate]
    omega
  rw [overwrite, getD_append, getD_append, length_append, hlen]
  by_cases h1 : q < off
  · -- before the write: the old array and the filling
    rw [if_pos (by omega), if_pos h1, if_neg (by omega), getD_take, if_pos h1, getD_append]
    split_ifs with h
    · rfl
    · rw [getD_filling, getD_eq_default _ _ (by omega)]
  · by_cases h2 : q < off + ys.length
    · rw [if_pos h2, if_neg h1, if_pos (by omega)]
    · rw [if_neg h2, if_neg (by omega), getD_drop, Nat.add_sub_cancel' (by omega)]

theorem getD_resize (xs : List α) (n q : Nat) :
    (resize z xs n).getD q z = if q < n then xs.getD q z else z := by
  rw [resize, getD_append, getD_take, getD_filling, length_take]
  by_cases h : q < n
  · rw [if_pos h]
    split_ifs with h'
    · rfl
    · rw [getD_eq_default _ _ (by omega)]
  · rw [if_neg h, ite_self]

theorem getD_tabulate (n : Nat) (f : Nat → α) (q : Nat) :
    (tabulate n f).getD q z = if q < n then f q else z := by
  split_ifs with h
  · rw [getD_eq_getElem _ _ (by rw [length_tabulate]; exact h)]
    simp only [tabulate, getElem_map, getElem_range]
  · rw [getD_eq_default _ _ (by rw [length_tabulate]; omega)]

end SmallOS.Splice
