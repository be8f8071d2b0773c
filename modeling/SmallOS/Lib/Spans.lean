import Mathlib.Data.List.DropRight

/-! The longest prefix of a list with a property, and what is behind it. -/

namespace SmallOS.Spans

open List

variable {α : Type} {p : α → Bool} {a : α} {as : List α}

theorem head_dropWhile {l : List α} (h : l.dropWhile p = a :: as) : p a = false := by
  have := head?_dropWhile_not p l
  rwa [h] at this

theorem span_stop (ha : p a = false) (l as : List α) : (l ++ a :: as).takeWhile p = l.takeWhile p ∧
      (l ++ a :: as).dropWhile p = l.dropWhile p ++ a :: as := by
  induction l with
  | nil => simp [ha]
  | cons b l ih => by_cases hb : p b = true <;> simp [hb, ih]

theorem rspan_stop (ha : p a = false) (has : ∀ b ∈ as, p b = true) (l : List α) :
    (l ++ a :: as).rtakeWhile p = as ∧ (l ++ a :: as).rdropWhile p = l ++ [a] := by
  have hall : ∀ b ∈ as.reverse, p b = true := fun b hb => has b (mem_reverse.mp hb)
  have hrev : (l ++ a :: as).reverse = as.reverse ++ a :: l.reverse := by simp
  obtain ⟨htake, hdrop⟩ := span_stop ha as.reverse l.reverse
  rw [rtakeWhile, rdropWhile, hrev, htake, hdrop, takeWhile_eq_self_iff.mpr hall,
    dropWhile_eq_nil_iff.mpr hall]
  simp

end SmallOS.Spans
