import Mathlib.Data.List.Basic

/-! Ring buffers. A ring is a function of cells with a head and a length; `items` is the queue it
stands for. -/

namespace SmallOS.Ring

open List Nat

variable {head len n pos : Nat} {α : Type*} {cap : Nat} {f g h : Nat → α}

def items (cap : Nat) (f : Nat → α) (head len : Nat) : List α :=
  (List.range len).map fun i => f ((head + i) % cap)

@[simp] theorem length_items (head len : Nat) : (items cap f head len).length = len := by
  simp [items]

@[simp] theorem items_zero (head : Nat) : items cap f head 0 = [] := rfl

@[simp] theorem items_mod (head len : Nat) :
    items cap f (head % cap) len = items cap f head len := by
  simp [items, mod_add_mod]

theorem items_add (head m n : Nat) :
    items cap f head (m + n) = items cap f head m ++ items cap f (head + m) n := by
  simp [items, range_add, Nat.add_assoc, Function.comp_def]

theorem items_one (head : Nat) : items cap f head 1 = [f (head % cap)] := by
  simp [items]

theorem items_take (le : n ≤ len) : (items cap f head len).take n = items cap f head n := by
  obtain ⟨k, rfl⟩ := Nat.exists_eq_add_of_le le
  rw [items_add, take_left' (length_items _ _)]

theorem items_drop (le : n ≤ len) :
    (items cap f head len).drop n = items cap f (head + n) (len - n) := by
  obtain ⟨k, rfl⟩ := Nat.exists_eq_add_of_le le
  rw [items_add, drop_left' (length_items _ _), Nat.add_sub_cancel_left]

theorem items_congr (same : ∀ i, i < len → f ((head + i) % cap) = g ((head + i) % cap)) :
    items cap f head len = items cap g head len :=
  map_congr_left fun i hi => same i (mem_range.mp hi)

theorem cell_ne {i j : Nat} (lt : i < j) (le : j < i + cap) :
    (head + i) % cap ≠ (head + j) % cap := by
  intro same
  have key : (j - i) % cap = 0 := by
    rw [show j - i = head + j - (head + i) by omega]
    exact sub_mod_eq_zero_of_mod_eq same.symm
  rw [mod_eq_of_lt (by omega)] at key
  omega

structure Stored (cap : Nat) (f g : Nat → α) (pos : Nat) (xs : List α) : Prop where
  items : items cap g pos xs.length = xs
  other : ∀ j, (∀ i, i < xs.length → j ≠ (pos + i) % cap) → g j = f j

theorem Stored.nil (pos : Nat) : Stored cap f f pos [] := ⟨rfl, fun _ _ => rfl⟩

theorem Stored.one (pos : Nat) (x : α) :
    Stored cap f (Function.update f (pos % cap) x) pos [x] := by
  refine ⟨by simp [items_one], fun j hj => ?_⟩
  exact Function.update_of_ne (by simpa using hj 0 (by simp)) _ _

theorem Stored.append {xs ys : List α} (first : Stored cap f g pos xs)
    (second : Stored cap g h (pos + xs.length) ys) (fits : xs.length + ys.length ≤ cap) :
    Stored cap f h pos (xs ++ ys) := by
  constructor
  · rw [length_append, items_add, second.items]
    congr 1
    refine (items_congr fun i hi => ?_).trans first.items
    refine second.other _ fun j hj => ?_
    rw [Nat.add_assoc]
    exact cell_ne (by omega) (by omega)
  · intro j hj
    rw [length_append] at hj
    rw [second.other j fun i hi => by rw [Nat.add_assoc]; exact hj _ (by omega)]
    exact first.other j fun i hi => hj i (by omega)

theorem Stored.of_mod {xs : List α} (st : Stored cap f g (pos % cap) xs) : Stored cap f g pos xs :=
  ⟨by simpa using st.items, fun j hj => st.other j (by simpa using hj)⟩

theorem Stored.queue {xs : List α} (st : Stored cap f g (head + len) xs)
    (fits : len + xs.length ≤ cap) :
    Ring.items cap g head (len + xs.length) = Ring.items cap f head len ++ xs := by
  rw [items_add, st.items]
  congr 1
  refine items_congr fun i hi => st.other _ fun j hj => ?_
  rw [Nat.add_assoc]
  exact cell_ne (by omega) (by omega)

end SmallOS.Ring
