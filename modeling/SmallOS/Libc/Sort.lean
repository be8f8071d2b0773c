import Mathlib.Data.List.FinRange
import Mathlib.Data.Nat.Log
import SmallOS.Lib.Bytes
import SmallOS.Lib.Splice

/-! Sorting and searching of the C library. An array lies in memory, and the comparison function
sees the bytes of two elements. -/

namespace SmallOS.Libc

open Bytes Splice List

section

variable (compar : List UInt8 → List UInt8 → Int) (size base : Nat)

def elem (m : Buf) (i : Nat) : List UInt8 := tabulate size (m.shift (base + i * size))

def elems (n : Nat) (m : Buf) : List (List UInt8) := ofFn fun i : Fin n => elem size base m i

/-- The three copies of `qsort`, through the buffer that it allocates. -/
def exchange (m : Buf) (i j : Nat) : Buf :=
  let tmp := elem size base m i
  let m := copy m (base + i * size) size (m.shift (base + j * size))
  copy m (base + j * size) size (ofList tmp)

def sortAgainst (i : Nat) : (rounds j : Nat) → Buf → Buf
  | 0, _, m => m
  | rounds + 1, j, m => sortAgainst i rounds (j + 1)
      (if compar (elem size base m i) (elem size base m j) > 0 then exchange size base m i j else m)

def sortFrom : (rounds i : Nat) → Buf → Buf
  | 0, _, m => m
  | rounds + 1, i, m => sortFrom rounds (i + 1) (sortAgainst compar size base i rounds (i + 1) m)

/-- `tmp` tells whether the buffer could be allocated. -/
def qsort (tmp : Bool) (nmemb : Nat) (m : Buf) : Buf :=
  if tmp then sortFrom compar size base nmemb 0 m else m

def searchFrom (key : List UInt8) (m : Buf) (lo hi : Nat) : Option Nat × Nat :=
  if lo < hi then
    let mid := lo + (hi - lo) / 2
    let cmp := compar key (elem size base m mid)
    if cmp < 0 then (searchFrom key m lo mid).map id (· + 1)
    else if cmp > 0 then (searchFrom key m (mid + 1) hi).map id (· + 1)
    else (some (base + mid * size), 1)
  else (none, 0)
  termination_by hi - lo

def bsearch (key : List UInt8) (nmemb : Nat) (m : Buf) : Option Nat × Nat :=
  searchFrom compar size base key m 0 nmemb

end

structure TotalPreorder (compar : List UInt8 → List UInt8 → Int) : Prop where
  flip : ∀ x y, compar x y < 0 ↔ 0 < compar y x
  trans : ∀ x y z, compar x y ≤ 0 → compar y z ≤ 0 → compar x z ≤ 0

variable {compar : List UInt8 → List UInt8 → Int} {size base n rounds i j : Nat} {m m₀ : Buf}

theorem elem_fits (size : Nat) (h : i < j) : i * size + size ≤ j * size := by
  rw [← Nat.succ_mul]
  exact Nat.mul_le_mul_right _ h

theorem elem_exchange (h : i < j) (k : Nat) : elem size base (exchange size base m i j) k =
    elem size base m (if k = i then j else if k = j then i else k) := by
  refine map_congr_left fun q hq => ?_
  have hq := mem_range.mp hq
  have hij := elem_fits size h
  change exchange size base m i j (base + k * size + q) = m (base + _ * size + q)
  unfold exchange
  split_ifs with hi hj
  · rw [hi, copy_of_outside (by omega), copy_of_inside (by omega) (by omega),
      Nat.add_sub_cancel_left]
    rfl
  · rw [hj, copy_of_inside (by omega) (by omega), Nat.add_sub_cancel_left]
    exact (getD_tabulate 0 ..).trans (if_pos hq)
  · have := (Nat.lt_or_gt_of_ne hi).imp (elem_fits size) (elem_fits size)
    have := (Nat.lt_or_gt_of_ne hj).imp (elem_fits size) (elem_fits size)
    rw [copy_of_outside (by omega), copy_of_outside (by omega)]

theorem elems_exchange (h : i < j) (hj : j < n) :
    elems size base n (exchange size base m i j) ~ elems size base n m := by
  let swap := Equiv.swap (⟨i, h.trans hj⟩ : Fin n) ⟨j, hj⟩
  have hswap : elems size base n (exchange size base m i j) =
      ofFn ((fun k : Fin n => elem size base m k) ∘ swap) := by
    refine congrArg ofFn (funext fun k => ?_)
    simp only [elem_exchange h, swap, Function.comp_apply, Equiv.swap_apply_def, Fin.ext_iff]
    split_ifs <;> rfl
  rw [hswap]
  exact Equiv.Perm.ofFn_comp_perm _ _

/-- The array `m` has come from `m₀`: the elements before `i` are in order with all behind them,
and element `i` with those before `j`. -/
structure SortedTo (compar : List UInt8 → List UInt8 → Int) (size base n i j : Nat) (m₀ m : Buf) :
    Prop where
  perm : elems size base n m ~ elems size base n m₀
  outside : ∀ q, q < base ∨ base + n * size ≤ q → m q = m₀ q
  done : ∀ p < i, ∀ q, p < q → q < n → compar (elem size base m p) (elem size base m q) ≤ 0
  least : ∀ q, i < q → q < j → compar (elem size base m i) (elem size base m q) ≤ 0

section

variable (order : TotalPreorder compar)
include order

theorem SortedTo.exchange (hij : i < j) (hj : j < n) (h : SortedTo compar size base n i j m₀ m)
    (hgt : compar (elem size base m i) (elem size base m j) > 0) :
    SortedTo compar size base n i (j + 1) m₀ (exchange size base m i j) := by
  have hback := ((order.flip _ _).mpr hgt).le
  refine ⟨(elems_exchange hij hj).trans h.perm, fun q hq => ?_, fun p hp q hpq hq => ?_,
    fun q hiq hqj => ?_⟩
  · have := elem_fits size hij
    have := elem_fits size hj
    rw [← h.outside q hq]
    exact (copy_of_outside (by omega)).trans (copy_of_outside (by omega))
  · rw [elem_exchange hij, elem_exchange hij, if_neg hp.ne, if_neg (hp.trans hij).ne]
    exact h.done p hp _ (by split_ifs <;> omega) (by split_ifs <;> omega)
  · rw [elem_exchange hij, elem_exchange hij, if_pos rfl, if_neg hiq.ne']
    split_ifs
    · exact hback
    · exact order.trans _ _ _ hback (h.least q hiq (by omega))

theorem sortAgainst_sorts (hij : i < j) (hn : j + rounds = n)
    (h : SortedTo compar size base n i j m₀ m) :
    SortedTo compar size base n i n m₀ (sortAgainst compar size base i rounds j m) := by
  induction rounds generalizing j m with
  | zero => exact hn ▸ h
  | succ rounds ih =>
    refine ih (by omega) (by omega) ?_
    split_ifs with hgt
    · exact h.exchange order hij (by omega) hgt
    · refine ⟨h.perm, h.outside, h.done, fun q hiq hqj => ?_⟩
      obtain hlt | rfl := Nat.lt_succ_iff_lt_or_eq.mp hqj
      · exact h.least q hiq hlt
      · exact not_lt.mp hgt

theorem sortFrom_sorts (hn : i + rounds = n) (h : SortedTo compar size base n i (i + 1) m₀ m) :
    SortedTo compar size base n n (n + 1) m₀ (sortFrom compar size base rounds i m) := by
  induction rounds generalizing i m with
  | zero => exact hn ▸ h
  | succ rounds ih =>
    have hlast : i + 1 + rounds = n := by omega
    have hinner := sortAgainst_sorts order (Nat.lt_succ_self i) hlast h
    refine ih hlast ⟨hinner.perm, hinner.outside, fun p hp q hpq hq => ?_, by omega⟩
    obtain hlt | rfl := Nat.lt_succ_iff_lt_or_eq.mp hp
    · exact hinner.done p hlt q hpq hq
    · exact hinner.least q hpq hq

section

variable (key : List UInt8) (h : (elems size base n m).Pairwise (compar · · ≤ 0))
include h

theorem key_sides (hij : i ≤ j) (hj : j < n) :
    (compar key (elem size base m i) < 0 → compar key (elem size base m j) < 0) ∧
      (0 < compar key (elem size base m j) → 0 < compar key (elem size base m i)) := by
  have hle : compar (elem size base m i) (elem size base m j) ≤ 0 := by
    obtain rfl | hlt := eq_or_lt_of_le hij
    · have := order.flip (elem size base m i) (elem size base m i)
      omega
    · exact pairwise_ofFn.mp h (i := ⟨i, hlt.trans hj⟩) (j := ⟨j, hj⟩) hlt
  have hflip := order.flip key (elem size base m i)
  have hflip' := order.flip key (elem size base m j)
  have htrans := order.trans _ _ key hle
  have htrans' := (order.trans key _ _ · hle)
  omega

theorem searchFrom_finds {lo hi : Nat} (hhi : hi ≤ n) :
    (∀ a, (searchFrom compar size base key m lo hi).1 = some a →
      ∃ k < n, a = base + k * size ∧ compar key (elem size base m k) = 0) ∧
    ((searchFrom compar size base key m lo hi).1 = none →
      ∀ k, lo ≤ k → k < hi → compar key (elem size base m k) ≠ 0) ∧
    2 ^ (searchFrom compar size base key m lo hi).2 ≤ max 1 (2 * (hi - lo)) := by
  fun_induction searchFrom compar size base key m lo hi with
  | case1 lo hi hlt mid cmp hneg ih =>
    obtain ⟨hsome, hnone, hcount⟩ := ih (by omega)
    refine ⟨hsome, fun hn k hlo hk => ?_, by simp only [Prod.map, pow_succ]; omega⟩
    by_cases hmid : k < mid
    · exact hnone hn k hlo hmid
    · exact ((key_sides order key h (not_lt.mp hmid) (by omega)).1 hneg).ne
  | case2 lo hi hlt mid cmp hneg hpos ih =>
    obtain ⟨hsome, hnone, hcount⟩ := ih hhi
    refine ⟨hsome, fun hn k hlo hk => ?_, by simp only [Prod.map, pow_succ]; omega⟩
    by_cases hmid : mid < k
    · exact hnone hn k hmid hk
    · exact ((key_sides order key h (not_lt.mp hmid) (by omega)).2 hpos).ne'
  | case3 lo hi hlt mid cmp hneg hpos =>
    exact ⟨fun a ha => ⟨mid, by omega, (Option.some.inj ha).symm, by omega⟩, nofun, by grind⟩
  | case4 lo hi hlt => exact ⟨nofun, fun _ k _ _ => by omega, by simp⟩

end

theorem qsort_sorts_bsearch_finds (size base nmemb : Nat) (m : Buf) :
    let sorted := qsort compar size base true nmemb m
    let found := fun key => bsearch compar size base key nmemb m
    (elems size base nmemb sorted ~ elems size base nmemb m ∧
      (elems size base nmemb sorted).Pairwise (compar · · ≤ 0) ∧
      ∀ q, q < base ∨ base + nmemb * size ≤ q → sorted q = m q) ∧
    ((elems size base nmemb m).Pairwise (compar · · ≤ 0) → ∀ key, (∀ a, (found key).1 = some a →
        ∃ k < nmemb, a = base + k * size ∧ compar key (elem size base m k) = 0) ∧
      ((found key).1 = none → ∀ k < nmemb, compar key (elem size base m k) ≠ 0) ∧
      (1 ≤ nmemb → (found key).2 ≤ Nat.log 2 nmemb + 1)) := by
  have hstart : SortedTo compar size base nmemb 0 1 m m :=
    ⟨.refl _, fun _ _ => rfl, by omega, by omega⟩
  have hsorted := sortFrom_sorts order (Nat.zero_add nmemb) hstart
  refine ⟨⟨hsorted.perm, pairwise_ofFn.mpr fun p q hpq => hsorted.done p p.2 q hpq q.2,
    hsorted.outside⟩, fun h key => ?_⟩
  obtain ⟨hsome, hnone, hcount⟩ := searchFrom_finds order key h (Nat.le_refl nmemb)
  refine ⟨hsome, fun hn k hk => hnone hn k k.zero_le hk, fun hpos => ?_⟩
  rw [← Nat.log_mul_base (by decide) (by omega)]
  exact Nat.le_log_of_pow_le (by decide) (hcount.trans (by omega))

end

def byFirst (x y : List UInt8) : Int := (x.headD 0).toNat - (y.headD 0).toNat

theorem qsort_sorts_bsearch_finds_bytes :
    (bsearch byFirst 1 0 [2] 3 ⟨UInt8.ofNat⟩).2 ≤ Nat.log 2 3 + 1 :=
  have order : TotalPreorder byFirst := by constructor <;> unfold byFirst <;> omega
  ((qsort_sorts_bsearch_finds order 1 0 3 ⟨UInt8.ofNat⟩).2 (by decide) [2]).2.2 (by decide)

end SmallOS.Libc
