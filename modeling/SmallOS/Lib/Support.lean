import Mathlib.Algebra.Notation.Support
import Mathlib.Data.Set.Card

/-! Tables with a number in every place, zero for an empty place. One table extends another when it
keeps every entry that is there. -/

namespace SmallOS.Support

open Function Finset Set

variable {σ : Type*} {t t' t'' : σ → Nat}

def Extends (t t' : σ → Nat) : Prop := ∀ s, t s ≠ 0 → t' s = t s

def added (t t' : σ → Nat) : Set σ := {s | t s = 0 ∧ t' s ≠ 0}

noncomputable def weight (t : σ → Nat) : Nat := (support t).ncard

@[simp] theorem added_self (t : σ → Nat) : added t t = ∅ := by
  ext s
  simp [added]

theorem added_update [DecidableEq σ] {s : σ} {b : Nat} (h0 : t s = 0) (hb : b ≠ 0) :
    added t (update t s b) = {s} := by
  ext r
  by_cases hr : r = s
  · simp [added, hr, h0, hb]
  · simp [added, hr]

theorem Extends.support_eq (h : Extends t t') : support t' = support t ∪ added t t' := by
  ext s
  by_cases hs : t s = 0
  · simp [added, hs]
  · simp [added, hs, h s hs]

theorem added_subset_support (t t' : σ → Nat) : added t t' ⊆ support t' :=
  fun _ hs => hs.2

theorem Extends.weight_eq (h : Extends t t') (hfin : (support t').Finite) :
    weight t' = weight t + (added t t').ncard := by
  have hadd : (added t t').Finite := hfin.subset (added_subset_support t t')
  have hold : (support t).Finite := hfin.subset (h.support_eq ▸ Set.subset_union_left)
  rw [weight, h.support_eq]
  exact ncard_union_eq (Set.disjoint_left.mpr fun _ hs hadd => hs hadd.1) hold hadd

theorem added_trans (h : Extends t t') (k : Extends t' t'') :
    added t t'' = added t t' ∪ added t' t'' := by
  ext s
  by_cases h0 : t s = 0
  · by_cases h1 : t' s = 0
    · simp [added, h0, h1]
    · simp [added, h0, h1, k s h1]
  · simp [added, h0, h s h0]

theorem ncard_added_trans (h : Extends t t') (k : Extends t' t'') (hfin : (support t'').Finite) :
    (added t t'').ncard = (added t t').ncard + (added t' t'').ncard := by
  have hsub : added t t' ∪ added t' t'' ⊆ support t'' :=
    added_trans h k ▸ added_subset_support t t''
  rw [added_trans h k]
  refine ncard_union_eq ?_ (hfin.subset (Set.subset_union_left.trans hsub))
    (hfin.subset (Set.subset_union_right.trans hsub))
  exact Set.disjoint_left.mpr fun s h1 h2 => h1.2 h2.1

section Bounded

variable {B : Nat} (hlt : ∀ s, t s < B)

include hlt

theorem support_mapsTo : Set.MapsTo t (support t) (Finset.range B) :=
  fun s _ => mem_coe.mpr (Finset.mem_range.mpr (hlt s))

variable (hinj : ∀ s r, t s ≠ 0 → t s = t r → s = r)

include hinj

theorem finite_support : (support t).Finite :=
  Set.Finite.of_injOn (support_mapsTo hlt) (fun s hs r _ heq => hinj s r hs heq) (finite_toSet _)

theorem weight_le : weight t ≤ B := by
  have hle := ncard_le_ncard_of_injOn t (support_mapsTo hlt)
    (fun s hs r _ heq => hinj s r hs heq) (finite_toSet _)
  rwa [ncard_coe_finset, card_range] at hle

end Bounded

end SmallOS.Support
