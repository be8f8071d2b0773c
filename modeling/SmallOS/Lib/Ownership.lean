import Mathlib.Algebra.Notation.Defs
import Mathlib.Logic.Function.Basic

/-! Unique ownership. A map from places to resources, where zero means that the place is empty, owns
its resources when each of them is live and sits in one place only. -/

namespace SmallOS.Ownership

variable {κ ι σ β : Type} [Zero β]

structure Owns (live : β → Prop) (m : κ → β) : Prop where
  live : ∀ k, m k ≠ 0 → live (m k)
  inj : ∀ k l, m k ≠ 0 → m k = m l → k = l

variable {live live' : β → Prop}

theorem Owns.mono {m : κ → β} (h : Owns live m) (le : ∀ b, live b → live' b) : Owns live' m :=
  ⟨fun k hk => le _ (h.live k hk), h.inj⟩

theorem Owns.restrict {m m' : κ → β} (h : Owns live m)
    (sub : ∀ k, m' k = 0 ∨ m' k = m k) (left : ∀ k, m' k ≠ 0 → live' (m' k)) : Owns live' m' := by
  refine ⟨left, fun k l hk hkl => ?_⟩
  have hk' : m' k = m k := (sub k).resolve_left hk
  have hl' : m' l = m l := (sub l).resolve_left (hkl ▸ hk)
  exact h.inj k l (hk' ▸ hk) (by rw [← hk', hkl, hl'])

/-- Replace the places of owner `i`. What it holds now it held before or was not live. -/
theorem Owns.replace {m m' : ι × σ → β} (h : Owns live m) (i : ι)
    (same : ∀ j s, j ≠ i → m' (j, s) = m (j, s))
    (keep : ∀ j s, j ≠ i → m (j, s) ≠ 0 → live' (m (j, s)))
    (own : ∀ s, m' (i, s) ≠ 0 → live' (m' (i, s)))
    (origin : ∀ s, m' (i, s) ≠ 0 → (∃ t, m (i, t) = m' (i, s)) ∨ ¬live (m' (i, s)))
    (inj : ∀ s t, m' (i, s) ≠ 0 → m' (i, s) = m' (i, t) → s = t) : Owns live' m' := by
  have apart : ∀ j s t, j ≠ i → m' (i, s) ≠ 0 → m' (i, s) ≠ m' (j, t) := by
    intro j s t hj hs heq
    rw [same j t hj] at heq
    obtain ⟨r, hr⟩ | hfree := origin s hs
    · have := h.inj (i, r) (j, t) (hr ▸ hs) (hr.trans heq)
      exact hj (congrArg Prod.fst this).symm
    · exact hfree (heq ▸ h.live (j, t) (heq ▸ hs))
  constructor
  · rintro ⟨j, s⟩ hs
    by_cases hj : j = i
    · subst hj
      exact own s hs
    · rw [same j s hj] at hs ⊢
      exact keep j s hj hs
  · rintro ⟨j, s⟩ ⟨l, t⟩ hs heq
    by_cases hj : j = i
    · by_cases hl : l = i
      · subst hj hl
        rw [inj s t hs heq]
      · subst hj
        exact absurd heq (apart l s t hl hs)
    · by_cases hl : l = i
      · subst hl
        exact absurd heq.symm (apart j t s hj (heq ▸ hs))
      · rw [same j s hj] at hs
        rw [same j s hj, same l t hl] at heq
        exact h.inj _ _ hs heq

end SmallOS.Ownership
