import Mathlib.Data.List.Basic
import Mathlib.Data.List.Find

/-! Lists of items that each occupy a range of addresses. The first item over an
address gives the address its value, so such a list stands for a finite map. Cutting
an item in two and joining two neighbours change the list and keep the map. -/

namespace SmallOS.Ranges

open List Option

variable {e p s : Nat}

class Ranged (α : Type) where
  lo : α → Nat
  hi : α → Nat

export Ranged (lo hi)

variable {α β γ : Type} [Ranged α]

def Covers (a : α) (p : Nat) : Prop := lo a ≤ p ∧ p < hi a

instance (a : α) (p : Nat) : Decidable (Covers a p) := inferInstanceAs (Decidable (_ ∧ _))

def Apart (l : List α) : Prop := l.Pairwise fun a b => hi a ≤ lo b

def find (l : List α) (p : Nat) : Option α := l.find? fun a => Covers a p

theorem find_cons (a : α) (l : List α) (p : Nat) :
    find (a :: l) p = if Covers a p then some a else find l p := by
  unfold find
  by_cases h : Covers a p
  · simp [h]
  · simp [h]

variable {l k : List α} {a b c : α}

theorem find_some (h : find l p = some a) : a ∈ l ∧ Covers a p :=
  ⟨mem_of_find?_eq_some h, by simpa using find?_some h⟩

theorem find_of_mem (apart : Apart l) (ha : a ∈ l) (hp : Covers a p) : find l p = some a := by
  induction l with
  | nil => cases ha
  | cons b l ih =>
    obtain ⟨hb, hl⟩ := pairwise_cons.mp apart
    rw [find_cons]
    rcases mem_cons.mp ha with rfl | ha
    · rw [if_pos hp]
    · have hbp : ¬Covers b p := by
        intro hc
        have := hb a ha
        have := hp.1
        have := hc.2
        omega
      rw [if_neg hbp, ih hl ha]

def value (f : α → Nat → β) (l : List α) (p : Nat) : Option β := (find l p).map (f · p)

@[simp] theorem value_nil (f : α → Nat → β) (p : Nat) : value f [] p = none := rfl

theorem value_cons (f : α → Nat → β) (a : α) (l : List α) (p : Nat) :
    value f (a :: l) p = if Covers a p then some (f a p) else value f l p := by
  unfold value
  rw [find_cons]
  split <;> rfl

theorem value_append (f : α → Nat → β) (l k : List α) (p : Nat) :
    value f (l ++ k) p = (value f l p).or (value f k p) := by
  induction l with
  | nil => simp
  | cons a l ih =>
    rw [cons_append, value_cons, value_cons, ih]
    split <;> simp

theorem value_none {f : α → Nat → β} : value f l p = none ↔ ∀ a ∈ l, ¬Covers a p := by
  simp [value, find]

structure Same (f : α → Nat → β) (l l' : List α) : Prop where
  apart : Apart l → Apart l'
  above : ∀ x, (∀ a ∈ l, x ≤ lo a) → ∀ a ∈ l', x ≤ lo a
  value : ∀ p, value f l' p = value f l p

variable {f : α → Nat → β}

theorem Same.refl (l : List α) : Same f l l := ⟨id, fun _ => id, fun _ => rfl⟩

theorem Same.trans {m : List α} (h : Same f l k) (h' : Same f k m) : Same f l m where
  apart := h'.apart ∘ h.apart
  above x hx := h'.above x (h.above x hx)
  value p := (h'.value p).trans (h.value p)

theorem Same.cons {l' : List α} (a : α) (h : Same f l l') : Same f (a :: l) (a :: l') where
  apart ha := by
    obtain ⟨hb, hl⟩ := pairwise_cons.mp ha
    exact pairwise_cons.mpr ⟨h.above _ hb, h.apart hl⟩
  above x hx := by
    intro b hb
    rcases mem_cons.mp hb with rfl | hb
    · exact hx b mem_cons_self
    · exact h.above x (fun c hc => hx c (mem_cons_of_mem a hc)) b hb
  value p := by rw [value_cons, value_cons, h.value p]

structure Cut (f : α → Nat → β) (a b c : α) : Prop where
  first : lo b = lo a
  middle : hi b = lo c
  last : hi c = hi a
  nonempty : lo b ≤ hi b ∧ lo c ≤ hi c
  left : ∀ p, Covers b p → f b p = f a p
  right : ∀ p, Covers c p → f c p = f a p

theorem Cut.covers (h : Cut f a b c) (p : Nat) : Covers a p ↔ Covers b p ∨ Covers c p := by
  have h1 := h.first
  have h2 := h.middle
  have h3 := h.last
  obtain ⟨h4, h5⟩ := h.nonempty
  unfold Covers
  omega

theorem Cut.value (h : Cut f a b c) (l : List α) (p : Nat) :
    value f (b :: c :: l) p = value f (a :: l) p := by
  rw [value_cons, value_cons, value_cons]
  by_cases hb : Covers b p
  · rw [if_pos hb, if_pos ((h.covers p).mpr (.inl hb)), h.left p hb]
  · by_cases hc : Covers c p
    · rw [if_neg hb, if_pos hc, if_pos ((h.covers p).mpr (.inr hc)), h.right p hc]
    · have ha : ¬Covers a p := by rw [h.covers p]; tauto
      rw [if_neg hb, if_neg hc, if_neg ha]

theorem Cut.split (h : Cut f a b c) (l : List α) : Same f (a :: l) (b :: c :: l) where
  apart ha := by
    obtain ⟨hl, rest⟩ := pairwise_cons.mp ha
    have := h.middle
    have := h.last
    have := h.nonempty
    refine pairwise_cons.mpr ⟨?_, pairwise_cons.mpr ⟨?_, rest⟩⟩
    · intro d hd
      rcases mem_cons.mp hd with rfl | hd
      · omega
      · have := hl d hd
        omega
    · intro d hd
      have := hl d hd
      omega
  above x hx := by
    have := hx a mem_cons_self
    have := h.first
    have := h.middle
    have := h.nonempty
    intro d hd
    simp only [mem_cons] at hd
    rcases hd with rfl | rfl | hd
    · omega
    · omega
    · exact hx d (mem_cons_of_mem a hd)
  value p := h.value l p

theorem Cut.join (h : Cut f a b c) (l : List α) : Same f (b :: c :: l) (a :: l) where
  apart hb := by
    obtain ⟨-, hc⟩ := pairwise_cons.mp hb
    obtain ⟨hl, rest⟩ := pairwise_cons.mp hc
    refine pairwise_cons.mpr ⟨fun d hd => ?_, rest⟩
    have := hl d hd
    have := h.last
    omega
  above x hx := by
    have := hx b mem_cons_self
    have := h.first
    intro d hd
    rcases mem_cons.mp hd with rfl | hd
    · omega
    · exact hx d (mem_cons_of_mem b (mem_cons_of_mem c hd))
  value p := (h.value l p).symm

def CutAt (x : Nat) (l : List α) : Prop := ∀ a ∈ l, hi a ≤ x ∨ x ≤ lo a

theorem CutAt.cases (hs : CutAt s l) (he : CutAt e l)
    (ha : a ∈ l) : (s ≤ lo a ∧ hi a ≤ e) ∨ hi a ≤ s ∨ e ≤ lo a := by
  have := hs a ha
  have := he a ha
  omega

theorem value_erase (f : α → Nat → β) (hs : CutAt s l) (he : CutAt e l) (p : Nat) :
    value f (l.filter fun a => !decide (s ≤ lo a ∧ hi a ≤ e)) p =
      if s ≤ p ∧ p < e then none else value f l p := by
  unfold value find
  rw [find?_filter]
  split_ifs with hp
  · refine map_eq_none_iff.mpr (find?_eq_none.mpr fun a ha => ?_)
    grind [hs.cases he ha, Covers]
  · refine congrArg _ (find?_congr fun a ha => ?_)
    grind [hs.cases he ha, Covers]

theorem value_update (f : α → Nat → β) (u : α → α) (g : β → β)
    (hs : CutAt s l) (he : CutAt e l) (hlo : ∀ a, lo (u a) = lo a) (hhi : ∀ a, hi (u a) = hi a)
    (hf : ∀ a p, f (u a) p = g (f a p)) (p : Nat) :
    value f (l.map fun a => if hi a ≤ s ∨ e ≤ lo a then a else u a) p =
      if s ≤ p ∧ p < e then (value f l p).map g else value f l p := by
  unfold value find
  rw [find?_map, find?_congr fun a ha => (?_ : _ = decide (Covers a p))]
  · cases hfind : l.find? fun a => Covers a p with
    | none => split_ifs <;> rfl
    | some a =>
      obtain ⟨ha, hap⟩ := find_some hfind
      have hcase := hs.cases he ha
      unfold Covers at hap
      simp only [map_some]
      split_ifs
      · omega
      · rfl
      · rw [hf]
      · omega
  · simp only [Function.comp, Covers]
    split_ifs <;> grind

theorem Apart.update {u : α → α} (h : Apart l) (hlo : ∀ a, lo (u a) = lo a)
    (hhi : ∀ a, hi (u a) = hi a) : Apart (l.map u) := by
  refine pairwise_map.mpr (h.imp ?_)
  intro a b hab
  rwa [hhi, hlo]

theorem value_insert (f : α → Nat → β) (hl : ∀ b ∈ l, hi b ≤ lo a) (p : Nat) :
    value f (l ++ a :: k) p = if Covers a p then some (f a p) else value f (l ++ k) p := by
  rw [value_append, value_cons, value_append]
  by_cases hp : Covers a p
  · have hn : value f l p = none := by
      refine value_none.mpr fun b hb hc => ?_
      have := hl b hb
      unfold Covers at hp hc
      omega
    rw [if_pos hp, if_pos hp, hn, none_or]
  · rw [if_neg hp, if_neg hp]

theorem Apart.insert (h : Apart (l ++ k)) (hl : ∀ b ∈ l, hi b ≤ lo a)
    (hk : ∀ b ∈ k, hi a ≤ lo b) : Apart (l ++ a :: k) := by
  obtain ⟨apartL, apartK, cross⟩ := pairwise_append.mp h
  refine pairwise_append.mpr ⟨apartL, pairwise_cons.mpr ⟨hk, apartK⟩, ?_⟩
  intro b hb c hc
  rcases mem_cons.mp hc with rfl | hc
  · exact hl b hb
  · exact cross b hb c hc

def layers (p : Nat) : List α → Nat
  | [] => 0
  | a :: l => (if Covers a p then 1 else 0) + layers p l

theorem layers_eq_zero : layers p l = 0 ↔ ∀ a ∈ l, ¬Covers a p := by
  induction l with
  | nil => simp [layers]
  | cons a l ih => simp [layers, ih]

theorem layers_update {u : α → α} (hlo : ∀ a, lo (u a) = lo a) (hhi : ∀ a, hi (u a) = hi a) :
    layers p (l.map u) = layers p l := by
  induction l with
  | nil => rfl
  | cons a l ih =>
    have same : Covers (u a) p ↔ Covers a p := by rw [Covers, Covers, hlo, hhi]
    simp only [map_cons, layers, same, ih]

theorem Apart.layers_le (h : Apart l) : layers p l ≤ 1 := by
  induction l with
  | nil => exact Nat.zero_le 1
  | cons a l ih =>
    obtain ⟨above, apart⟩ := pairwise_cons.mp h
    unfold layers
    split_ifs with ha
    · have : layers p l = 0 := layers_eq_zero.mpr fun b hb hbp =>
        absurd (above b hb) (not_le.mpr (lt_of_le_of_lt hbp.1 ha.2))
      omega
    · have := ih apart
      omega

end SmallOS.Ranges
