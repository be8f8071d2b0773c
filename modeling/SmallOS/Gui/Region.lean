import Mathlib.Algebra.Group.Nat.Defs
import Mathlib.Data.List.Basic
import Mathlib.Data.Set.Basic

/-! Rectangles of the window system, and the parts of one that no rectangle in front of it
covers. Sums of coordinates are those of 32-bit integers. -/

namespace SmallOS.Gui
open List

structure Rect where
  x : Int
  y : Int
  w : Int
  h : Int
deriving DecidableEq

def wrap (n : Int) : Int := (n + 2147483648) % 4294967296 - 2147483648

def Rect.right (r : Rect) : Int := wrap (r.x + r.w)

def Rect.bottom (r : Rect) : Int := wrap (r.y + r.h)

def guiRectEmpty (r : Rect) : Bool := r.w ≤ 0 || r.h ≤ 0

def guiRectIntersects (a b : Rect) : Bool :=
  !guiRectEmpty a && !guiRectEmpty b && a.x < b.right && b.x < a.right && a.y < b.bottom &&
    b.y < a.bottom

def guiRectExclude (source cut : Rect) : List Rect :=
  if guiRectEmpty source then []
  else if guiRectIntersects source cut = false then [source]
  else
    let x := max source.x cut.x
    let y := max source.y cut.y
    let w := wrap (min source.right cut.right - x)
    let h := wrap (min source.bottom cut.bottom - y)
    let right := wrap (x + w)
    let bottom := wrap (y + h)
    (if source.y < y then [⟨source.x, source.y, source.w, wrap (y - source.y)⟩] else []) ++
      (if bottom < source.bottom then
        [⟨source.x, bottom, source.w, wrap (source.bottom - bottom)⟩] else []) ++
      (if source.x < x then [⟨source.x, y, wrap (x - source.x), h⟩] else []) ++
      (if right < source.right then [⟨right, y, wrap (source.right - right), h⟩] else [])

def cutPieces (cut : Rect) : (current next : List Rect) → Option (List Rect)
  | [], next => some next
  | r :: current, next =>
    let pieces := guiRectExclude r cut
    if 64 < next.length + pieces.length then none else cutPieces cut current (next ++ pieces)

def cutAll : (cuts current : List Rect) → Option (List Rect)
  | [], current => some current
  | cut :: cuts, current =>
    (cutPieces cut current []).bind fun next => if next = [] then some [] else cutAll cuts next

def guiVisibleRegions (source : Rect) (cuts : List Rect) (output : Bool) (capacity : Int) :
    Option (List Rect) :=
  if output = false ∨ capacity ≤ 0 ∨ guiRectEmpty source then some []
  else
    (cutAll cuts [source]).bind fun current =>
      if capacity < current.length then none else some current

def Rect.Has (r : Rect) (p : Int × Int) : Prop :=
  (r.x ≤ p.1 ∧ p.1 < r.x + r.w) ∧ r.y ≤ p.2 ∧ p.2 < r.y + r.h

def Rect.Small (r : Rect) : Prop := ∀ n ∈ [r.x, r.y, r.w, r.h], n.natAbs < 2 ^ 29

structure Rect.Fits (r : Rect) : Prop where
  w : 0 < r.w
  h : 0 < r.h
  left : -1073741824 ≤ r.x
  right : r.x + r.w ≤ 1073741824
  top : -1073741824 ≤ r.y
  bottom : r.y + r.h ≤ 1073741824

def Apart (a b : Rect) : Prop := ∀ p, ¬ (a.Has p ∧ b.Has p)

structure Partition (rs : List Rect) (S : Set (Int × Int)) : Prop where
  fits : ∀ r ∈ rs, r.Fits
  apart : rs.Pairwise Apart
  union : ∀ p, (∃ r ∈ rs, r.Has p) ↔ p ∈ S

theorem wrap_eq {n : Int} (h : -2147483648 ≤ n ∧ n < 2147483648) : wrap n = n := by
  unfold wrap
  omega

theorem Rect.Small.bounds {r : Rect} (h : r.Small) : (-536870912 < r.x ∧ r.x < 536870912) ∧
    (-536870912 < r.y ∧ r.y < 536870912) ∧ (-536870912 < r.w ∧ r.w < 536870912) ∧
    -536870912 < r.h ∧ r.h < 536870912 := by
  simp only [Small, forall_mem_cons] at h
  omega

variable {r cut : Rect} {rs cuts : List Rect} {S : Set (Int × Int)}

theorem mem_optional {α : Type} {c : Prop} [Decidable c] {a b : α} :
    a ∈ (if c then [b] else []) ↔ a = b ∧ c := by
  split_ifs with hc <;> simp [hc]

theorem pairwise_optional {α : Type} {c : Prop} [Decidable c] {b : α} {R : α → α → Prop} :
    (if c then [b] else []).Pairwise R := by
  split_ifs <;> simp

theorem exclude_partition (hr : r.Fits) (hc : cut.Small) :
    Partition (guiRectExclude r cut) {p | r.Has p ∧ ¬ cut.Has p} := by
  obtain ⟨hw, hh, hleft, hright, htop, hbottom⟩ := id hr
  obtain ⟨hcx, hcy, hcw, hch⟩ := hc.bounds
  have e1 : r.right = r.x + r.w := wrap_eq (by omega)
  have e2 : r.bottom = r.y + r.h := wrap_eq (by omega)
  have e3 : cut.right = cut.x + cut.w := wrap_eq (by omega)
  have e4 : cut.bottom = cut.y + cut.h := wrap_eq (by omega)
  have meets : guiRectIntersects r cut = true ↔ (0 < cut.w ∧ 0 < cut.h) ∧
      (r.x < cut.x + cut.w ∧ cut.x < r.x + r.w) ∧ r.y < cut.y + cut.h ∧ cut.y < r.y + r.h := by
    simp only [guiRectIntersects, guiRectEmpty, e1, e2, e3, e4, Bool.and_eq_true, Bool.not_eq_true',
      Bool.or_eq_false_iff, decide_eq_true_eq, decide_eq_false_iff_not]
    omega
  unfold guiRectExclude
  rw [if_neg (by simp [guiRectEmpty, hw, hh])]
  split_ifs with hmeet
  · refine ⟨forall_mem_singleton.mpr hr, pairwise_singleton .., fun p => ?_⟩
    rw [← Bool.not_eq_true, meets] at hmeet
    simp only [mem_singleton, exists_eq_left, Set.mem_ofPred_eq, Rect.Has]
    omega
  · rw [Bool.not_eq_false, meets] at hmeet
    simp (disch := omega) only [wrap_eq]
    refine ⟨?_, ?_, fun p => ?_⟩
    · simp only [mem_append, mem_optional]
      rintro q (((⟨rfl, _⟩ | ⟨rfl, _⟩) | ⟨rfl, _⟩) | ⟨rfl, _⟩) <;> constructor <;> dsimp only <;>
        omega
    · simp only [pairwise_append, pairwise_optional, mem_append, mem_optional, true_and]
      refine ⟨⟨?_, ?_⟩, ?_⟩
      · rintro a ⟨rfl, _⟩ b ⟨rfl, _⟩ p
        dsimp only [Rect.Has]
        omega
      · rintro a (⟨rfl, _⟩ | ⟨rfl, _⟩) b ⟨rfl, _⟩ p <;> dsimp only [Rect.Has] <;> omega
      · rintro a ((⟨rfl, _⟩ | ⟨rfl, _⟩) | ⟨rfl, _⟩) b ⟨rfl, _⟩ p <;> dsimp only [Rect.Has] <;> omega
    · simp only [mem_append, mem_optional, or_and_right, exists_or, and_assoc, exists_eq_left,
        Set.mem_ofPred_eq, Rect.Has]
      omega

theorem Partition.exclude (h : Partition rs S) (hc : cut.Small) :
    Partition (rs.flatMap (guiRectExclude · cut)) {p | p ∈ S ∧ ¬ cut.Has p} := by
  have part r (hr : r ∈ rs) := exclude_partition (h.fits r hr) hc
  refine ⟨fun q hq => ?_, pairwise_flatMap.mpr ⟨fun r hr => (part r hr).apart, ?_⟩, fun p => ?_⟩
  · obtain ⟨r, hr, hq⟩ := mem_flatMap.mp hq
    exact (part r hr).fits q hq
  · refine h.apart.imp_of_mem fun {a b} ha hb hab q hq q' hq' p hp => ?_
    have hina := ((part a ha).union p).mp ⟨q, hq, hp.1⟩
    have hinb := ((part b hb).union p).mp ⟨q', hq', hp.2⟩
    exact hab p ⟨hina.1, hinb.1⟩
  · rw [Set.mem_ofPred_eq, ← h.union]
    constructor
    · rintro ⟨q, hq, hp⟩
      obtain ⟨r, hr, hq⟩ := mem_flatMap.mp hq
      obtain ⟨hin, hout⟩ := ((part r hr).union p).mp ⟨q, hq, hp⟩
      exact ⟨⟨r, hr, hin⟩, hout⟩
    · rintro ⟨⟨r, hr, hin⟩, hout⟩
      obtain ⟨q, hq, hp⟩ := ((part r hr).union p).mpr ⟨hin, hout⟩
      exact ⟨q, mem_flatMap.mpr ⟨r, hr, hq⟩, hp⟩

def remaining (cuts current : List Rect) : List Rect :=
  cuts.foldl (fun current cut => current.flatMap (guiRectExclude · cut)) current

theorem remaining_partition (h : Partition rs S) (hc : ∀ cut ∈ cuts, cut.Small) :
    Partition (remaining cuts rs) {p | p ∈ S ∧ ∀ cut ∈ cuts, ¬ cut.Has p} := by
  induction cuts generalizing rs S with
  | nil => simpa [remaining] using h
  | cons cut cuts ih =>
    obtain ⟨hcut, hcuts⟩ := forall_mem_cons.mp hc
    simpa only [remaining, foldl_cons, forall_mem_cons, Set.mem_ofPred_eq, and_assoc] using
      ih (h.exclude hcut) hcuts

theorem cutPieces_eq {next : List Rect} (hn : next.length ≤ 64) : cutPieces cut rs next =
    if 64 < (next ++ rs.flatMap (guiRectExclude · cut)).length then none
    else some (next ++ rs.flatMap (guiRectExclude · cut)) := by
  induction rs generalizing next with
  | nil => simp [cutPieces, hn]
  | cons r rs ih =>
    rw [cutPieces, flatMap_cons, ← append_assoc]
    split_ifs with hfull hall hall
    · rfl
    · simp only [length_append] at hall
      omega
    · rw [ih (by simpa using hfull), if_pos hall]
    · rw [ih (by simpa using hfull), if_neg hall]

theorem remaining_nil : remaining cuts [] = [] := by
  induction cuts with
  | nil => rfl
  | cons cut cuts ih => exact ih

theorem cutAll_eq_some {out} (h : cutAll cuts rs = some out) : out = remaining cuts rs := by
  induction cuts generalizing rs with
  | nil => exact (Option.some.inj h).symm
  | cons cut cuts ih =>
    obtain ⟨next, hnext, h⟩ := Option.bind_eq_some_iff.mp h
    rw [cutPieces_eq (Nat.zero_le _)] at hnext
    split_ifs at hnext h with hfull hnil
    · cases hnext
      rw [remaining, foldl_cons, ← nil_append (flatMap ..), hnil, ← remaining, remaining_nil]
      exact (Option.some.inj h).symm
    · cases hnext
      exact ih h

theorem cutAll_eq_none (h : cutAll cuts rs = none) :
    ∃ k, 64 < (remaining (cuts.take k) rs).length := by
  induction cuts generalizing rs with
  | nil => cases h
  | cons cut cuts ih =>
    rw [cutAll, cutPieces_eq (Nat.zero_le _)] at h
    split_ifs at h with hfull
    · exact ⟨1, hfull⟩
    · rw [Option.bind_some] at h
      split_ifs at h
      obtain ⟨k, hk⟩ := ih h
      exact ⟨k + 1, hk⟩

/-- With room for a rectangle, the result is a partition of what can be seen of the source, and
the call fails only for want of room; without, it is empty. -/
theorem visible_regions_partition (source : Rect) (hs : source.Small) (cuts : List Rect)
    (hc : ∀ cut ∈ cuts, cut.Small) (output : Bool) (capacity : Int) :
    if output = true ∧ 0 < capacity then
      match guiVisibleRegions source cuts output capacity with
      | some out => (∀ r ∈ out, guiRectEmpty r = false) ∧ out.Pairwise Apart ∧
          ∀ p, (∃ r ∈ out, r.Has p) ↔ source.Has p ∧ ∀ cut ∈ cuts, ¬ cut.Has p
      | none => (∃ k, 64 < (remaining (cuts.take k) [source]).length) ∨
          capacity < (remaining cuts [source]).length
    else guiVisibleRegions source cuts output capacity = some [] := by
  unfold guiVisibleRegions
  split_ifs with hroom hnone hnone
  · simp only [hroom, Bool.true_eq_false, not_le.mpr hroom.2, false_or, guiRectEmpty,
      Bool.or_eq_true, decide_eq_true_eq] at hnone
    refine ⟨nofun, Pairwise.nil, fun p => ⟨nofun, fun hp => ?_⟩⟩
    have := hp.1
    unfold Rect.Has at this
    omega
  · have hfits : source.Fits := by
      have := hs.bounds
      simp only [not_or, guiRectEmpty, Bool.or_eq_true, decide_eq_true_eq] at hnone
      constructor <;> omega
    have hpart : Partition [source] {p | source.Has p} :=
      ⟨forall_mem_singleton.mpr hfits, pairwise_singleton .., fun p => by simp⟩
    have hrest := remaining_partition hpart hc
    cases hcut : cutAll cuts [source] with
    | none => exact .inl (cutAll_eq_none hcut)
    | some current =>
      rw [← cutAll_eq_some hcut] at hrest ⊢
      rw [Option.bind_some]
      split_ifs with hlong
      · exact .inr hlong
      · refine ⟨fun r hr => ?_, hrest.apart, hrest.union⟩
        have := hrest.fits r hr
        simp [guiRectEmpty, this.w, this.h]
  · rfl
  · grind

theorem visible_regions_partition_cross :
    let source : Rect := ⟨0, 0, 10, 10⟩
    let cuts : List Rect := [⟨4, 0, 4, 10⟩, ⟨0, 4, 10, 2⟩]
    let out : List Rect := [⟨0, 0, 4, 4⟩, ⟨0, 6, 4, 4⟩, ⟨8, 0, 2, 4⟩, ⟨8, 6, 2, 4⟩]
    guiVisibleRegions source cuts true 64 = some out ∧
      ∀ p, (∃ r ∈ out, r.Has p) ↔ source.Has p ∧ ∀ cut ∈ cuts, ¬ cut.Has p := by
  intro source cuts out
  have hout : guiVisibleRegions source cuts true 64 = some out := by decide
  have h := visible_regions_partition source (by simp [Rect.Small, source]) cuts
    (by simp [Rect.Small, cuts]) true 64
  rw [if_pos ⟨rfl, by decide⟩, hout] at h
  exact ⟨hout, h.2.2⟩

theorem visible_regions_no_room : (⟨0, 0, 1, 1⟩ : Rect).Small ∧
    guiVisibleRegions ⟨0, 0, 1, 1⟩ [] true 0 = some [] ∧ (⟨0, 0, 1, 1⟩ : Rect).Has (0, 0) :=
  ⟨by simp [Rect.Small], rfl, by simp [Rect.Has]⟩

end SmallOS.Gui
