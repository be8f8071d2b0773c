import SmallOS.Ext2.PathWalk

/-! A path and the path of its directory. The system calls look at both: where the
directory resolves and holds the last component, the whole path leads to what the
component names. -/

namespace SmallOS.Ext2

open Bytes Prog List Prod

variable {cs : List Component} {cur levels : Nat} {q r : Nat × Nat} {a dirPath text : Path}
  {redirect : Path → Option (Nat × Nat)}

section

variable {leaf : Name}

theorem endsInSep_suffix {b : Path} (h : b <:+ a) (hb : b ≠ []) : endsInSep a = endsInSep b := by
  obtain ⟨front, rfl⟩ := h
  exact endsInSep_append hb

theorem endsInSep_of_all (h : ∀ c ∈ a, isSep c = true) : endsInSep a = true := by
  unfold endsInSep
  cases hl : a.getLast? with
  | none => rfl
  | some c => exact h c (mem_of_getLast? hl)

theorem dropWhile_append_of_ne {p : UInt8 → Bool} (h : a.dropWhile p ≠ []) (b : Path) :
    (a ++ b).dropWhile p = a.dropWhile p ++ b := by
  rw [dropWhile_append, if_neg (by simpa using h)]

def leafTail (text : Path) (leaf : Name) : Path := if endsInSep text then leaf else 47 :: leaf

theorem Plain.joinText_eq (hleaf : Plain leaf) (text : Path) :
    joinText text leaf = text ++ leafTail text leaf := by
  unfold joinText leafTail
  rw [if_neg hleaf.1]
  split_ifs
  · rfl
  · rfl

theorem Plain.afterComponent_joinText (hleaf : Plain leaf) (h : text.dropWhile isSep ≠ []) :
    ((joinText text leaf).dropWhile isSep).takeWhile notSep =
        (text.dropWhile isSep).takeWhile notSep ∧
      afterComponent (joinText text leaf) = joinText (afterComponent text) leaf := by
  have hdrop : leaf.dropWhile isSep = leaf := by
    have := hleaf.dropWhile []
    rwa [append_nil] at this
  have hsuffix : text.dropWhile isSep <:+ text := dropWhile_suffix _
  rw [afterComponent, afterComponent, hleaf.joinText_eq, dropWhile_append_of_ne h]
  generalize hp : text.dropWhile isSep = p at h hsuffix
  by_cases hq : p.dropWhile notSep = []
  · -- the first component is the end of the text
    have hall : ∀ c ∈ p, notSep c = true := dropWhile_eq_nil_iff.mp hq
    have htail : leafTail text leaf = 47 :: leaf := by
      rw [leafTail, endsInSep_suffix hsuffix h, Plain.not_endsInSep ⟨h, fun c hc => by simpa [notSep] using hall c hc⟩]
      rfl
    rw [htail, takeWhile_append_of_pos hall, dropWhile_append_of_pos hall, hq,
      dropWhile_nil, nil_joinText, takeWhile_cons_of_neg (by decide), append_nil,
      dropWhile_cons_of_neg (by decide), dropWhile_cons_of_pos (by decide), hdrop]
    exact ⟨(takeWhile_eq_self_iff.mpr hall).symm, rfl⟩
  have hlen : (p.takeWhile notSep).length ≠ p.length := by
    intro heq
    exact hq (dropWhile_eq_nil_iff.mpr
      (takeWhile_eq_self_iff.mp ((List.takeWhile_prefix _).eq_of_length heq)))
  refine ⟨by rw [takeWhile_append, if_neg hlen], ?_⟩
  rw [dropWhile_append_of_ne hq]
  have hsuffix' := (dropWhile_suffix notSep (l := p)).trans hsuffix
  generalize p.dropWhile notSep = q at hq hsuffix'
  by_cases hr : q.dropWhile isSep = []
  · -- only separators are left
    have hall : ∀ c ∈ q, isSep c = true := dropWhile_eq_nil_iff.mp hr
    have htail : leafTail text leaf = leaf := by
      rw [leafTail, endsInSep_suffix hsuffix' hq, endsInSep_of_all hall, if_pos rfl]
    rw [htail, dropWhile_append_of_pos hall, hr, nil_joinText, hdrop]
  · rw [dropWhile_append_of_ne hr, hleaf.joinText_eq, leafTail, leafTail,
      endsInSep_suffix ((dropWhile_suffix isSep).trans hsuffix') hr]

def Component.before (leaf : Name) (c : Component) : Component := ⟨c.name, joinText c.rest leaf⟩

theorem Plain.components_leaf (hleaf : Plain leaf) (text : Path) : components (joinText text leaf) =
      (components text).map (Component.before leaf) ++ [⟨leaf, []⟩] := by
  induction text using components.induct with
  | case1 text h =>
    have hall : ∀ c ∈ text, isSep c = true := dropWhile_eq_nil_iff.mp h
    rw [components_of_nil h, hleaf.joinText_eq, leafTail, endsInSep_of_all hall, if_pos rfl]
    have hone := hleaf.components_append [] (by simp)
    rw [append_nil] at hone
    rw [← components_dropWhile, dropWhile_append_of_pos hall, components_dropWhile, hone,
      components_of_nil rfl]
    rfl
  | case2 text h ih =>
    obtain ⟨htake, hafter⟩ := hleaf.afterComponent_joinText h
    have hne : (joinText text leaf).dropWhile isSep ≠ [] := by
      rw [hleaf.joinText_eq, dropWhile_append_of_ne h]
      exact append_ne_nil_of_left_ne_nil h _
    rw [components_of_ne h, components_of_ne hne, htake, hafter, ih]
    rfl

theorem pathParentPop_le (path : Path) : (pathParentPop path).length ≤ path.length := by
  unfold pathParentPop
  have h1 := (List.rdropWhile_prefix isSep path).length_le
  have h2 := (List.rdropWhile_prefix (fun c => !isSep c) (path.rdropWhile isSep)).length_le
  have h3 := (List.rdropWhile_prefix isSep
    ((path.rdropWhile isSep).rdropWhile fun c => !isSep c)).length_le
  omega

variable {N : Names} {dir ino type : Nat}

theorem Names.visit_leaf (hfind : N.find dir leaf = some (ino, type))
    (hlink : N.isSymlink ino = false) (hdot : leaf ≠ dotName)
    (h : N.visit true redirect [⟨leaf, []⟩] dirPath dir = some r) : r.2 = ino := by
  unfold Names.visit at h
  simp only [hdot, if_false, hfind, hlink, Bool.false_eq_true, false_and, isEmpty_nil, if_true] at h
  split_ifs at h
  exact congrArg snd (Option.some.inj h).symm

theorem Names.visit_child (hdot : leaf ≠ dotName)
    (hfind : N.find dir leaf = some (ino, type)) (hlink : N.isSymlink ino = false)
    (hdir : N.isDir dir = true) {redirect' : Path → Option (Nat × Nat)}
    (hred : ∀ text q r, redirect text = some q → redirect' (joinText text leaf) = some r →
      q.2 = dir → r.2 = ino) (hfit : dirPath.length ≤ 255)
    (h : N.visit true redirect cs dirPath cur = some q) (hq : q.2 = dir)
    (h' : N.visit true redirect' (cs.map (Component.before leaf) ++ [⟨leaf, []⟩]) dirPath cur =
      some r) : r.2 = ino := by
  induction cs generalizing dirPath cur with
  | nil =>
    obtain rfl : cur = dir := (congrArg snd (Option.some.inj h)).trans hq
    exact Names.visit_leaf hfind hlink hdot h'
  | cons c cs ih =>
    have hlast : (cs.map (Component.before leaf) ++ [Component.mk leaf []]).isEmpty = false := by
      cases cs <;> rfl
    have hbefore : c.before leaf = ⟨c.name, joinText c.rest leaf⟩ := rfl
    rw [map_cons, cons_append, hbefore] at h'
    unfold Names.visit at h'
    simp only [hlast] at h'
    obtain ⟨-, h⟩ := some_of_guard h
    obtain ⟨-, h'⟩ := some_of_guard h'
    by_cases hcdot : c.name = dotName
    · rw [if_pos hcdot] at h h'
      exact ih hfit h h'
    rw [if_neg hcdot] at h h'
    rcases hf : N.find cur c.name with _ | ⟨next, t⟩ <;> simp only [hf] at h h'
    · cases h
    obtain ⟨-, h⟩ := some_of_guard h
    obtain ⟨-, h'⟩ := some_of_guard h'
    by_cases hsym : N.isSymlink next = true
    · rw [if_pos ⟨hsym, .inr trivial⟩] at h h'
      rcases htarget : N.target next with _ | target <;> simp only [htarget] at h h'
      · cases h
      simp only [pathDirJoin_eq hfit, ← joinText_assoc _ _ leaf] at h h'
      generalize (if target.head? = some 47 then [] else dirPath) = start at h h'
      split_ifs at h h'
      exact hred _ _ _ h h' hq
    rw [if_neg fun hand => hsym hand.1] at h h'
    rw [if_neg Bool.false_ne_true] at h'
    obtain ⟨hnext, h'⟩ := some_of_guard h'
    rw [if_neg hnext] at h
    -- a walk that ends here is one lookup short of the other
    by_cases hend : cs = []
    · simp only [hend, isEmpty_nil, if_true, map_nil, nil_append] at h h'
      obtain rfl : next = dir := (congrArg snd (Option.some.inj h)).trans hq
      split_ifs at h' with hup
      · exact Names.visit_leaf hfind hlink hdot h'
      · split at h'
        · cases h'
        · exact Names.visit_leaf hfind hlink hdot h'
    rw [if_neg (by simpa using hend)] at h
    by_cases hup : c.name = dotDotName
    · rw [if_pos hup] at h h'
      exact ih ((pathParentPop_le _).trans hfit) h h'
    rw [if_neg hup, pathAppendPart_eq hfit] at h h'
    split_ifs at h h' with hlen
    exact ih hlen h h'

theorem Names.resolve_child (hleaf : Plain leaf) (hdot : leaf ≠ dotName)
    (hfind : N.find dir leaf = some (ino, type)) (hlink : N.isSymlink ino = false)
    (hdir : N.isDir dir = true) (h : N.resolve true levels text = some q) (hq : q.2 = dir)
    (h' : N.resolve true levels (joinText text leaf) = some r) : r.2 = ino := by
  induction levels generalizing text q r with
  | zero => cases h
  | succ levels ih =>
    rw [Names.resolve_succ] at h h'
    rw [hleaf.components_leaf] at h'
    exact Names.visit_child hdot hfind hlink hdir (fun text q r h1 h2 hq => ih h1 hq h2)
      (Nat.zero_le _) h hq h'

theorem Names.resolve_not_link (hroot : N.isSymlink 2 = false)
    (h : N.resolve true levels text = some r) : N.isSymlink r.2 = false :=
  Names.resolve_keeps (P := (N.isSymlink · = false)) (fun _ _ followed => followed rfl) hroot h

end

end SmallOS.Ext2
