import SmallOS.Ext2.FileRefinement
import SmallOS.Ext2.Listing
import SmallOS.Lib.Spans

/-! Path resolution against a walk over inodes. The resolver tracks its directory as text and starts
again at the root with a rewritten path at a symbolic link. The reference walk keeps the inode, and
a link puts its target in front of the rest of the path. -/

namespace SmallOS.Ext2

open Bytes Prog Spans List Option

variable {trail : List Name} {name : Name} {dir last : Nat} {path : Path}
  {redirect : Path → Option (Nat × Nat)}

structure Component where
  name : Name
  /-- The text behind the component and the separators that follow it. -/
  rest : Path

def notSep (c : UInt8) : Bool := !isSep c

def afterComponent (path : Path) : Path :=
  (((path.dropWhile isSep).dropWhile notSep).dropWhile isSep)

theorem afterComponent_lt (h : path.dropWhile isSep ≠ []) :
    (afterComponent path).length < path.length := by
  unfold afterComponent
  cases hp : path.dropWhile isSep with
  | nil => exact absurd hp h
  | cons c cs =>
    have hc : isSep c = false := head_dropWhile hp
    have hle := length_dropWhile_le isSep path
    have h1 := length_dropWhile_le isSep ((c :: cs).dropWhile notSep)
    have h2 := length_dropWhile_le notSep cs
    rw [hp] at hle
    rw [dropWhile_cons_of_pos (by simp [notSep, hc])] at h1 ⊢
    simp only [length_cons] at hle
    omega

def components (path : Path) : List Component :=
  if path.dropWhile isSep = [] then []
  else
    ⟨(path.dropWhile isSep).takeWhile notSep, afterComponent path⟩ ::
      components (afterComponent path)
termination_by path.length
decreasing_by exact afterComponent_lt (by assumption)

theorem components_of_nil (h : path.dropWhile isSep = []) : components path = [] := by
  rw [components, if_pos h]

theorem components_of_ne (h : path.dropWhile isSep ≠ []) : components path =
      ⟨(path.dropWhile isSep).takeWhile notSep, afterComponent path⟩ ::
        components (afterComponent path) := by
  rw [components, if_neg h]

theorem components_afterComponent_eq_nil (path : Path) :
    components (afterComponent path) = [] ↔ afterComponent path = [] := by
  refine ⟨fun h => ?_, fun h => by rw [h]; exact components_of_nil rfl⟩
  by_contra hne
  rw [components_of_ne (by rwa [afterComponent, dropWhile_idempotent])] at h
  cases h

theorem pathNextComponent_of_nil (h : path.dropWhile isSep = []) :
    pathNextComponent path = .done := by
  unfold pathNextComponent
  simp only [h, if_true]

theorem pathNextComponent_of_ne (h : path.dropWhile isSep ≠ []) : pathNextComponent path =
      if 256 ≤ ((path.dropWhile isSep).takeWhile notSep).length then .bad
      else .component ((path.dropWhile isSep).takeWhile notSep) (afterComponent path)
        (afterComponent path).isEmpty := by
  unfold pathNextComponent
  simp only [h, if_false]
  rfl

theorem components_dropWhile (path : Path) :
    components (path.dropWhile isSep) = components path := by
  have hidem : (path.dropWhile isSep).dropWhile isSep = path.dropWhile isSep :=
    dropWhile_idempotent isSep path
  by_cases hp : path.dropWhile isSep = []
  · rw [hp, components_of_nil hp, components_of_nil rfl]
  · rw [components_of_ne hp, components_of_ne (by rwa [hidem]), afterComponent, hidem]
    rfl

theorem components_sep {c : UInt8} (h : isSep c = true) (path : Path) :
    components (c :: path) = components path := by
  rw [← components_dropWhile, dropWhile_cons_of_pos h, components_dropWhile]

def Plain (name : Name) : Prop := name ≠ [] ∧ ∀ c ∈ name, isSep c = false

theorem Plain.dropWhile (h : Plain name) (path : Path) :
    (name ++ path).dropWhile isSep = name ++ path := by
  obtain ⟨hne, hsep⟩ := h
  cases name with
  | nil => exact absurd rfl hne
  | cons c cs =>
    have hc := hsep c (mem_cons_self ..)
    exact dropWhile_cons_of_neg (by simp [hc])

theorem Plain.components_append (h : Plain name) (path : Path)
    (hpath : ∀ c ∈ path.head?, isSep c = true) :
    components (name ++ path) = ⟨name, path.dropWhile isSep⟩ :: components path := by
  have hall : ∀ c ∈ name, notSep c = true := fun c hc => by simp [notSep, h.2 c hc]
  have hhead : path.takeWhile notSep = [] ∧ path.dropWhile notSep = path := by
    cases path with
    | nil => exact ⟨rfl, rfl⟩
    | cons c cs =>
      have hc : notSep c = false := by simp [notSep, hpath c rfl]
      exact ⟨takeWhile_cons_of_neg (by simp [hc]), dropWhile_cons_of_neg (by simp [hc])⟩
  have hafter : afterComponent (name ++ path) = path.dropWhile isSep := by
    rw [afterComponent, h.dropWhile, dropWhile_append_of_pos hall, hhead.2]
  have hne : (name ++ path).dropWhile isSep ≠ [] := by
    rw [h.dropWhile]
    exact append_ne_nil_of_left_ne_nil h.1 path
  rw [components_of_ne hne, hafter, components_dropWhile, h.dropWhile,
    takeWhile_append_of_pos hall, hhead.1, append_nil]

def endsInSep (path : Path) : Bool :=
  match path.getLast? with
  | none => true
  | some c => isSep c

def joinText (a b : Path) : Path :=
  if b = [] then a else if endsInSep a then a ++ b else a ++ 47 :: b

@[simp] theorem joinText_nil (a : Path) : joinText a [] = a := if_pos rfl

@[simp] theorem nil_joinText (b : Path) : joinText [] b = b := by
  by_cases h : b = []
  · rw [h, joinText_nil]
  · rw [joinText, if_neg h, if_pos (show endsInSep [] = true from rfl), nil_append]

theorem endsInSep_append {a b : Path} (h : b ≠ []) : endsInSep (a ++ b) = endsInSep b := by
  unfold endsInSep
  rw [getLast?_append_of_ne_nil a h]

theorem endsInSep_joinText {a b : Path} (hb : b ≠ []) : endsInSep (joinText a b) = endsInSep b := by
  unfold joinText
  rw [if_neg hb]
  split_ifs
  · exact endsInSep_append hb
  · rw [endsInSep_append (cons_ne_nil _ _)]
    exact endsInSep_append (a := [47]) hb

theorem joinText_assoc (a b c : Path) : joinText (joinText a b) c = joinText a (joinText b c) := by
  by_cases hc : c = []
  · rw [hc, joinText_nil, joinText_nil]
  by_cases hb : b = []
  · rw [hb, joinText_nil, nil_joinText]
  have hne : joinText b c ≠ [] := by
    unfold joinText
    rw [if_neg hc]
    split_ifs <;> exact append_ne_nil_of_left_ne_nil hb _
  rw [joinText, if_neg hc, endsInSep_joinText hb]
  conv_rhs => rw [joinText, if_neg hne]
  simp only [joinText, hb, hc, if_false]
  split_ifs <;> simp only [append_assoc, cons_append]

theorem length_le_joinText (a b : Path) : a.length ≤ (joinText a b).length := by
  unfold joinText
  split_ifs
  · exact Nat.le_refl _
  · rw [length_append]
    omega
  · rw [length_append]
    omega

theorem pathAppendPart_eq {out : Path} (hout : out.length ≤ 255) (part : Path) :
    pathAppendPart out part =
      if (joinText out part).length ≤ 255 then some (joinText out part) else none := by
  unfold pathAppendPart
  by_cases hp : part = []
  · rw [if_pos hp, hp, joinText_nil, if_pos hout]
  simp only [hp, if_false, joinText]
  have hends : endsInSep out = match out.getLast? with
    | none => true
    | some c => isSep c := rfl
  cases hlast : out.getLast? with
  | none =>
    rw [hlast] at hends
    simp only [hends, Bool.false_and, Bool.false_eq_true, if_false, if_true, length_append]
    split_ifs <;> first | rfl | omega
  | some c =>
    rw [hlast] at hends
    simp only [hends]
    by_cases hc : isSep c = true
    · simp only [hc, Bool.not_true, Bool.false_and, Bool.false_eq_true, if_false, if_true,
        length_append]
      split_ifs <;> first | rfl | omega
    · rw [Bool.not_eq_true] at hc
      simp only [hc, Bool.not_false, Bool.true_and, decide_eq_true_eq, if_true, Bool.false_eq_true,
        if_false, length_append, length_cons, length_nil, append_assoc,
        cons_append, nil_append]
      split_ifs <;> first | rfl | omega

theorem pathDirJoin_eq {dir : Path} (hdir : dir.length ≤ 255) (name tail : Path) :
    pathDirJoin dir name tail =
      let text := joinText (if name.head? = some 47 then [] else dir) (joinText name tail)
      if text.length ≤ 255 then some text else none := by
  have hjoin : ∀ d : Path, d.length ≤ 255 → ((pathAppendPart d name).bind fun out =>
        if tail = [] then some out else pathAppendPart out tail) =
      if (joinText d (joinText name tail)).length ≤ 255 then some (joinText d (joinText name tail))
      else none := by
    intro d hd
    have hlen := length_le_joinText (joinText d name) tail
    rw [joinText_assoc] at hlen
    rw [pathAppendPart_eq hd]
    by_cases hfit : (joinText d name).length ≤ 255
    · rw [if_pos hfit, bind_some, pathAppendPart_eq hfit, joinText_assoc]
      by_cases htail : tail = []
      · rw [if_pos htail, htail, joinText_nil, if_pos hfit]
      · rw [if_neg htail]
    · rw [if_neg hfit, bind_none, if_neg (by omega)]
  unfold pathDirJoin
  by_cases habs : name.head? = some 47
  · simp only [habs, if_true]
    exact hjoin [] (Nat.zero_le _)
  · simp only [habs, if_false]
    by_cases hd : dir = []
    · simp only [hd, if_true]
      exact hjoin [] (Nat.zero_le _)
    · have hfirst : pathAppendPart [] dir = some dir := by
        rw [pathAppendPart_eq (Nat.zero_le _), nil_joinText, if_pos hdir]
      simp only [hd, if_false, hfirst]
      exact hjoin dir hdir

def Names.visit (N : Names) (followFinal : Bool) (redirect : Path → Option (Nat × Nat)) :
    List Component → (dirPath : Path) → (cur : Nat) → Option (Nat × Nat)
  | [], _, cur => some (0, cur)
  | c :: cs, dirPath, cur =>
    if 256 ≤ c.name.length then none
    else if c.name = dotName then N.visit followFinal redirect cs dirPath cur
    else
      match N.find cur c.name with
      | none => none
      | some (next, _) =>
        if next = 0 ∨ 1024 < next then none
        else if N.isSymlink next ∧ (cs.isEmpty = false ∨ followFinal) then
          match N.target next with
          | none => none
          | some target =>
            match pathDirJoin dirPath target c.rest with
            | none => none
            | some redirected => redirect redirected
        else if cs.isEmpty then some (cur, next)
        else if !N.isDir next then none
        else if c.name = dotDotName then
          N.visit followFinal redirect cs (pathParentPop dirPath) next
        else
          match pathAppendPart dirPath c.name with
          | none => none
          | some dirPath => N.visit followFinal redirect cs dirPath next

theorem Names.walk_eq_visit (N : Names) (ff : Bool) (redirect : Path → Option (Nat × Nat))
    {fuel : Nat} {cursor : Path} (hfuel : cursor.length < fuel) (dirPath : Path) (cur : Nat) :
    N.walk ff redirect fuel cursor dirPath cur =
      N.visit ff redirect (components cursor) dirPath cur := by
  induction fuel generalizing cursor dirPath cur with
  | zero => omega
  | succ fuel ih =>
    unfold Names.walk
    by_cases hp : cursor.dropWhile isSep = []
    · rw [pathNextComponent_of_nil hp, components_of_nil hp]
      rfl
    have hlt := afterComponent_lt hp
    have hlast : (afterComponent cursor).isEmpty =
        (components (afterComponent cursor)).isEmpty := by
      rw [Bool.eq_iff_iff, List.isEmpty_iff, List.isEmpty_iff, components_afterComponent_eq_nil]
    have hstep := ih (show (afterComponent cursor).length < fuel by omega)
    rw [pathNextComponent_of_ne hp, components_of_ne hp, hlast]
    unfold Names.visit
    simp only [← hstep]
    by_cases hlong : 256 ≤ ((cursor.dropWhile isSep).takeWhile notSep).length
    · rw [if_pos hlong, if_pos hlong]
    rw [if_neg hlong, if_neg hlong]
    simp only [Bool.not_eq_true']
    by_cases hdot : (cursor.dropWhile isSep).takeWhile notSep = dotName
    · rw [if_pos hdot, if_pos hdot]
      split_ifs with hnil
      · rw [hstep, List.isEmpty_iff.mp hnil]
        rfl
      · rfl
    · exact (if_neg hdot).trans (if_neg hdot).symm

theorem Names.resolve_succ (N : Names) (ff : Bool) (levels : Nat) (path : Path) :
    N.resolve ff (levels + 1) path = N.visit ff (N.resolve ff levels) (components path) [] 2 := by
  unfold Names.resolve
  split_ifs with h
  · cases h with
    | inl h =>
      rw [h, components_of_nil rfl]
      rfl
    | inr h =>
      rw [h, components_of_nil rfl]
      rfl
  · exact N.walk_eq_visit ff _ (Nat.lt_succ_self _) [] 2

inductive WalkFailure
  /-- A component is not in the directory it is looked up in. -/
  | missing
  /-- A component before the last one is not a directory. -/
  | notDirectory
  /-- The path needs more than eight link expansions. -/
  | tooManyLinks
  /-- A component is longer than 255 bytes. -/
  | longName
  /-- An expanded path or a directory prefix is longer than 255 bytes. -/
  | noFit
  deriving DecidableEq

def trailText (trail : List Name) : Path := trail.foldl joinText []

def linkText (v : Vol) (ino : Nat) : Path :=
  cString (fileSlice v.disk (table v ino) 0 (table v ino).size)

def trailAfter (trail : List Name) (name : Name) : List Name :=
  if name = dotName then trail
  else if name = dotDotName then trail.dropLast
  else trail ++ [name]

/-- Look up one component after the other, standing in the directory inode `dir`, whose names from
the root are `trail`. A symbolic link gives the components of its target and of the rest to
`expand`. -/
def follow (v : Vol) (followFinal : Bool)
    (expand : Nat → List Name → List Component → Except WalkFailure Nat) :
    (dir : Nat) → (trail : List Name) → List Component → Except WalkFailure Nat
  | dir, _, [] => .ok dir
  | dir, trail, c :: cs =>
    if 255 < c.name.length then .error .longName
    else
      match dirFindEntry v (table v dir) c.name with
      | none => .error .missing
      | some (next, _) =>
        if inodeIsSymlink (table v next) ∧ (cs.isEmpty = false ∨ followFinal) then
          let target := linkText v next
          let start := if target.head? = some 47 then (2, []) else (dir, trail)
          if 255 < (table v next).size then .error .noFit
          else if 255 < (joinText (trailText start.2) (joinText target c.rest)).length then
            .error .noFit
          else expand start.1 start.2 (components (joinText target c.rest))
        else if cs.isEmpty then .ok next
        else if !inodeIsDir (table v next) then .error .notDirectory
        else if 255 < (trailText (trailAfter trail c.name)).length then .error .noFit
        else follow v followFinal expand next (trailAfter trail c.name) cs

def walkFrom (v : Vol) (followFinal : Bool) :
    (links : Nat) → (dir : Nat) → (trail : List Name) → List Component → Except WalkFailure Nat
  | 0 => follow v followFinal fun _ _ _ => .error .tooManyLinks
  | links + 1 => follow v followFinal (walkFrom v followFinal links)

def referenceWalk (v : Vol) (followFinal : Bool) (path : Path) : Except WalkFailure Nat :=
  walkFrom v followFinal 8 2 [] (components path)

inductive InTree (v : Vol) : Nat → Prop
  | root : InTree v 2
  | child {dir next type : Nat} {name : Name} (hdir : InTree v dir) (hname : name.length ≤ 255)
    (hfind : dirFindEntry v (table v dir) name = some (next, type))
    (hnext : inodeIsDir (table v next) = true) : InTree v next

/-- The directories form a tree: `.` is the directory itself, `..` the directory
it is found in. -/
structure DirTree (v : Vol) : Prop where
  root : inodeIsDir (table v 2) = true
  valid : ∀ {dir name e}, InTree v dir → name.length ≤ 255 →
    dirFindEntry v (table v dir) name = some e → ValidIno e.1
  dot : ∀ {dir}, InTree v dir → ∃ type, dirFindEntry v (table v dir) dotName = some (dir, type)
  rootUp : ∃ type, dirFindEntry v (table v 2) dotDotName = some (2, type)
  up : ∀ {dir name next type}, InTree v dir → name.length ≤ 255 → name ≠ dotName →
    name ≠ dotDotName → dirFindEntry v (table v dir) name = some (next, type) →
    inodeIsDir (table v next) = true →
    ∃ type, dirFindEntry v (table v next) dotDotName = some (dir, type)

structure Enters (v : Vol) (dir : Nat) (name : Name) (next : Nat) : Prop where
  plain : Plain name
  short : name.length ≤ 255
  notDot : name ≠ dotName
  notDotDot : name ≠ dotDotName
  find : ∃ type, dirFindEntry v (table v dir) name = some (next, type)
  valid : ValidIno next
  dir : inodeIsDir (table v next) = true

def Leads (v : Vol) : (dir : Nat) → (trail : List Name) → (last : Nat) → Prop
  | dir, [], last => dir = last
  | dir, name :: trail, last => ∃ next, Enters v dir name next ∧ Leads v next trail last

theorem leads_concat {v : Vol} :
    Leads v dir (trail ++ [name]) last ↔ ∃ mid, Leads v dir trail mid ∧ Enters v mid name last := by
  induction trail generalizing dir with
  | nil => simp [Leads]
  | cons n trail ih =>
    simp only [cons_append, Leads, ih]
    constructor
    · rintro ⟨next, hn, mid, hmid, hlast⟩
      exact ⟨mid, ⟨next, hn, hmid⟩, hlast⟩
    · rintro ⟨mid, ⟨next, hn, hmid⟩, hlast⟩
      exact ⟨next, hn, mid, hmid, hlast⟩

theorem trailText_concat (trail : List Name) (name : Name) :
    trailText (trail ++ [name]) = joinText (trailText trail) name := by
  simp only [trailText, foldl_append, foldl_cons, foldl_nil]

theorem trailText_cons (name : Name) (trail : List Name) :
    trailText (name :: trail) = joinText name (trailText trail) := by
  induction trail using reverseRecOn with
  | nil => simp [trailText]
  | append_singleton trail n ih =>
    rw [← cons_append, trailText_concat, trailText_concat, ih, joinText_assoc]

theorem Plain.not_endsInSep (h : Plain name) : endsInSep name = false := by
  unfold endsInSep
  rw [getLast?_eq_some_getLast h.1]
  exact h.2 _ (getLast_mem h.1)

theorem Plain.endsInSep_concat (h : Plain name) (trail : List Name) :
    endsInSep (trailText (trail ++ [name])) = false := by
  rw [trailText_concat, endsInSep_joinText h.1, h.not_endsInSep]

theorem Plain.components_joinText (h : Plain name) (path : Path) :
    components (joinText name path) = ⟨name, path.dropWhile isSep⟩ :: components path := by
  unfold joinText
  by_cases hp : path = []
  · rw [if_pos hp, hp]
    have := h.components_append [] (by simp)
    rwa [append_nil] at this
  · rw [if_neg hp, h.not_endsInSep, if_neg Bool.false_ne_true,
      h.components_append (47 :: path) (by simp; decide), components_sep rfl]
    rfl

theorem rdropWhile_isSep (h : path = [] ∨ endsInSep path = false) :
    path.rdropWhile isSep = path := by
  rw [rdropWhile_eq_self_iff]
  intro hne
  have hends := h.resolve_left hne
  unfold endsInSep at hends
  rw [getLast?_eq_some_getLast hne] at hends
  simpa using hends

theorem pathParentPop_joinText (h : Plain name)
    (hpath : path = [] ∨ endsInSep path = false) : pathParentPop (joinText path name) = path := by
  have hends : endsInSep (joinText path name) = false :=
    (endsInSep_joinText h.1).trans h.not_endsInSep
  have hall : ∀ c ∈ name, (!isSep c) = true := fun c hc => by simp [h.2 c hc]
  unfold pathParentPop
  rw [rdropWhile_isSep (.inr hends), joinText, if_neg h.1]
  by_cases hp : path = []
  · rw [hp, if_pos (show endsInSep [] = true from rfl), nil_append, rdropWhile_eq_nil_iff.mpr hall]
    rfl
  · rw [hpath.resolve_left hp, if_neg Bool.false_ne_true, (rspan_stop (by decide) hall path).2,
      rdropWhile_concat_pos _ _ _ (by decide), rdropWhile_isSep hpath]

theorem plain_of_mem_components {c : Component} (h : c ∈ components path) : Plain c.name := by
  induction path using components.induct with
  | case1 path hp =>
    rw [components_of_nil hp] at h
    cases h
  | case2 path hp ih =>
    rw [components_of_ne hp, mem_cons] at h
    cases h with
    | inr h => exact ih h
    | inl h =>
      subst h
      refine ⟨?_, fun c hc => by simpa [notSep] using mem_takeWhile_imp hc⟩
      cases hd : path.dropWhile isSep with
      | nil => exact absurd hd hp
      | cons c cs => simp [notSep, head_dropWhile hd]

theorem not_isSymlink_of_isDir {nd : Inode} (h : inodeIsDir nd = true) :
    inodeIsSymlink nd = false := by
  unfold inodeIsSymlink
  rw [eq_of_beq h]
  rfl

section

variable {v : Vol} {ff : Bool}

theorem visit_trail {more dp : Path} (h : Leads v dir trail last)
    (hfit : (joinText dp (joinText (trailText trail) more)).length ≤ 255) :
    ((names v).visit ff redirect (components (joinText (trailText trail) more)) dp dir).map
        Prod.snd =
      ((names v).visit ff redirect (components more) (joinText dp (trailText trail)) last).map
        Prod.snd := by
  induction trail generalizing dp dir with
  | nil =>
    have hlast : dir = last := h
    rw [hlast, show trailText [] = [] from rfl, nil_joinText, joinText_nil]
  | cons name trail ih =>
    obtain ⟨next, he, hl⟩ := h
    obtain ⟨type, hfind⟩ := he.find
    rw [trailText_cons, joinText_assoc, ← joinText_assoc dp] at hfit
    have hstep := ih hl hfit
    have hdp : pathAppendPart dp name = some (joinText dp name) := by
      have h1 := length_le_joinText (joinText dp name) (joinText (trailText trail) more)
      have h2 := length_le_joinText dp name
      rw [pathAppendPart_eq (by omega), if_pos (by omega)]
    have hvalid : ¬(next = 0 ∨ 1024 < next) := by
      have := he.valid
      unfold ValidIno at this
      omega
    rw [trailText_cons, joinText_assoc, he.plain.components_joinText, ← joinText_assoc, ← hstep]
    have hlink : (names v).isSymlink next = false := not_isSymlink_of_isDir he.dir
    have hdir : (names v).isDir next = true := he.dir
    conv_lhs => unfold Names.visit
    simp only [show ¬256 ≤ name.length from by have := he.short; omega, if_false, he.notDot,
      show (names v).find dir name = some (next, type) from hfind, hvalid, hlink, hdir,
      he.notDotDot, hdp, Bool.false_eq_true, false_and, Bool.not_true]
    split_ifs with hlast
    · rw [List.isEmpty_iff.mp hlast]
      rfl
    · rfl

theorem names_target (hv : Ready v) (hc : Consistent v) {ino : Nat}
    (h : inodeIsSymlink (table v ino) = true) :
    (names v).target ino = if 255 < (table v ino).size then none else some (linkText v ino) := by
  have heq : (names v).target ino = (readSymlinkInode v (table v ino) 256).map cString := rfl
  have hs := inodeIsSpecial_of_isSymlink h
  rw [heq, readSymlinkInode, h]
  by_cases hsize : 255 < (table v ino).size
  · rw [if_pos (.inr (by omega)), if_pos hsize]
    rfl
  · have hno : ¬((!true) = true ∨ 256 ≤ (table v ino).size) := by
      rw [not_or]
      exact ⟨by decide, by omega⟩
    rw [if_neg hno, if_neg hsize, fileReadToSink_eq hv (hc.held hs) (Nat.zero_le _), Nat.sub_zero,
      Nat.min_self]
    rfl

theorem inTree_of_leads (hdir : InTree v dir) (h : Leads v dir trail last) : InTree v last := by
  induction trail generalizing dir with
  | nil =>
    have hlast : dir = last := h
    exact hlast ▸ hdir
  | cons name trail ih =>
    obtain ⟨next, he, hl⟩ := h
    obtain ⟨type, hfind⟩ := he.find
    exact ih (hdir.child he.short hfind he.dir) hl

theorem InTree.isDir (ht : DirTree v) (h : InTree v dir) : inodeIsDir (table v dir) = true := by
  cases h with
  | root => exact ht.root
  | child _ _ _ hnext => exact hnext

theorem trailText_ends (h : Leads v dir trail last) :
    trailText trail = [] ∨ endsInSep (trailText trail) = false := by
  induction trail using reverseRecOn generalizing last with
  | nil => exact .inl rfl
  | append_singleton trail name ih =>
    obtain ⟨mid, _, he⟩ := leads_concat.mp h
    exact .inr (he.plain.endsInSep_concat trail)

theorem DirTree.up_of_leads (ht : DirTree v) (h : Leads v 2 trail dir) :
    ∃ parent type, dirFindEntry v (table v dir) dotDotName = some (parent, type) ∧
      Leads v 2 trail.dropLast parent ∧ trailText trail.dropLast = pathParentPop (trailText trail) ∧
      (trailText trail.dropLast).length ≤ (trailText trail).length := by
  cases trail using reverseRecOn with
  | nil =>
    have hroot : 2 = dir := h
    obtain ⟨type, hup⟩ := ht.rootUp
    exact ⟨2, type, hroot ▸ hup, rfl, rfl, Nat.le_refl _⟩
  | append_singleton trail name =>
    obtain ⟨parent, hl, he⟩ := leads_concat.mp h
    obtain ⟨type, hfind⟩ := he.find
    obtain ⟨type, hup⟩ := ht.up (inTree_of_leads .root hl) he.short he.notDot he.notDotDot hfind
      he.dir
    rw [dropLast_concat, trailText_concat]
    exact ⟨parent, type, hup, hl, (pathParentPop_joinText he.plain (trailText_ends hl)).symm,
      length_le_joinText ..⟩

theorem leads_start (h : Leads v 2 trail dir) (target : Path) :
    let start := if target.head? = some 47 then (2, []) else (dir, trail)
    Leads v 2 start.2 start.1 ∧
      trailText start.2 = if target.head? = some 47 then [] else trailText trail := by
  by_cases habs : target.head? = some 47
  · simp only [habs, if_true]
    exact ⟨rfl, rfl⟩
  · simp only [habs, if_false]
    exact ⟨h, trivial⟩

/-- One component after the other, the text and the inode of the directory agree;
`hexpand` carries the agreement over a link. -/
theorem visit_eq_follow (hv : Ready v) (hc : Consistent v) (ht : DirTree v)
    {expand : Nat → List Name → List Component → Except WalkFailure Nat}
    (hexpand : ∀ {dir trail text}, Leads v 2 trail dir →
      (joinText (trailText trail) text).length ≤ 255 →
      (redirect (joinText (trailText trail) text)).map Prod.snd =
        (expand dir trail (components text)).toOption)
    {cs : List Component} (h : Leads v 2 trail dir)
    (hfit : (trailText trail).length ≤ 255) (hplain : ∀ c ∈ cs, Plain c.name) :
    ((names v).visit ff redirect cs (trailText trail) dir).map Prod.snd =
      (follow v ff expand dir trail cs).toOption := by
  induction cs generalizing dir trail with
  | nil => rfl
  | cons c cs ih =>
    have hplain' : ∀ c ∈ cs, Plain c.name := fun k hk => hplain k (mem_cons_of_mem _ hk)
    have hin : InTree v dir := inTree_of_leads .root h
    unfold Names.visit follow
    by_cases hlong : 255 < c.name.length
    · rw [if_pos (by omega), if_pos hlong]
      rfl
    rw [if_neg (by omega), if_neg hlong]
    by_cases hdot : c.name = dotName
    · obtain ⟨type, hfind⟩ := ht.dot hin
      have hdir := hin.isDir ht
      rw [if_pos hdot, hdot, hfind]
      simp only [not_isSymlink_of_isDir hdir, hdir, Bool.false_eq_true, false_and, if_false,
        Bool.not_true, trailAfter, if_true, show ¬255 < (trailText trail).length from by omega]
      split_ifs with hlast
      · rw [List.isEmpty_iff.mp hlast]
        rfl
      · exact ih h hfit hplain'
    rw [if_neg hdot]
    have hfindEq : (names v).find dir c.name = dirFindEntry v (table v dir) c.name := rfl
    rw [hfindEq]
    cases hfind : dirFindEntry v (table v dir) c.name with
    | none => rfl
    | some e =>
      obtain ⟨next, type⟩ := e
      have hvalid := ht.valid hin (by omega) hfind
      simp only
      rw [if_neg (by unfold ValidIno at hvalid; omega)]
      have hsym : (names v).isSymlink next = inodeIsSymlink (table v next) := rfl
      have hisDir : (names v).isDir next = inodeIsDir (table v next) := rfl
      rw [hsym, hisDir]
      by_cases hlink : inodeIsSymlink (table v next) = true ∧ (cs.isEmpty = false ∨ ff = true)
      · obtain ⟨hstart, htext⟩ := leads_start h (linkText v next)
        rw [if_pos hlink, if_pos hlink, names_target hv hc hlink.1]
        by_cases hsize : 255 < (table v next).size
        · rw [if_pos hsize, if_pos hsize]
          rfl
        rw [if_neg hsize, if_neg hsize]
        simp only [pathDirJoin_eq hfit]
        rw [← htext]
        generalize (if (linkText v next).head? = some 47 then (2, []) else (dir, trail)) = start
          at hstart
        by_cases hlong :
            255 < (joinText (trailText start.2) (joinText (linkText v next) c.rest)).length
        · rw [if_neg (by omega), if_pos hlong]
          rfl
        · rw [if_pos (by omega), if_neg hlong]
          exact hexpand hstart (by omega)
      rw [if_neg hlink, if_neg hlink]
      by_cases hlast : cs.isEmpty = true
      · rw [if_pos hlast, if_pos hlast]
        rfl
      rw [if_neg hlast, if_neg hlast]
      by_cases hdir : inodeIsDir (table v next) = true
      · simp only [hdir, Bool.not_true, Bool.false_eq_true, if_false, trailAfter, hdot]
        by_cases hup : c.name = dotDotName
        · obtain ⟨parent, _, hfind', hl, htext, hlen⟩ := ht.up_of_leads h
          rw [hup, hfind'] at hfind
          obtain rfl : parent = next := congrArg Prod.fst (Option.some.inj hfind)
          rw [if_pos hup, if_pos hup, if_neg (by omega), ← htext]
          exact ih hl (by omega) hplain'
        · have he : Enters v dir c.name next :=
            ⟨hplain c (mem_cons_self ..), by omega, hdot, hup, ⟨type, hfind⟩, hvalid, hdir⟩
          rw [if_neg hup, if_neg hup, pathAppendPart_eq hfit, ← trailText_concat]
          split_ifs with h1 h2 h2
          · omega
          · exact ih (leads_concat.mpr ⟨dir, h, he⟩) h1 hplain'
          · rfl
          · omega
      · simp only [hdir, Bool.not_false, if_true]
        rfl

theorem resolve_eq_walkFrom (hv : Ready v) (hc : Consistent v) (ht : DirTree v) {links : Nat}
    {text : Path} (h : Leads v 2 trail dir) (hfit : (joinText (trailText trail) text).length ≤ 255)
    : ((names v).resolve ff (links + 1) (joinText (trailText trail) text)).map Prod.snd =
      (walkFrom v ff links dir trail (components text)).toOption := by
  have hlen := length_le_joinText (trailText trail) text
  have hplain : ∀ c ∈ components text, Plain c.name := fun c => plain_of_mem_components
  induction links generalizing dir trail text with
  | zero =>
    rw [Names.resolve_succ, visit_trail h (by rwa [nil_joinText]), nil_joinText, walkFrom]
    exact visit_eq_follow hv hc ht (fun _ _ => rfl) h (by omega) hplain
  | succ links ih =>
    rw [Names.resolve_succ, visit_trail h (by rwa [nil_joinText]), nil_joinText, walkFrom]
    refine visit_eq_follow hv hc ht (fun hl hf => ?_) h (by omega) hplain
    exact ih hl hf (length_le_joinText ..) fun c => plain_of_mem_components

end

/-- Path resolution refines the inode walk: on a volume whose directories form a
tree it ends at the inode the reference walk ends at, and fails when that fails. -/
theorem resolution_refines_walk {v : Vol} (hv : Ready v) (hc : Consistent v) (ht : DirTree v)
    (followFinal : Bool) (path : Path) :
    (resolvePathEx v followFinal 9 path).map (fun r => (r.ino, r.inode)) =
      (referenceWalk v followFinal path).toOption.map fun ino => (ino, table v ino) := by
  have hroot : Leads v 2 [] 2 := rfl
  have hwalk : ((names v).resolve followFinal 9 path).map Prod.snd =
      (referenceWalk v followFinal path).toOption := by
    rw [Names.resolve_succ, referenceWalk, walkFrom]
    exact visit_eq_follow hv hc ht (fun hl hf => resolve_eq_walkFrom hv hc ht hl hf) hroot
      (Nat.zero_le _) fun c => plain_of_mem_components
  rw [resolvePathEx_eq hv, ← hwalk, Option.map_map, Option.map_map]
  rfl

theorem mem_of_findIn {es : List Entry} {r : Nat × Nat}
    (h : findIn es name = some r) : ∃ e ∈ es, e.name = name ∧ e.found = r := by
  induction es with
  | nil => cases h
  | cons e es ih =>
    rw [findIn_cons] at h
    split_ifs at h with hname
    · exact ⟨e, mem_cons_self .., hname, Option.some.inj h⟩
    · obtain ⟨e', he', hrest⟩ := ih h
      exact ⟨e', mem_cons_of_mem _ he', hrest⟩

def linkedDir : Sample where
  records := [(2, record dirMode 4096 3 [36]), (11, record dirMode 4096 2 [37]),
    (12, record linkMode 1 1 [38])]
  data b :=
    if b = 36 then
      dirRecords 0 [(2, 12, dotName, 2), (2, 12, dotDotName, 2), (11, 12, [100], 2),
        (12, 4060, [108], 7)]
    else if b = 37 then dirRecords 0 [(11, 12, dotName, 2), (2, 4084, dotDotName, 2)]
    else if b = 38 then ofList [100]
    else zeros
  blocks := ⟨fun i => if i < 4 then 255 else if i = 4 then 127 else 0⟩
  inodes := ⟨fun i => if i = 0 then 255 else if i = 1 then 15 else 0⟩

theorem linkedDir_sound : linkedDir.Sound :=
  have ⟨fits, empty⟩ := Sample.direct [(2, dirMode, 4096, 3, [36]), (11, dirMode, 4096, 2, [37]),
    (12, linkMode, 1, 1, [38])] rfl (by decide)
  ⟨by decide, fits, by decide, by decide, empty, by decide⟩

def linkedDirEntries (dir : Nat) : List Entry :=
  if dir = 2 then
    [⟨dotName, 2, 2⟩, ⟨dotDotName, 2, 2⟩, ⟨[100], 11, 2⟩, ⟨[108], 12, 7⟩]
  else [⟨dotName, 11, 2⟩, ⟨dotDotName, 2, 2⟩]

theorem linkedDir_find (hdir : dir = 2 ∨ dir = 11) (hname : name.length ≤ 255) :
    dirFindEntry linkedDir.volume (table linkedDir.volume dir) name =
      findIn (linkedDirEntries dir) name := by
  have htable := linkedDir_sound.table dir
  have hisDir : inodeIsDir (table linkedDir.volume dir) = true := by
    rw [htable]
    obtain rfl | rfl := hdir <;> decide
  refine dirFindEntry_listed linkedDir_sound.ready
    (linkedDir_sound.consistent.held (inodeIsSpecial_of_isDir hisDir)) hisDir hname ?_
  rw [htable]
  obtain rfl | rfl := hdir <;> decide

theorem linkedDir_inTree (h : InTree linkedDir.volume dir) : dir = 2 ∨ dir = 11 := by
  induction h with
  | root => exact .inl rfl
  | child hdir hname hfind hnext ih =>
    rename_i dir next type name
    rw [linkedDir_find ih hname] at hfind
    obtain ⟨e, he, -, hfound⟩ := mem_of_findIn hfind
    obtain rfl : e.ino = next := congrArg Prod.fst hfound
    have hall : ∀ dir, dir = 2 ∨ dir = 11 → ∀ e ∈ linkedDirEntries dir,
        inodeIsDir ((linkedDir.records.lookup e.ino).getD Inode.zero) = true →
        e.ino = 2 ∨ e.ino = 11 := by
      rintro dir (rfl | rfl) <;> decide
    rw [linkedDir_sound.table] at hnext
    exact hall dir ih e he hnext

theorem linkedDir_tree : DirTree linkedDir.volume where
  root := by
    rw [linkedDir_sound.table]
    decide
  valid := by
    intro dir name e h hname hfind
    rw [linkedDir_find (linkedDir_inTree h) hname] at hfind
    obtain ⟨k, hk, -, rfl⟩ := mem_of_findIn hfind
    have hall : ∀ dir, dir = 2 ∨ dir = 11 → ∀ k ∈ linkedDirEntries dir,
        k.found.1 ≠ 0 ∧ k.found.1 ≤ 1024 := by
      rintro dir (rfl | rfl) <;> decide
    exact hall dir (linkedDir_inTree h) k hk
  dot := by
    intro dir h
    rw [linkedDir_find (linkedDir_inTree h) (by decide)]
    obtain rfl | rfl := linkedDir_inTree h <;> exact ⟨2, by decide⟩
  rootUp := by
    rw [linkedDir_find (.inl rfl) (by decide)]
    exact ⟨2, by decide⟩
  up := by
    intro dir name next type h hname hdot hdotdot hfind hnext
    rw [linkedDir_find (linkedDir_inTree h) hname] at hfind
    obtain ⟨k, hk, rfl, hfound⟩ := mem_of_findIn hfind
    obtain rfl : k.ino = next := congrArg Prod.fst hfound
    have hall : ∀ dir, dir = 2 ∨ dir = 11 → ∀ k ∈ linkedDirEntries dir, k.name ≠ dotName →
        k.name ≠ dotDotName →
        inodeIsDir ((linkedDir.records.lookup k.ino).getD Inode.zero) = true →
        (k.ino = 2 ∨ k.ino = 11) ∧ findIn (linkedDirEntries k.ino) dotDotName = some (dir, 2) := by
      rintro dir (rfl | rfl) <;> decide
    rw [linkedDir_sound.table] at hnext
    obtain ⟨hino, hup⟩ := hall dir (linkedDir_inTree h) k hk hdot hdotdot hnext
    exact ⟨2, by rw [linkedDir_find hino (by decide), hup]⟩

/-- The path `/l/../l` leads to the directory behind the link. -/
theorem resolution_refines_walk_linked :
    (referenceWalk linkedDir.volume true [47, 108, 47, 46, 46, 47, 108]).toOption = some 11 := by
  have h := resolution_refines_walk linkedDir_sound.ready linkedDir_sound.consistent linkedDir_tree
    true [47, 108, 47, 46, 46, 47, 108]
  have hres : ((resolvePathEx linkedDir.volume true 9 [47, 108, 47, 46, 46, 47, 108]).map
      fun r => r.ino) = some 11 := by decide
  have hino := congrArg (Option.map Prod.fst) h
  rw [Option.map_map, Option.map_map] at hino
  have hid : (Prod.fst ∘ fun ino => (ino, table linkedDir.volume ino)) = id := rfl
  rw [hid, Option.map_id_fun, id] at hino
  exact hino.symm.trans hres

end SmallOS.Ext2
