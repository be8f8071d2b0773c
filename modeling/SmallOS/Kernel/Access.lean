import SmallOS.Ext2.PathLeaf

/-! Paths of system calls: how a path of a process becomes the path the file system
is asked for, which mount it lies on, and what the permission checks look at. -/

namespace SmallOS.Kernel

open Ext2 Spans List Option Bool

inductive Errno
  | enoent
  | eacces
  | ebusy
  | enotdir
  | eisdir
  | einval
  | enametoolong
  deriving DecidableEq

/-- The components of one source, taken onto those before it: `.` is skipped, `..`
takes the last one away. -/
def addComponents : List Component → (comps : List Name) → Option (List Name)
  | [], comps => some comps
  | c :: cs, comps =>
    if 31 < c.name.length then none
    else if c.name = dotName then addComponents cs comps
    else if c.name = dotDotName then addComponents cs comps.dropLast
    else if 16 ≤ comps.length then none
    else addComponents cs (comps ++ [c.name])

def startsWithSep (path : Path) : Bool :=
  match path with
  | [] => false
  | c :: _ => isSep c

def baseComponents (base path : Path) : Option (List Name) :=
  if base ≠ [] ∧ !startsWithSep path then addComponents (components base) [] else some []

def pathBuildFrom (base path : Path) (outSize : Nat) : Option Path := do
  let comps ← baseComponents base path
  let comps ← addComponents (components path) comps
  if outSize ≤ (trailText comps).length then none else some (trailText comps)

def copyUserPathResolved (cwd raw : Path) : Except Errno Path :=
  if 128 ≤ raw.length then .error .enametoolong
  else if raw = [] then .error .einval
  else match pathBuildFrom cwd raw 128 with
    | none => .error .enametoolong
    | some path => .ok path

inductive FsType
  | ext2
  | proc
  | devtmpfs
  | other
  deriving DecidableEq

structure Mount where
  target : Path
  fstype : FsType
  pseudo : Bool
  deriving DecidableEq

def procName : Name := [112, 114, 111, 99]

def devName : Name := [100, 101, 118]

def mountPathMatches (path target : Path) : Bool :=
  target.isPrefixOf path && (target.isEmpty || match path.drop target.length with
    | [] => true
    | c :: _ => c == 47)

/-- The mounts in use: the root, `proc` and `dev`, which stay, and pseudo file systems on
other directories. -/
structure Mounts where
  others : List Mount
  pseudo : ∀ m ∈ others, m.pseudo = true
  named : ∀ m ∈ others, m.target ≠ []

def rootMount : Mount := ⟨[], .ext2, false⟩

def Mounts.pseudos (M : Mounts) : List Mount :=
  ⟨procName, .proc, true⟩ :: ⟨devName, .devtmpfs, true⟩ :: M.others

def Mounts.all (M : Mounts) : List Mount := rootMount :: M.pseudos

def betterMount (path : Path) (best m : Mount) : Mount :=
  if mountPathMatches path m.target && decide (best.target.length ≤ m.target.length) then m
  else best

def mountFindForPath (M : Mounts) (path : Path) : Mount :=
  M.all.foldl (betterMount path) rootMount

def mountFindExact (M : Mounts) (path : Path) : Option Mount :=
  M.all.find? fun m => path == m.target

def pathOnPseudoMount (M : Mounts) (path : Path) : Bool := (mountFindForPath M path).pseudo

def pathIsMountTarget (M : Mounts) (path : Path) : Bool := (mountFindExact M path).isSome

def virtualEffectivePath (M : Mounts) (path : Path) : Path :=
  let m := mountFindForPath M path
  let suffix := path.drop m.target.length
  if !m.pseudo then path
  else match m.fstype with
    | .proc => (procName ++ suffix).take 127
    | .devtmpfs => (devName ++ suffix).take 127
    | _ => path

/-- The generated files, by their path under `proc` and `dev`; which processes there are
and what the files say is left open. -/
structure VirtualFiles where
  stat : Path → Option StatInfo
  named : ∀ path info, stat path = some info →
    mountPathMatches path procName = true ∨ mountPathMatches path devName = true

structure System where
  mounts : Mounts
  virtual : VirtualFiles

structure Cred where
  euid : Nat
  egid : Nat
  suppGid : Option Nat

def virtualStatInfo (S : System) (path : Path) : Option StatInfo :=
  S.virtual.stat (virtualEffectivePath S.mounts path)

def statInfoAny (S : System) (v : Vol) (path : Path) : Option StatInfo :=
  (virtualStatInfo S path).or (ext2StatInfo v path)

def ext2Stat (v : Vol) (path : Path) : Bool :=
  v.initialised && match resolvePath v path with
    | none => false
    | some r => !inodeIsDir r.inode

def vfsStat (v : Vol) (path : Path) : Option Bool :=
  if ext2Stat v path then some false
  else if ext2IsDir v path then some true
  else none

def slashPrefixes (path : Path) : List Path :=
  ((List.range path.length).filter fun i =>
    path.getD i 0 == 47 && decide (i ≠ 0) && decide (i < 128)).map path.take

def pathLookupErrno (v : Vol) (path : Path) : Option Errno :=
  if path = [] then if ext2IsDir v [] then none else some .enoent
  else if (slashPrefixes path).any fun text => vfsStat v text == some false then some .enotdir
  else if (vfsStat v path).isSome || ext2IsDir v path then none
  else some .enoent

def Cred.isRoot (c : Cred) : Bool := c.euid == 0

def permissionClassBits (c : Cred) (info : StatInfo) : Nat :=
  if c.euid = info.uid then info.mode >>> 6 &&& 7
  else if c.egid = info.gid ∨ c.suppGid = some info.gid then info.mode >>> 3 &&& 7
  else info.mode &&& 7

def permissionAllows (c : Cred) (info : StatInfo) (need : Nat) : Bool :=
  need == 0 || c.isRoot || permissionClassBits c info &&& need == need

def permW : Nat := 2

def permX : Nat := 1

def checkPrefixes (S : System) (c : Cred) (v : Vol) : List Path → Option Errno
  | [] => none
  | text :: texts =>
    match statInfoAny S v text with
    -- the caller goes on when the code of the lookup is 0
    | none => pathLookupErrno v text
    | some info =>
      if fileType info.mode ≠ 0x4000 then some .enotdir
      else if !permissionAllows c info permX then some .eacces
      else checkPrefixes S c v texts

def checkPathPrefixExecute (S : System) (c : Cred) (v : Vol) (path : Path) : Option Errno :=
  if c.isRoot then none else checkPrefixes S c v (slashPrefixes path)

def pathParent (path : Path) : Path := (path.rdropWhile (· != 47)).dropLast

def checkParentPermission (S : System) (c : Cred) (v : Vol) (path : Path) (need : Nat) :
    Option Errno :=
  if 128 ≤ (pathParent path).length then some .enametoolong
  else match checkPathPrefixExecute S c v (pathParent path) with
    | some e => some e
    | none =>
      match statInfoAny S v (pathParent path) with
      | none => pathLookupErrno v (pathParent path)
      | some info =>
        if fileType info.mode ≠ 0x4000 then some .enotdir
        else if !permissionAllows c info need then some .eacces
        else none

structure Kept (name : Name) : Prop where
  plain : Plain name
  notDot : name ≠ dotName
  notDotDot : name ≠ dotDotName
  short : name.length ≤ 31

theorem addComponents_kept {cs : List Component} {comps comps' : List Name}
    (hplain : ∀ c ∈ cs, Plain c.name) (hcomps : ∀ n ∈ comps, Kept n)
    (h : addComponents cs comps = some comps') : ∀ n ∈ comps', Kept n := by
  induction cs generalizing comps with
  | nil => exact Option.some.inj h ▸ hcomps
  | cons c cs ih =>
    have hrest : ∀ k ∈ cs, Plain k.name := fun k hk => hplain k (mem_cons_of_mem _ hk)
    unfold addComponents at h
    split_ifs at h with hlong hdot hup hmany
    · exact ih hrest hcomps h
    · exact ih hrest (fun n hn => hcomps n ((dropLast_sublist _).subset hn)) h
    · refine ih hrest (fun n hn => ?_) h
      cases mem_append.mp hn with
      | inl hn => exact hcomps n hn
      | inr hn =>
        rw [mem_singleton.mp hn]
        exact ⟨hplain c (mem_cons_self ..), hdot, hup, by omega⟩

theorem copyUserPathResolved_ok {cwd raw path : Path}
    (h : copyUserPathResolved cwd raw = .ok path) : ∃ comps, path = trailText comps ∧ path.length ≤ 127 ∧ ∀ n ∈ comps, Kept n := by
  unfold copyUserPathResolved at h
  split_ifs at h
  cases hbuild : pathBuildFrom cwd raw 128 with
  | none =>
    rw [hbuild] at h
    cases h
  | some path' =>
    rw [hbuild] at h
    obtain rfl : path' = path := by simpa using h
    obtain ⟨start, hstart, hbuild⟩ := bind_eq_some_iff.mp hbuild
    obtain ⟨comps, hcomps, hbuild⟩ := bind_eq_some_iff.mp hbuild
    have hkept : ∀ n ∈ start, Kept n := by
      unfold baseComponents at hstart
      split_ifs at hstart
      · exact addComponents_kept (fun c => plain_of_mem_components) (by simp) hstart
      · rw [← Option.some.inj hstart]
        exact fun n hn => nomatch hn
    split_ifs at hbuild with hlen
    obtain rfl := Option.some.inj hbuild
    exact ⟨comps, rfl, by omega, addComponents_kept (fun c => plain_of_mem_components) hkept hcomps⟩

section

variable {init : List Name} {leaf : Name}

theorem trailText_kept_ends (h : ∀ n ∈ init, Kept n) :
    trailText init = [] ∨ endsInSep (trailText init) = false := by
  induction init using reverseRecOn with
  | nil => exact .inl rfl
  | append_singleton init n ih =>
    have hn := (h n (mem_append_right _ (mem_singleton_self n))).plain
    exact .inr (hn.endsInSep_concat init)

theorem trailText_leaf (h : ∀ n ∈ init, Kept n) (hleaf : Plain leaf) : trailText (init ++ [leaf]) =
      if trailText init = [] then leaf else trailText init ++ 47 :: leaf := by
  rw [trailText_concat, hleaf.joinText_eq, leafTail]
  split_ifs with hends hnil hnil
  · rw [hnil, nil_append]
  · cases ((trailText_kept_ends h).resolve_left hnil).symm.trans hends
  · exact absurd (hnil ▸ rfl) hends
  · rfl

theorem createParent_trail (h : ∀ n ∈ init, Kept n) (hleaf : Plain leaf) :
    createParent (trailText (init ++ [leaf])) = trailText init := by
  rw [trailText_concat]
  exact pathParentPop_joinText hleaf (trailText_kept_ends h)

theorem createLeaf_trail (h : ∀ n ∈ init, Kept n) (hleaf : Plain leaf) :
    createLeaf (trailText (init ++ [leaf])) = leaf := by
  have hall : ∀ c ∈ leaf, (!isSep c) = true := fun c hc => by simp [hleaf.2 c hc]
  rw [createLeaf, rdropWhile_isSep (.inr (hleaf.endsInSep_concat init)), trailText_leaf h hleaf]
  split_ifs
  · exact rtakeWhile_eq_self_iff.mpr hall
  · exact (rspan_stop (by decide) hall _).1

theorem pathParent_trail (h : ∀ n ∈ init, Kept n) (hleaf : Plain leaf) :
    pathParent (trailText (init ++ [leaf])) = trailText init := by
  have hall : ∀ c ∈ leaf, (c != 47) = true := by
    intro c hc
    have hsep := hleaf.2 c hc
    rw [bne_iff_ne]
    rintro rfl
    cases hsep
  rw [pathParent, trailText_leaf h hleaf]
  split_ifs with hnil
  · rw [rdropWhile_eq_nil_iff.mpr hall, hnil]
    rfl
  · rw [(rspan_stop (by decide) hall _).2, dropLast_concat]

end

section

variable {path : Path} {ms : List Mount} {best : Mount}

theorem foldl_pseudo (hms : ∀ m ∈ ms, m.pseudo = true)
    (h : best.pseudo = true) : (ms.foldl (betterMount path) best).pseudo = true := by
  induction ms generalizing best with
  | nil => exact h
  | cons m ms ih =>
    refine ih (fun k hk => hms k (mem_cons_of_mem _ hk)) ?_
    unfold betterMount
    split_ifs
    · exact hms m (mem_cons_self ..)
    · exact h

theorem foldl_not_pseudo (hms : ∀ m ∈ ms, m.pseudo = true)
    (hbest : best.target = []) (h : (ms.foldl (betterMount path) best).pseudo = false) :
    ∀ m ∈ ms, mountPathMatches path m.target = false := by
  induction ms with
  | nil => exact fun m hm => nomatch hm
  | cons m ms ih =>
    have hrest : ∀ k ∈ ms, k.pseudo = true := fun k hk => hms k (mem_cons_of_mem _ hk)
    have hno : mountPathMatches path m.target = false := by
      by_contra hyes
      have htake : betterMount path best m = m := by
        unfold betterMount
        rw [if_pos]
        simpa [hbest] using hyes
      rw [foldl_cons, htake] at h
      cases (foldl_pseudo hrest (hms m (mem_cons_self ..))).symm.trans h
    have hkeep : betterMount path best m = best := by
      unfold betterMount
      rw [hno]
      rfl
    rw [foldl_cons, hkeep] at h
    intro k hk
    cases mem_cons.mp hk with
    | inl hk => rw [hk, hno]
    | inr hk => exact ih hrest h k hk

theorem Mounts.pseudos_pseudo (M : Mounts) : ∀ m ∈ M.pseudos, m.pseudo = true := by
  intro m hm
  simp only [Mounts.pseudos, mem_cons] at hm
  obtain rfl | rfl | hm := hm
  · rfl
  · rfl
  · exact M.pseudo m hm

theorem mountFindForPath_eq (M : Mounts) (path : Path) :
    mountFindForPath M path = M.pseudos.foldl (betterMount path) rootMount := by
  rw [mountFindForPath, Mounts.all, foldl_cons]
  congr 1

variable {M : Mounts}

theorem mountFindForPath_root (h : ∀ m ∈ M.pseudos, mountPathMatches path m.target = false) :
    mountFindForPath M path = rootMount := by
  rw [mountFindForPath_eq]
  generalize M.pseudos = ms at h
  induction ms with
  | nil => rfl
  | cons m ms ih =>
    have hkeep : betterMount path rootMount m = rootMount := by
      unfold betterMount
      rw [h m (mem_cons_self ..)]
      rfl
    rw [foldl_cons, hkeep]
    exact ih fun k hk => h k (mem_cons_of_mem _ hk)

theorem pathOnPseudoMount_eq_false : pathOnPseudoMount M path = false ↔
    ∀ m ∈ M.pseudos, mountPathMatches path m.target = false := by
  constructor
  · intro h
    rw [pathOnPseudoMount, mountFindForPath_eq] at h
    exact foldl_not_pseudo M.pseudos_pseudo rfl h
  · intro h
    rw [pathOnPseudoMount, mountFindForPath_root h]
    rfl

theorem mountPathMatches_below {parent target : Path} (leaf : Name)
    (h : mountPathMatches parent target = true) :
    mountPathMatches (parent ++ 47 :: leaf) target = true := by
  unfold mountPathMatches at h ⊢
  rw [and_eq_true, or_eq_true, isPrefixOf_iff_prefix] at h ⊢
  obtain ⟨⟨rest, rfl⟩, hrest⟩ := h
  refine ⟨⟨rest ++ 47 :: leaf, by rw [append_assoc]⟩, hrest.imp id fun hrest => ?_⟩
  rw [drop_left] at hrest
  rw [append_assoc, drop_left]
  cases rest with
  | nil => rfl
  | cons c rest => exact hrest

theorem virtualStatInfo_parent {S : System} {init : List Name} {leaf : Name}
    (hinit : ∀ n ∈ init, Kept n) (hleaf : Plain leaf)
    (h : pathOnPseudoMount S.mounts (trailText (init ++ [leaf])) = false) :
    virtualStatInfo S (trailText init) = none := by
  rw [pathOnPseudoMount_eq_false] at h
  have hparent : ∀ m ∈ S.mounts.pseudos, mountPathMatches (trailText init) m.target = false := by
    intro m hm
    have hbelow := h m hm
    rw [trailText_leaf hinit hleaf] at hbelow
    by_contra hyes
    rw [not_eq_false] at hyes
    split_ifs at hbelow with hnil
    · have hne : m.target ≠ [] := by
        simp only [Mounts.pseudos, mem_cons] at hm
        obtain rfl | rfl | hm := hm
        · exact cons_ne_nil _ _
        · exact cons_ne_nil _ _
        · exact S.mounts.named m hm
      rw [hnil] at hyes
      unfold mountPathMatches at hyes
      rw [and_eq_true, isPrefixOf_iff_prefix] at hyes
      exact hne (prefix_nil.mp hyes.1)
    · cases (mountPathMatches_below leaf hyes).symm.trans hbelow
  have hpath : virtualEffectivePath S.mounts (trailText init) = trailText init := by
    unfold virtualEffectivePath
    rw [mountFindForPath_root hparent]
    rfl
  unfold virtualStatInfo
  rw [hpath]
  cases hstat : S.virtual.stat (trailText init) with
  | none => rfl
  | some info =>
    have hproc := hparent ⟨procName, .proc, true⟩ (by simp [Mounts.pseudos])
    have hdev := hparent ⟨devName, .devtmpfs, true⟩ (by simp [Mounts.pseudos])
    cases S.virtual.named _ _ hstat with
    | inl hyes => cases hyes.symm.trans hproc
    | inr hyes => cases hyes.symm.trans hdev

end

end SmallOS.Kernel
