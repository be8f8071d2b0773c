import SmallOS.Exec.Replace

/-! The stack a program starts with. The strings, the arrays of pointers to them, the auxiliary
vector and a frame are pushed below the top of user memory, and a program that reads from the stack
pointer on finds what it was given. -/

namespace SmallOS.Exec

open Bytes Prog Ranges Vm List Nat

variable {src : Buf} {ptrs : List Nat} {strs : List Path} {a e fuel hi len lo mid need sp x : Nat}
  {s s' : Space}

def userWord (s : Space) (x : Nat) : Option Nat :=
  match byteOf s x, byteOf s (x + 1), byteOf s (x + 2), byteOf s (x + 3) with
  | some b, some c, some d, some e =>
    some (b.toNat + 256 * c.toNat + 65536 * d.toNat + 16777216 * e.toNat)
  | _, _, _, _ => none

def userString (s : Space) : (fuel x : Nat) → Option Path
  | 0, _ => none
  | n + 1, x => do
    let b ← byteOf s x
    if b = 0 then some [] else return b :: (← userString s n (x + 1))

def userPointers (s : Space) : (fuel x : Nat) → Option (List Nat)
  | 0, _ => none
  | n + 1, x => do
    let w ← userWord s x
    if w = 0 then some [] else return w :: (← userPointers s n (x + 4))

def atNull : Nat := 0

def userPairs (s : Space) : (fuel x : Nat) → Option (List (Nat × Nat))
  | 0, _ => none
  | n + 1, x => do
    let type ← userWord s x
    if type = atNull then some []
    else
      let value ← userWord s (x + 4)
      return (type, value) :: (← userPairs s n (x + 8))

structure Start where
  argc : Nat
  argvAt : Nat
  envpAt : Nat
  auxvAt : Nat
  argPtrs : List Nat
  envPtrs : List Nat
  argv : List Path
  envp : List Path
  auxv : List (Nat × Nat)

def readStart (s : Space) (sp : Nat) : Option Start := do
  let argc ← userWord s (sp + 4)
  let argvAt ← userWord s (sp + 8)
  let envpAt ← userWord s (sp + 12)
  let auxvAt ← userWord s (sp + 16)
  let argPtrs ← userPointers s userStackSize argvAt
  let envPtrs ← userPointers s userStackSize envpAt
  let argv ← argPtrs.mapM (userString s userStackSize)
  let envp ← envPtrs.mapM (userString s userStackSize)
  let auxv ← userPairs s userStackSize auxvAt
  return ⟨argc, argvAt, envpAt, auxvAt, argPtrs, envPtrs, argv, envp, auxv⟩

def Start.parts (d : Start) (sp : Nat) : List (Nat × Nat) :=
  [(sp, 20), (d.auxvAt, 8 * (d.auxv.length + 1)), (d.argvAt, 4 * (d.argv.length + 1)),
    (d.envpAt, 4 * (d.envp.length + 1))] ++
  List.zipWith (fun p str => (p, str.length + 1)) d.argPtrs d.argv ++
  List.zipWith (fun p str => (p, str.length + 1)) d.envPtrs d.envp

def HoldsAt (s : Space) (x len : Nat) (src : Buf) : Prop :=
  ∀ i < len, byteOf s (x + i) = some (src i)

def KeepsFrom (lo : Nat) (s s' : Space) : Prop :=
  ∀ x b, lo ≤ x → byteOf s x = some b → byteOf s' x = some b

theorem KeepsFrom.trans {lo' : Nat} {t u : Space} (h : KeepsFrom lo s t)
    (h' : KeepsFrom lo' t u) (hle : lo' ≤ lo) : KeepsFrom lo s u :=
  fun x b hx hb => h' x b (hle.trans hx) (h x b hx hb)

theorem HoldsAt.keep (h : HoldsAt s x len src)
    (keeps : KeepsFrom lo s s') (hlo : lo ≤ x) : HoldsAt s' x len src :=
  fun i hi => keeps _ _ (by omega) (h i hi)

def stackBottom : Nat := userStackTop - userStackSize

/-- `need` bytes fit between the bottom of the stack and `sp`, or nothing lies right below the
stack, so that a copy that leaves it fails. -/
def Room (s : Loader) (sp need : Nat) : Prop :=
  stackBottom + need ≤ sp ∨ Safe s ∧ ¬Covered s.space.areas (stackBottom - 1)

theorem below_crosses (hsp : stackBottom ≤ sp ∧ sp ≤ userStackTop)
    (hlen : sp < stackBottom + len) : ∃ k < len, wrap (below sp len + k) = stackBottom - 1 := by
  refine ⟨wrap (stackBottom - 1 + 2 ^ 32 - below sp len), ?_, ?_⟩ <;>
    unfold wrap below wrap stackBottom userStackTop userStackSize pageSize at * <;> omega

theorem below_eq (hsp : sp ≤ userStackTop) (hlen : len ≤ sp) : below sp len = sp - len := by
  unfold below wrap
  unfold userStackTop at hsp
  omega

structure Pushed (s s' : Loader) (sp len need : Nat) (src : Buf) : Prop where
  fits : stackBottom + len ≤ sp
  holds : HoldsAt s'.space (sp - len) len src
  keeps : KeepsFrom sp s.space s'.space
  room : Room s' (sp - len) need

theorem elfCopyToUser_post (fs : Files) (va : Nat) (src : Buf) (len : Nat) (s : Loader) :
    Post (elfCopyToUser fs va src none len) s (fun _ s' => Copied va src 0 len s s')
      (fun _ _ => True) :=
  (copyChunks_post fs va src none len len 0 s (by omega)).mono (fun _ _ h => h) fun _ _ _ => trivial

theorem Room.copied {s s' : Loader} {va : Nat} (room : Room s sp need)
    (h : Copied va src 0 len s s') : Room s' sp need :=
  room.imp_right fun ⟨safe, bare⟩ => ⟨h.safe safe, h.areas ▸ bare⟩

theorem Room.lower {s : Loader} {sp' need' : Nat} (room : Room s sp need)
    (h : sp + need' ≤ sp' + need) : Room s sp' need' :=
  room.imp_left fun hneed => by omega

theorem Copied.holdsAt {s s' : Loader} {va : Nat} (h : Copied va src 0 len s s')
    (hwrap : va + len ≤ userStackTop) : HoldsAt s'.space va len src ∧
      ∀ x b, ¬(va ≤ x ∧ x < va + len) → byteOf s.space x = some b → byteOf s'.space x = some b := by
  have written := h.bytes (hwrap.trans (by decide))
  exact ⟨fun i => written.holds i (Nat.zero_le i), written.keeps⟩

theorem push_post (fs : Files) (need : Nat) {s : Loader}
    (hsp : stackBottom ≤ sp ∧ sp ≤ userStackTop) (room : Room s sp (len + need)) :
    Post (elfCopyToUser fs (below sp len) src none len) s
      (fun _ s' => Pushed s s' sp len need src) (fun _ _ => True) := by
  refine (elfCopyToUser_post fs _ src len s).weaken ?_
  intro u s' copied
  by_cases hfit : stackBottom + len ≤ sp
  · rw [below_eq hsp.2 (by omega)] at copied
    obtain ⟨hnew, hold⟩ := copied.holdsAt (by omega)
    exact ⟨hfit, hnew, fun x b hx => hold x b (by omega), (room.copied copied).lower (by omega)⟩
  · obtain ⟨safe, hbare⟩ := room.resolve_left (by omega)
    obtain ⟨k, hk, hwrap⟩ := below_crosses hsp (not_le.mp hfit)
    exact absurd (hwrap ▸ copied.covered safe k (Nat.zero_le k) hk) hbare

def StringsAt (s : Space) : List Path → List Nat → (lo hi : Nat) → Prop
  | [], [], lo, hi => lo = hi
  | str :: strs, p :: ptrs, lo, hi =>
    p = lo ∧ HoldsAt s lo (str.length + 1) (ofList (str ++ [0])) ∧
      StringsAt s strs ptrs (lo + (str.length + 1)) hi
  | _, _, _, _ => False

/-- Induction over the strings, from the last one down. -/
theorem StringsAt.along {motive : ∀ strs ptrs lo, StringsAt s strs ptrs lo hi → Prop}
    (nil : motive [] [] hi rfl) (cons : ∀ (str : Path) strs ptrs lo
      (hstr : HoldsAt s lo (str.length + 1) (ofList (str ++ [0])))
      (hrest : StringsAt s strs ptrs (lo + (str.length + 1)) hi),
      motive strs ptrs _ hrest → motive (str :: strs) (lo :: ptrs) lo ⟨rfl, hstr, hrest⟩)
    (strs ptrs lo) (h : StringsAt s strs ptrs lo hi) : motive strs ptrs lo h := by
  induction strs generalizing ptrs lo with
  | nil =>
    cases ptrs with
    | nil => cases h; exact nil
    | cons p ptrs => exact h.elim
  | cons str strs ih =>
    cases ptrs with
    | nil => exact h.elim
    | cons p ptrs =>
      obtain ⟨rfl, hstr, hrest⟩ := h
      exact cons _ _ _ _ hstr hrest (ih _ _ hrest)

theorem StringsAt.keep (keeps : KeepsFrom lo s s') (h : StringsAt s strs ptrs lo hi) :
    StringsAt s' strs ptrs lo hi := by
  induction strs, ptrs, lo, h using StringsAt.along with
  | nil => rfl
  | cons str strs ptrs lo hstr _ ih =>
    exact ⟨rfl, hstr.keep keeps le_rfl, ih fun x b hx => keeps x b (by omega)⟩

theorem stringBytes_cons (str : Path) (strs : List Path) :
    stringBytes (str :: strs) = str.length + 1 + stringBytes strs := by
  simp [stringBytes]

structure PushedStrings (s s' : Loader) (strs : List Path) (ptrs : List Nat) (sp sp' need : Nat) :
    Prop where
  bottom : stackBottom ≤ sp'
  size : sp' + stringBytes strs = sp
  strings : StringsAt s'.space strs ptrs sp' sp
  keeps : KeepsFrom sp s.space s'.space
  room : Room s' sp' need

theorem pushStrings_post (fs : Files) (strs : List Path) (need : Nat) {s : Loader}
    (hsp : stackBottom ≤ sp ∧ sp ≤ userStackTop) (room : Room s sp (stringBytes strs + need)) :
    Post (pushStrings fs strs sp) s
      (fun r s' => PushedStrings s s' strs r.2 sp r.1 need) (fun _ _ => True) := by
  induction strs generalizing need with
  | nil =>
    refine .ret ⟨hsp.1, rfl, rfl, fun _ _ _ h => h, ?_⟩
    simpa [stringBytes] using room
  | cons str strs ih =>
    rw [stringBytes_cons] at room
    have hrest := ih (str.length + 1 + need) (by
      rwa [← Nat.add_assoc, Nat.add_comm (stringBytes strs)])
    refine .seq hrest ?_
    rintro ⟨sp1, ptrs⟩ s1 h1
    have hbytes := h1.size
    refine .seq (push_post fs need ⟨h1.bottom, by omega⟩ h1.room) ?_
    intro u s2 h2
    have hfits := h2.fits
    rw [below_eq (by omega) (by omega)]
    have hsum : sp1 - (str.length + 1) + (str.length + 1) = sp1 := by omega
    refine .ret ⟨by omega, ?_, ⟨rfl, h2.holds, ?_⟩, h1.keeps.trans h2.keeps (by omega), h2.room⟩
    · rw [stringBytes_cons]
      omega
    · rw [hsum]
      exact h1.strings.keep h2.keeps

theorem pushWords_post (fs : Files) (words : List Nat) (need : Nat) {s : Loader}
    (hsp : stackBottom ≤ sp ∧ sp ≤ userStackTop) (room : Room s sp (4 * words.length + need)) :
    Post (pushWords fs sp words) s (fun sp' s' => sp' = sp - 4 * words.length ∧
        Pushed s s' sp (4 * words.length) need (wordsBuf words)) (fun _ _ => True) := by
  refine .seq (push_post fs need hsp room) ?_
  intro u s' h
  have hfits := h.fits
  exact .ret ⟨below_eq hsp.2 (by omega), h⟩

structure PushedPairs (s s' : Loader) (sp len need : Nat) (src null : Buf) : Prop where
  fits : stackBottom + (len + 8) ≤ sp
  holds : HoldsAt s'.space (sp - (len + 8)) len src
  null : HoldsAt s'.space (sp - 8) 8 null
  keeps : KeepsFrom sp s.space s'.space
  room : Room s' (sp - (len + 8)) need

theorem pushPairs_post (fs : Files) (need : Nat) {null : Buf} {s : Loader}
    (hsp : stackBottom ≤ sp ∧ sp ≤ userStackTop) (hlen : len + 8 ≤ stackBottom)
    (room : Room s sp (len + 8 + need)) :
    Post (elfCopyToUser fs (below sp (len + 8)) src none len >>= fun _ =>
        elfCopyToUser fs (wrap (below sp (len + 8) + len)) null none 8) s
      (fun _ s' => PushedPairs s s' sp len need src null) (fun _ _ => True) := by
  have hva : below sp (len + 8) = sp - (len + 8) := below_eq hsp.2 (by omega)
  have hend : wrap (sp - (len + 8) + len) = sp - 8 := by
    rw [show sp - (len + 8) + len = sp - 8 by omega]
    have htop : userStackTop ≤ 2 ^ 32 - 1 := by decide
    exact mod_eq_of_lt (by omega)
  rw [hva, hend]
  by_cases hfit : stackBottom + 8 ≤ sp
  · have hbelow : sp - (len + 8) = below (sp - 8) len := by
      rw [below_eq (by omega) (by omega)]
      omega
    rw [hbelow]
    refine .seq (push_post fs need ⟨by omega, by omega⟩ (room.lower (by omega))) ?_
    intro u s1 h1
    have hfits := h1.fits
    refine (elfCopyToUser_post fs _ null 8 s1).weaken ?_
    intro u s' copied
    obtain ⟨hnew, hold⟩ := copied.holdsAt (by omega)
    have hsub : sp - 8 - len = sp - (len + 8) := by omega
    refine ⟨by omega, fun i hi => ?_, hnew, fun x b hx hb => ?_, hsub ▸ h1.room.copied copied⟩
    · exact hold _ _ (by omega) (hsub ▸ h1.holds i hi)
    · exact hold x b (by omega) (h1.keeps x b (by omega) hb)
  · -- the second copy leaves the stack
    refine .seq (elfCopyToUser_post fs _ src len s) ?_
    intro u s1 copied
    have hbelow : sp - 8 = below sp 8 := (below_eq hsp.2 (by omega)).symm
    rw [hbelow]
    refine (push_post fs (len + need) hsp ((room.copied copied).lower (by omega))).weaken ?_
    intro u s' h'
    exact absurd h'.fits hfit

def stackBytes (argv envp : List Path) (auxv : List (Nat × Nat)) : Nat :=
  stringBytes envp + (stringBytes argv + (3 + (4 * (envp.length + 1) + (4 * (argv.length + 1) +
    (8 * auxv.length + 8 + (4 * 5 + 0))))))

/-- The stack from `sp` up. The strings of the arguments begin at `a`, those of the environment
at `e`. -/
structure Laid (s : Space) (d : Start) (sp a e : Nat) : Prop where
  envp : StringsAt s d.envp d.envPtrs e userStackTop
  argv : StringsAt s d.argv d.argPtrs a e
  argc : d.argc = d.argv.length
  bottom : stackBottom ≤ sp
  spAt : sp + 20 = d.auxvAt
  auxvAt : d.auxvAt + (8 * d.auxv.length + 8) = d.argvAt
  argvAt : d.argvAt + 4 * (d.argv.length + 1) = d.envpAt
  envpAt : d.envpAt + 4 * (d.envp.length + 1) = a / 4 * 4
  envPointers : HoldsAt s d.envpAt (4 * (d.envp.length + 1)) (wordsBuf (d.envPtrs ++ [0]))
  argPointers : HoldsAt s d.argvAt (4 * (d.argv.length + 1)) (wordsBuf (d.argPtrs ++ [0]))
  pairs : HoldsAt s d.auxvAt (8 * d.auxv.length)
    (wordsBuf (d.auxv.flatMap fun (type, value) => [type, value]))
  null : HoldsAt s (d.argvAt - 8) 8 (wordsBuf [0, 0])
  frame : HoldsAt s sp 20 (wordsBuf [0, d.argc, d.argvAt, d.envpAt, d.auxvAt])

theorem StringsAt.length (h : StringsAt s strs ptrs lo hi) : ptrs.length = strs.length := by
  induction strs, ptrs, lo, h using StringsAt.along with
  | nil => rfl
  | cons _ _ _ _ _ _ ih => exact congrArg (· + 1) ih

theorem copy_if_pos {α : Type} (fs : Files) (va : Nat) (src : Buf) (n : Nat) (next : L Unit)
    (rest : Unit → L α) :
    (if 0 < n then elfCopyToUser fs va src none (8 * n) >>= fun _ => next >>= rest
      else next >>= rest) = (elfCopyToUser fs va src none (8 * n) >>= fun _ => next) >>= rest := by
  by_cases hn : 0 < n
  · rw [if_pos hn, bind_assoc]
  · obtain rfl : n = 0 := by omega
    rw [if_neg hn]
    rfl

theorem elfSetupUserStack_post (fs : Files) (argv envp : List Path) (auxv : List (Nat × Nat))
    {s : Loader} (room : Room s userStackTop (stackBytes argv envp auxv)) :
    Post (elfSetupUserStack fs argv envp auxv) s
      (fun sp s' => ∃ d a e, Laid s'.space d sp a e ∧ d.argv = argv ∧ d.envp = envp ∧
        d.auxv = auxv) (fun _ _ => True) := by
  have htop : stackBottom ≤ userStackTop := by decide
  have hbottom : 8 * processAuxvMax + 8 ≤ stackBottom ∧ stackBottom % 4 = 0 := by decide
  refine .guard trivial fun hcounts => ?_
  refine .seq (pushStrings_post fs envp _ ⟨htop, le_rfl⟩ room) ?_
  rintro ⟨e, envPtrs⟩ s1 h1
  have he := h1.size
  have helow := h1.bottom
  refine .seq (pushStrings_post fs argv _ ⟨helow, by omega⟩ h1.room) ?_
  rintro ⟨a, argPtrs⟩ s2 h2
  have ha := h2.size
  have halow := h2.bottom
  have henvLen : (envPtrs ++ [0]).length = envp.length + 1 := by
    rw [length_append, h1.strings.length]
    rfl
  have hargLen : (argPtrs ++ [0]).length = argv.length + 1 := by
    rw [length_append, h2.strings.length]
    rfl
  refine .seq (pushWords_post fs (envPtrs ++ [0])
    (4 * (argv.length + 1) + (8 * auxv.length + 8 + (4 * 5 + 0)))
    (show stackBottom ≤ a / 4 * 4 ∧ a / 4 * 4 ≤ userStackTop by omega)
    (by rw [henvLen]; exact h2.room.lower (by omega))) ?_
  rintro _ s3 ⟨rfl, h3⟩
  rw [henvLen] at h3 ⊢
  have hfits3 := h3.fits
  generalize hpe : a / 4 * 4 - 4 * (envp.length + 1) = envpAt at h3 ⊢
  refine .seq (pushWords_post fs (argPtrs ++ [0]) (8 * auxv.length + 8 + (4 * 5 + 0))
    ⟨by omega, by omega⟩ (by rw [hargLen]; exact hpe ▸ h3.room)) ?_
  rintro _ s4 ⟨rfl, h4⟩
  rw [hargLen] at h4 ⊢
  have hfits4 := h4.fits
  generalize hpa : envpAt - 4 * (argv.length + 1) = argvAt at h4 ⊢
  rw [copy_if_pos]
  refine .seq (pushPairs_post fs (4 * 5 + 0) ⟨by omega, by omega⟩ (by omega) (hpa ▸ h4.room)) ?_
  intro u s5 h5
  have hfits5 := h5.fits
  rw [below_eq (by omega) (by omega)]
  generalize hpx : argvAt - (8 * auxv.length + 8) = auxvAt at h5 ⊢
  refine (pushWords_post fs [0, argv.length, argvAt, envpAt, auxvAt] 0 ⟨by omega, by omega⟩
    (hpx ▸ h5.room)).weaken ?_
  rintro _ s6 ⟨rfl, h6⟩
  have hfits6 : stackBottom + 20 ≤ auxvAt := h6.fits
  change ∃ d a e, Laid s6.space d (auxvAt - 20) a e ∧ _
  -- each part is kept by the pushes below it
  have k6 := h6.keeps
  have k5 := h5.keeps.trans k6 (by omega)
  have k4 := h4.keeps.trans k5 (by omega)
  have k3 := h3.keeps.trans k4 (by omega)
  have k2 := h2.keeps.trans k3 (by omega)
  refine ⟨⟨argv.length, argvAt, envpAt, auxvAt, argPtrs, envPtrs, argv, envp, auxv⟩, a, e, ?_,
    rfl, rfl, rfl⟩
  exact {
    envp := h1.strings.keep k2
    argv := h2.strings.keep fun x b hx => k3 x b (by omega)
    argc := rfl
    bottom := by omega
    spAt := by dsimp only; omega
    auxvAt := by dsimp only; omega
    argvAt := by dsimp only; omega
    envpAt := by dsimp only; omega
    envPointers := (hpe ▸ h3.holds).keep k4 le_rfl
    argPointers := (hpa ▸ h4.holds).keep k5 le_rfl
    pairs := (hpx ▸ h5.holds).keep k6 le_rfl
    null := h5.null.keep k6 (by omega)
    frame := h6.holds }

theorem HoldsAt.word {words : List Nat}
    (h : HoldsAt s x len (wordsBuf words)) {j : Nat} (hj : 4 * j + 4 ≤ len) (hw : words.getD j 0 < 2 ^ 32) :
    userWord s (x + 4 * j) = some (words.getD j 0) := by
  have hbyte : ∀ i < 4, byteOf s (x + 4 * j + i) =
      some (UInt8.ofNat (words.getD j 0 / 256 ^ i)) := by
    intro i hi
    have hdiv : (4 * j + i) / 4 = j := by omega
    have hmod : (4 * j + i) % 4 = i := by omega
    have hsrc : wordsBuf words (4 * j + i) = UInt8.ofNat (words.getD j 0 / 256 ^ i) := by
      unfold wordsBuf
      dsimp only
      rw [hdiv, hmod]
    rw [Nat.add_assoc, h _ (by omega), hsrc]
  have h0 := hbyte 0 (by decide)
  have h1 := hbyte 1 (by decide)
  have h2 := hbyte 2 (by decide)
  have h3 := hbyte 3 (by decide)
  rw [Nat.add_zero] at h0
  rw [userWord, h0, h1, h2, h3]
  simp only [UInt8.toNat_ofNat', Option.some.injEq]
  omega

theorem HoldsAt.string {str : Path} (h : HoldsAt s x (str.length + 1) (ofList (str ++ [0])))
    (hnul : 0 ∉ str) (hfuel : str.length < fuel) : userString s fuel x = some str := by
  induction str generalizing x fuel with
  | nil =>
    obtain _ | n := fuel
    · omega
    have hzero : byteOf s x = some 0 := h 0 (by decide)
    simp [userString, hzero]
  | cons b str ih =>
    obtain _ | n := fuel
    · omega
    have hfirst : byteOf s x = some b := h 0 (by simp)
    have hb : b ≠ 0 := fun hb => hnul (hb ▸ mem_cons_self)
    have hrest : HoldsAt s (x + 1) (str.length + 1) (ofList (str ++ [0])) := by
      intro i hi
      have hsrc : ofList (b :: str ++ [0]) (i + 1) = ofList (str ++ [0]) i := rfl
      rw [Nat.add_assoc, Nat.add_comm 1 i, h _ (by simpa using hi), hsrc]
    have hnext := ih hrest (fun hmem => hnul (mem_cons_of_mem _ hmem))
      (show str.length < n by simpa using hfuel)
    simp [userString, hfirst, hb, hnext]

theorem StringsAt.size (h : StringsAt s strs ptrs lo hi) : lo + stringBytes strs = hi := by
  induction strs, ptrs, lo, h using StringsAt.along with
  | nil => rfl
  | cons _ _ _ _ _ _ ih =>
    rw [stringBytes_cons, ← ih]
    omega

theorem StringsAt.read (h : StringsAt s strs ptrs lo hi) (hnul : ∀ str ∈ strs, 0 ∉ str)
    (hfuel : stringBytes strs < fuel) : ptrs.mapM (userString s fuel) = some strs := by
  induction strs, ptrs, lo, h using StringsAt.along with
  | nil => rfl
  | cons str strs _ _ hstr _ ih =>
    rw [stringBytes_cons] at hfuel
    have hfirst := hstr.string (hnul str mem_cons_self) (show str.length < fuel by omega)
    have hnext := ih (fun t ht => hnul t (mem_cons_of_mem _ ht)) (by omega)
    simp [mapM_cons, hfirst, hnext]

theorem userPointers_read
    (h : ∀ j < ptrs.length + 1, userWord s (x + 4 * j) = some ((ptrs ++ [0]).getD j 0))
    (hptrs : 0 ∉ ptrs) (hfuel : ptrs.length < fuel) : userPointers s fuel x = some ptrs := by
  induction ptrs generalizing x fuel with
  | nil =>
    obtain _ | n := fuel
    · omega
    have hzero : userWord s x = some 0 := h 0 (by decide)
    simp [userPointers, hzero]
  | cons p ptrs ih =>
    obtain _ | n := fuel
    · omega
    have hfirst : userWord s x = some p := h 0 (by simp)
    have hp : p ≠ 0 := fun hp => hptrs (hp ▸ mem_cons_self)
    have hnext : userPointers s n (x + 4) = some ptrs := by
      refine ih (fun j hj => ?_) (fun hmem => hptrs (mem_cons_of_mem _ hmem)) (by simpa using hfuel)
      have hword := h (j + 1) (by simpa using hj)
      rwa [show x + 4 * (j + 1) = x + 4 + 4 * j by omega] at hword
    simp [userPointers, hfirst, hp, hnext]

theorem userPairs_read {auxv : List (Nat × Nat)}
    (h : ∀ j < 2 * auxv.length, userWord s (x + 4 * j) =
      some ((auxv.flatMap fun (type, value) => [type, value]).getD j 0))
    (hnull : userWord s (x + 8 * auxv.length) = some atNull)
    (htypes : ∀ pair ∈ auxv, pair.1 ≠ atNull) (hfuel : auxv.length < fuel) :
    userPairs s fuel x = some auxv := by
  induction auxv generalizing x fuel with
  | nil =>
    obtain _ | n := fuel
    · omega
    have hzero : userWord s x = some atNull := hnull
    simp [userPairs, hzero]
  | cons pair auxv ih =>
    obtain ⟨type, value⟩ := pair
    obtain _ | n := fuel
    · omega
    have hfirst : userWord s x = some type := h 0 (by simp)
    have hsecond : userWord s (x + 4) = some value := h 1 (by simp; omega)
    have htype : type ≠ atNull := htypes _ mem_cons_self
    have hnext : userPairs s n (x + 8) = some auxv := by
      refine ih (fun j hj => ?_) ?_ (fun p hp => htypes p (mem_cons_of_mem _ hp))
        (by simpa using hfuel)
      · rw [show x + 8 + 4 * j = x + 4 * (j + 2) by omega, h _ (by simp; omega)]
        simp
      · rw [show x + 8 + 8 * auxv.length = x + 8 * (auxv.length + 1) by omega]
        exact hnull
    simp [userPairs, hfirst, hsecond, htype, hnext]

theorem StringsAt.mem (h : StringsAt s strs ptrs lo hi) : ∀ p ∈ ptrs, lo ≤ p ∧ p < hi := by
  induction strs, ptrs, lo, h using StringsAt.along with
  | nil => exact nofun
  | cons str strs ptrs lo _ hrest ih =>
    have hsize := hrest.size
    refine forall_mem_cons.mpr ⟨by omega, fun p hp => ?_⟩
    have := ih p hp
    omega

theorem getD_lt {words : List Nat} {n : Nat} (hn : 0 < n) (h : ∀ w ∈ words, w < n) (j : Nat) :
    words.getD j 0 < n := by
  rcases Nat.lt_or_ge j words.length with hj | hj
  · rw [getD_eq_getElem _ _ hj]
    exact h _ (getElem_mem hj)
  · rwa [getD_eq_default _ _ hj]

theorem StringsAt.words (h : StringsAt s strs ptrs lo hi) (hlo : 0 < lo) (hhi : hi ≤ userStackTop) :
    0 ∉ ptrs ∧ ∀ j, (ptrs ++ [0]).getD j 0 < 2 ^ 32 := by
  have htop : userStackTop < 2 ^ 32 := by decide
  refine ⟨fun hmem => absurd (h.mem _ hmem).1 (by omega), getD_lt (by decide) fun w hw => ?_⟩
  rcases mem_append.mp hw with hmem | hmem
  · exact (h.mem _ hmem).2.trans_le (hhi.trans htop.le)
  · rw [mem_singleton.mp hmem]
    decide

variable {d : Start}

theorem Laid.read (h : Laid s d sp a e)
    (hargs : ∀ str ∈ d.argv, 0 ∉ str) (henv : ∀ str ∈ d.envp, 0 ∉ str)
    (hauxv : ∀ pair ∈ d.auxv, pair.1 ≠ atNull ∧ pair.1 < 2 ^ 32 ∧ pair.2 < 2 ^ 32) :
    readStart s sp = some d := by
  have hsize : userStackTop = stackBottom + userStackSize := by decide
  have hbottom : 0 < stackBottom ∧ userStackTop < 2 ^ 32 := by decide
  have hlow := h.bottom
  have hsp := h.spAt
  have haux := h.auxvAt
  have harg := h.argvAt
  have hend := h.envpAt
  have hestr := h.envp.size
  have hastr := h.argv.size
  have hargc : d.argc < 2 ^ 32 := by
    rw [h.argc]
    omega
  obtain ⟨hargNull, hargWords⟩ := h.argv.words (by omega) (by omega)
  obtain ⟨henvNull, henvWords⟩ := h.envp.words (by omega) le_rfl
  have hargLen := h.argv.length
  have henvLen := h.envp.length
  have hargPtrs : userPointers s userStackSize d.argvAt = some d.argPtrs :=
    userPointers_read (fun j hj => h.argPointers.word (by omega) (hargWords j)) hargNull (by omega)
  have henvPtrs : userPointers s userStackSize d.envpAt = some d.envPtrs :=
    userPointers_read (fun j hj => h.envPointers.word (by omega) (henvWords j)) henvNull (by omega)
  have hargv := h.argv.read hargs (show stringBytes d.argv < userStackSize by omega)
  have henvp := h.envp.read henv (show stringBytes d.envp < userStackSize by omega)
  have hpairs : userPairs s userStackSize d.auxvAt = some d.auxv := by
    refine userPairs_read (fun j hj => h.pairs.word (by omega) ?_) ?_
      (fun p hp => (hauxv p hp).1) (by omega)
    · refine getD_lt (by decide) (fun w hw => ?_) j
      obtain ⟨⟨type, value⟩, hpair, hw⟩ := mem_flatMap.mp hw
      rcases mem_pair.mp hw with rfl | rfl
      · exact (hauxv _ hpair).2.1
      · exact (hauxv _ hpair).2.2
    · have hnull := h.null.word (j := 0) (by decide) (by decide)
      rwa [show d.argvAt - 8 + 4 * 0 = d.auxvAt + 8 * d.auxv.length by omega] at hnull
  have hframe (j : Nat) (hj : j < 5)
      (hw : [0, d.argc, d.argvAt, d.envpAt, d.auxvAt].getD j 0 < 2 ^ 32) :=
    h.frame.word (j := j) (by omega) hw
  have h1 : userWord s (sp + 4) = some d.argc := hframe 1 (by decide) hargc
  have h2 : userWord s (sp + 8) = some d.argvAt := hframe 2 (by decide) (by simp; omega)
  have h3 : userWord s (sp + 12) = some d.envpAt := hframe 3 (by decide) (by simp; omega)
  have h4 : userWord s (sp + 16) = some d.auxvAt := hframe 4 (by decide) (by simp; omega)
  simp [readStart, h1, h2, h3, h4, hargPtrs, henvPtrs, hargv, henvp, hpairs]

structure Ascends (lo hi : Nat) (parts : List (Nat × Nat)) : Prop where
  apart : parts.Pairwise fun p q => p.1 + p.2 ≤ q.1
  inside : ∀ p ∈ parts, lo ≤ p.1 ∧ p.1 + p.2 ≤ hi

theorem Ascends.cons {parts : List (Nat × Nat)} {p : Nat × Nat} (hlo : lo ≤ p.1)
    (hmid : p.1 + p.2 ≤ mid) (hhi : mid ≤ hi) (h : Ascends mid hi parts) :
    Ascends lo hi (p :: parts) := by
  refine ⟨pairwise_cons.mpr ⟨fun q hq => hmid.trans (h.inside q hq).1, h.apart⟩, ?_⟩
  intro q hq
  rcases mem_cons.mp hq with rfl | hq
  · exact ⟨hlo, hmid.trans hhi⟩
  · exact ⟨(by omega : lo ≤ mid).trans (h.inside q hq).1, (h.inside q hq).2⟩

theorem Ascends.append {parts parts' : List (Nat × Nat)} (hlo : lo ≤ mid)
    (hhi : mid ≤ hi) (h : Ascends lo mid parts) (h' : Ascends mid hi parts') :
    Ascends lo hi (parts ++ parts') := by
  refine ⟨pairwise_append.mpr ⟨h.apart, h'.apart, fun p hp q hq => ?_⟩, fun p hp => ?_⟩
  · exact (h.inside p hp).2.trans (h'.inside q hq).1
  · rcases mem_append.mp hp with hp | hp
    · exact ⟨(h.inside p hp).1, (h.inside p hp).2.trans hhi⟩
    · exact ⟨hlo.trans (h'.inside p hp).1, (h'.inside p hp).2⟩

theorem StringsAt.ascends (h : StringsAt s strs ptrs lo hi) :
    Ascends lo hi (List.zipWith (fun p str => (p, str.length + 1)) ptrs strs) := by
  induction strs, ptrs, lo, h using StringsAt.along with
  | nil => exact ⟨List.Pairwise.nil, fun _ hp => (nomatch hp)⟩
  | cons str strs ptrs lo _ hrest ih =>
    have hsize := hrest.size
    exact Ascends.cons (p := (_, str.length + 1)) le_rfl le_rfl (by omega) ih

theorem Laid.ascends (h : Laid s d sp a e) : Ascends stackBottom userStackTop (d.parts sp) := by
  have hsp := h.spAt
  have haux := h.auxvAt
  have harg := h.argvAt
  have henv := h.envpAt
  have hestr := h.envp.size
  have hastr := h.argv.size
  have hlow := h.bottom
  have hstrings := h.argv.ascends.append (by omega) (by omega) h.envp.ascends
  unfold Start.parts
  rw [append_assoc]
  refine Ascends.cons hlow hsp.le (by omega) (Ascends.cons le_rfl ?_ (by omega)
    (Ascends.cons le_rfl harg.le (by omega) (Ascends.cons le_rfl ?_ (by omega) hstrings)))
  · dsimp only
    omega
  · dsimp only
    omega

/-- A program that starts finds its arguments, its environment and its auxiliary vector in memory,
in parts that lie apart inside its stack. The strings take at most all but one page of the stack,
or nothing is mapped right below it. -/
theorem start_reads_back (fs : Files) (argv envp : List Path) (auxv : List (Nat × Nat))
    (s s' : Loader) (sp : Nat) (hargs : ∀ str ∈ argv, 0 ∉ str) (henv : ∀ str ∈ envp, 0 ∉ str)
    (hauxv : ∀ pair ∈ auxv, pair.1 ≠ atNull ∧ pair.1 < 2 ^ 32 ∧ pair.2 < 2 ^ 32)
    (hroom : stringBytes argv + stringBytes envp ≤ userStackSize - pageSize ∨
      Safe s ∧ ¬Covered s.space.areas (stackArea.start - 1))
    (hrun : elfSetupUserStack fs argv envp auxv s = .ok sp s') :
    ∃ d, readStart s'.space sp = some d ∧ d.argc = argv.length ∧ d.argv = argv ∧ d.envp = envp ∧
      d.auxv = auxv ∧ (d.parts sp).Pairwise (fun p q => p.1 + p.2 ≤ q.1) ∧
      (∀ p ∈ d.parts sp, stackArea.start ≤ p.1 ∧ p.1 + p.2 ≤ userStackTop) ∧
      sp % 4 = 0 ∧ d.argvAt % 4 = 0 ∧ d.envpAt % 4 = 0 ∧ d.auxvAt % 4 = 0 := by
  have hcounts : ¬(processMaxArgs < argv.length ∨ processMaxEnvs < envp.length ∨
      processAuxvMax < auxv.length) := by
    intro hmany
    rw [elfSetupUserStack, if_pos hmany] at hrun
    cases hrun
  have room : Room s userStackTop (stackBytes argv envp auxv) := by
    refine hroom.imp_left fun hfit => ?_
    unfold stackBytes
    unfold processMaxArgs processMaxEnvs processAuxvMax at hcounts
    unfold userStackSize pageSize at hfit
    unfold stackBottom userStackTop userStackSize pageSize
    omega
  have hpost := elfSetupUserStack_post fs argv envp auxv room
  obtain ⟨d, a, e, hlaid, rfl, rfl, rfl⟩ := hpost.of_ok hrun
  have hsp := hlaid.spAt
  have haux := hlaid.auxvAt
  have harg := hlaid.argvAt
  have hend := hlaid.envpAt
  exact ⟨d, hlaid.read hargs henv hauxv, hlaid.argc, rfl, rfl, rfl, hlaid.ascends.apart,
    hlaid.ascends.inside, by omega, by omega, by omega, by omega⟩

def stackLoader : Loader :=
  ⟨{ blankProcess with space :=
      ⟨some ⟨areaInitial, [stackArea]⟩, fun _ => none, fun _ => true, 0⟩ }, [], []⟩

theorem start_reads_back_echo :
    ∃ sp s', elfSetupUserStack tinyFiles [[101, 99], [104, 105]] [[65, 61]] [(6, 4096)]
      stackLoader = .ok sp s' ∧ ∃ d, readStart s'.space sp = some d ∧ d.argv = [[101, 99], [104, 105]] := by
  have hsome : (success (elfSetupUserStack tinyFiles [[101, 99], [104, 105]] [[65, 61]] [(6, 4096)]
      stackLoader)).isSome := by decide
  obtain ⟨⟨sp, s'⟩, hrun⟩ := Option.isSome_iff_exists.mp hsome
  have hrun := eq_ok_of_success hrun
  obtain ⟨d, hread, -, hargv, -⟩ := start_reads_back tinyFiles [[101, 99], [104, 105]] [[65, 61]]
    [(6, 4096)] stackLoader s' sp (by decide) (by decide) (by decide) (.inl (by decide)) hrun
  exact ⟨sp, s', hrun, d, hread, hargv⟩

end SmallOS.Exec
