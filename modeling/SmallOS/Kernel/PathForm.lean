import SmallOS.Kernel.Access

/-! Canonical paths. `path_build_from` pushes and pops components on a stack of sixteen and prints
what is left. The result is read back to the same stack, so a path can be built in one call or in
several. -/

namespace SmallOS.Kernel

open Ext2 Spans List Option

variable {cs : List Component} {comps : List Name} {outSize : Nat} {base c p path : Path}

def componentNames (path : Path) : List Name := (components path).map Component.name

theorem componentNames_of_nil (h : path.dropWhile isSep = []) : componentNames path = [] := by
  rw [componentNames, components_of_nil h]
  rfl

@[simp] theorem componentNames_nil : componentNames [] = [] := componentNames_of_nil rfl

theorem componentNames_dropWhile (path : Path) :
    componentNames (path.dropWhile isSep) = componentNames path :=
  congrArg (map Component.name) (components_dropWhile path)

theorem componentNames_of_ne (h : path.dropWhile isSep ≠ []) :
    componentNames path = (path.dropWhile isSep).takeWhile notSep ::
      componentNames ((path.dropWhile isSep).dropWhile notSep) := by
  rw [componentNames, components_of_ne h, map_cons, ← componentNames_dropWhile]
  rfl

theorem componentNames_append_sep {sep : UInt8} (hsep : isSep sep = true) (p q : Path) :
    componentNames (p ++ sep :: q) = componentNames p ++ componentNames q := by
  have hnot : notSep sep = false := by simp [notSep, hsep]
  induction hn : p.length using Nat.strong_induction_on generalizing p with
  | _ n ih =>
    by_cases hp : p.dropWhile isSep = []
    · have hall : ∀ c ∈ p, isSep c = true := dropWhile_eq_nil_iff.mp hp
      rw [componentNames_of_nil hp, ← componentNames_dropWhile, dropWhile_append_of_pos hall,
        dropWhile_cons_of_pos hsep, componentNames_dropWhile, nil_append]
    · have hdrop : (p ++ sep :: q).dropWhile isSep = p.dropWhile isSep ++ sep :: q := by
        rw [dropWhile_append, if_neg (by simpa using hp)]
      obtain ⟨c, r, hr⟩ := exists_cons_of_ne_nil hp
      have hc : notSep c = true := by simp [notSep, head_dropWhile hr]
      have hlt : ((p.dropWhile isSep).dropWhile notSep).length < n := by
        have hle := length_dropWhile_le isSep p
        have hle' := length_dropWhile_le notSep r
        rw [hr, length_cons] at hle
        rw [hr, dropWhile_cons_of_pos hc]
        omega
      rw [componentNames_of_ne hp, componentNames_of_ne (by rw [hdrop]; simp), hdrop,
        (span_stop hnot _ q).1, (span_stop hnot _ q).2, ih _ hlt _ rfl, cons_append]

theorem componentNames_append (h : endsInSep p = true) (q : Path) :
    componentNames (p ++ q) = componentNames p ++ componentNames q := by
  induction p using reverseRecOn with
  | nil => rw [componentNames_nil, nil_append, nil_append]
  | append_singleton p c =>
    have hc : isSep c = true := by
      rw [endsInSep, getLast?_append] at h
      exact h
    rw [append_assoc, singleton_append, componentNames_append_sep hc,
      componentNames_append_sep hc, componentNames_nil, append_nil]

theorem componentNames_trailText (h : ∀ n ∈ comps, Plain n) :
    componentNames (trailText comps) = comps := by
  induction comps with
  | nil => exact componentNames_nil
  | cons n comps ih =>
    have hn := h n (mem_cons_self ..)
    rw [trailText_cons, componentNames, hn.components_joinText, map_cons]
    exact congrArg (n :: ·) (ih fun m hm => h m (mem_cons_of_mem _ hm))

theorem trailText_eq_intercalate (h : ∀ n ∈ comps, Plain n) :
    trailText comps = [47].intercalate comps := by
  induction comps with
  | nil => rfl
  | cons n comps ih =>
    have hn := h n (mem_cons_self ..)
    have hrest := fun m hm => h m (mem_cons_of_mem _ hm)
    rw [trailText_cons, ih hrest]
    cases comps with
    | nil => simp
    | cons m comps =>
      have hm := h m (mem_cons_of_mem _ (mem_cons_self ..))
      have hne : [47].intercalate (m :: comps) ≠ [] := by
        rw [← ih hrest, trailText_cons]
        unfold joinText
        split_ifs <;> simp [hm.1]
      rw [joinText, if_neg hne, hn.not_endsInSep, if_neg Bool.false_ne_true]
      simp [intercalate_cons_cons]

theorem addComponents_append (xs ys : List Component) (comps : List Name) :
    addComponents (xs ++ ys) comps = (addComponents xs comps).bind (addComponents ys) := by
  induction xs generalizing comps with
  | nil => rfl
  | cons c xs ih =>
    rw [cons_append, addComponents, addComponents]
    simp only [ih]
    split_ifs <;> rfl

theorem addComponents_congr {xs ys : List Component}
    (h : xs.map Component.name = ys.map Component.name) (comps : List Name) :
    addComponents xs comps = addComponents ys comps := by
  induction xs generalizing ys comps with
  | nil =>
    rw [map_nil, eq_comm, map_eq_nil_iff] at h
    rw [h]
  | cons x xs ih =>
    cases ys with
    | nil => cases h
    | cons y ys =>
      rw [map_cons, map_cons, cons.injEq] at h
      simp only [addComponents, h.1, ih h.2]

theorem addComponents_length {comps' : List Name}
    (h : addComponents cs comps = some comps') (hlen : comps.length ≤ 16) : comps'.length ≤ 16 := by
  induction cs generalizing comps with
  | nil => exact Option.some.inj h ▸ hlen
  | cons c cs ih =>
    unfold addComponents at h
    split_ifs at h with hlong hdot hup hmany
    · exact ih h hlen
    · exact ih h (by rw [length_dropLast]; omega)
    · exact ih h (by rw [length_append, length_singleton]; omega)

theorem addComponents_of_kept (h : ∀ c ∈ cs, Kept c.name) (hlen : comps.length + cs.length ≤ 16) :
    addComponents cs comps = some (comps ++ cs.map Component.name) := by
  induction cs generalizing comps with
  | nil => simp [addComponents]
  | cons c cs ih =>
    have hc := h c (mem_cons_self ..)
    have hshort := hc.short
    rw [length_cons] at hlen
    rw [addComponents, if_neg (by omega), if_neg hc.notDot, if_neg hc.notDotDot, if_neg (by omega),
      ih (fun k hk => h k (mem_cons_of_mem _ hk)) (by simp; omega)]
    simp

def stackOf (base path : Path) : Option (List Name) :=
  (baseComponents base path).bind (addComponents (components path))

theorem pathBuildFrom_eq (base path : Path) (outSize : Nat) :
    pathBuildFrom base path outSize = (stackOf base path).bind fun comps =>
      if outSize ≤ (trailText comps).length then none else some (trailText comps) := by
  rw [stackOf, bind_assoc]
  rfl

theorem stackOf_kept (h : stackOf base path = some comps) :
    (∀ n ∈ comps, Kept n) ∧ comps.length ≤ 16 := by
  obtain ⟨start, hstart, hcomps⟩ := bind_eq_some_iff.mp h
  have hkept : (∀ n ∈ start, Kept n) ∧ start.length ≤ 16 := by
    unfold baseComponents at hstart
    split_ifs at hstart
    · exact ⟨addComponents_kept (fun c => plain_of_mem_components) (by simp) hstart,
        addComponents_length hstart (by simp)⟩
    · rw [← Option.some.inj hstart]
      exact ⟨fun n hn => (nomatch hn), by simp⟩
  exact ⟨addComponents_kept (fun c => plain_of_mem_components) hkept.1 hcomps,
    addComponents_length hcomps hkept.2⟩

theorem addComponents_trailText (h : ∀ n ∈ comps, Kept n)
    (hlen : comps.length ≤ 16) : addComponents (components (trailText comps)) [] = some comps := by
  have hnames := componentNames_trailText fun n hn => (h n hn).plain
  have hcount : (components (trailText comps)).length = comps.length := by
    rw [← length_map Component.name]
    exact congrArg length hnames
  rw [addComponents_of_kept (fun c hc => h _ ?_) (by simpa [hcount] using hlen)]
  · exact congrArg some hnames
  · exact hnames ▸ mem_map_of_mem hc

theorem trailText_eq_nil (h : ∀ n ∈ comps, Kept n) (hnil : trailText comps = []) : comps = [] := by
  rw [← componentNames_trailText fun n hn => (h n hn).plain, hnil]
  exact componentNames_nil

theorem stackOf_trailText (h : ∀ n ∈ comps, Kept n) (hlen : comps.length ≤ 16)
    (hrel : startsWithSep path = false) :
    stackOf (trailText comps) path = addComponents (components path) comps := by
  unfold stackOf baseComponents
  by_cases hnil : trailText comps = []
  · rw [if_neg (by simp [hnil]), trailText_eq_nil h hnil]
    rfl
  · rw [if_pos ⟨hnil, by simp [hrel]⟩, addComponents_trailText h hlen]
    rfl

theorem stackOf_append {q rest : Path} (hp : p ≠ [])
    (hnames : componentNames (p ++ q) = componentNames p ++ componentNames rest) :
    stackOf base (p ++ q) = (stackOf base p).bind (addComponents (components rest)) := by
  have hstart : startsWithSep (p ++ q) = startsWithSep p := by
    cases p with
    | nil => exact absurd rfl hp
    | cons c p => rfl
  have hsplit : ∀ comps, addComponents (components (p ++ q)) comps =
      (addComponents (components p) comps).bind (addComponents (components rest)) := by
    intro comps
    rw [← addComponents_append]
    exact addComponents_congr (hnames.trans map_append.symm) comps
  unfold stackOf baseComponents
  simp only [hstart, hsplit, bind_assoc]

structure Normal (path : Path) : Prop where
  noBackslash : 92 ∉ path
  noLeading : path.head? ≠ some 47
  noTrailing : path.getLast? ≠ some 47
  proper : path ≠ [] → ∀ piece ∈ path.splitOn 47, piece ≠ [] ∧ piece ≠ dotName ∧ piece ≠ dotDotName

theorem mem_trailText {c : UInt8} (h : c ∈ trailText comps) : c = 47 ∨ ∃ n ∈ comps, c ∈ n := by
  induction comps with
  | nil => cases h
  | cons n comps ih =>
    have hrest : c ∈ trailText comps → c = 47 ∨ ∃ m ∈ n :: comps, c ∈ m := fun hc =>
      (ih hc).imp_right fun ⟨m, hm, hcm⟩ => ⟨m, mem_cons_of_mem _ hm, hcm⟩
    have hfirst : c ∈ n → c = 47 ∨ ∃ m ∈ n :: comps, c ∈ m :=
      fun hc => .inr ⟨n, mem_cons_self .., hc⟩
    rw [trailText_cons] at h
    unfold joinText at h
    split_ifs at h
    · exact hfirst h
    · exact (mem_append.mp h).elim hfirst hrest
    · obtain hc | hc := mem_append.mp h
      · exact hfirst hc
      · exact (mem_cons.mp hc).elim .inl hrest

theorem head_trailText (h : ∀ n ∈ comps, Plain n) : (trailText comps).head? ≠ some 47 := by
  cases comps with
  | nil => simp [trailText]
  | cons n comps =>
    have hn := h n (mem_cons_self ..)
    obtain ⟨c, cs, rfl⟩ := exists_cons_of_ne_nil hn.1
    have hc : c ≠ 47 := by
      rintro rfl
      exact absurd (hn.2 47 (mem_cons_self ..)) (by decide)
    rw [trailText_cons]
    unfold joinText
    split_ifs <;> simpa using hc

theorem trailText_normal (h : ∀ n ∈ comps, Kept n) : Normal (trailText comps) := by
  have hplain : ∀ n ∈ comps, Plain n := fun n hn => (h n hn).plain
  refine ⟨fun hmem => ?_, head_trailText hplain, fun hlast => ?_, fun hne piece hpiece => ?_⟩
  · obtain hc | ⟨n, hn, hc⟩ := mem_trailText hmem
    · exact absurd hc (by decide)
    · exact absurd ((hplain n hn).2 92 hc) (by decide)
  · obtain hnil | hends := trailText_kept_ends h
    · rw [hnil] at hlast
      cases hlast
    · rw [endsInSep, hlast] at hends
      exact absurd hends (by decide)
  · have hnoslash : ∀ n ∈ comps, (47 : UInt8) ∉ n := fun n hn hmem =>
      absurd ((hplain n hn).2 47 hmem) (by decide)
    have hcomps : comps ≠ [] := fun hnil => hne (by rw [hnil]; rfl)
    rw [trailText_eq_intercalate hplain, splitOn_intercalate 47 hnoslash hcomps] at hpiece
    have hkept := h piece hpiece
    exact ⟨hkept.plain.1, hkept.notDot, hkept.notDotDot⟩

theorem pathBuildFrom_eq_some (h : pathBuildFrom base path outSize = some c) :
    ∃ comps, stackOf base path = some comps ∧ c = trailText comps ∧ c.length < outSize := by
  rw [pathBuildFrom_eq] at h
  obtain ⟨comps, hstack, hfit⟩ := bind_eq_some_iff.mp h
  split_ifs at hfit with hlen
  obtain rfl := Option.some.inj hfit
  exact ⟨comps, hstack, rfl, by omega⟩

theorem pathBuildFrom_append (hp : p ≠ [])
    (h : pathBuildFrom base p outSize = some c) {q : Path} (hrel : startsWithSep q = false) :
    pathBuildFrom c q outSize = pathBuildFrom base (p ++ 47 :: q) outSize := by
  obtain ⟨comps, hstack, rfl, _⟩ := pathBuildFrom_eq_some h
  obtain ⟨hkept, hlen⟩ := stackOf_kept hstack
  rw [pathBuildFrom_eq, pathBuildFrom_eq, stackOf_trailText hkept hlen hrel,
    stackOf_append hp (componentNames_append_sep rfl p q), hstack, bind_some]

theorem pathBuildFrom_normal (h : pathBuildFrom base path outSize = some c) :
    Normal c ∧ pathBuildFrom [] c outSize = some c := by
  obtain ⟨comps, hstack, rfl, hfit⟩ := pathBuildFrom_eq_some h
  obtain ⟨hkept, hlen⟩ := stackOf_kept hstack
  have hself : stackOf [] (trailText comps) = some comps := by
    rw [stackOf, baseComponents, if_neg (by simp), bind_some]
    exact addComponents_trailText hkept hlen
  refine ⟨trailText_normal hkept, ?_⟩
  rw [pathBuildFrom_eq, hself, bind_some, if_neg (by omega)]

theorem stackOf_append_of_root (hends : endsInSep p = true)
    (h : stackOf base p = some []) (q : Path) :
    stackOf base (p ++ q) = addComponents (components q) [] := by
  by_cases hp : p = []
  · subst hp
    have hbase : baseComponents base [] = some [] := by
      rw [stackOf, components_of_nil rfl] at h
      obtain ⟨comps, hcomps, hnil⟩ := bind_eq_some_iff.mp h
      rw [hcomps, ← hnil]
      rfl
    have hboth : baseComponents base q = some [] := by
      unfold baseComponents at hbase ⊢
      by_cases hb : base = []
      · rw [if_neg (by simp [hb])]
      · rw [if_pos ⟨hb, rfl⟩] at hbase
        split_ifs
        · exact hbase
        · rfl
    rw [nil_append, stackOf, hboth, bind_some]
  · rw [stackOf_append hp (componentNames_append hends q), h, bind_some]

theorem pathBuildFrom_dotDot (hends : endsInSep p = true)
    (h : pathBuildFrom base p outSize = some []) (q : Path) :
    pathBuildFrom base (p ++ dotDotName ++ 47 :: q) outSize =
      pathBuildFrom base (p ++ q) outSize := by
  obtain ⟨comps, hstack, hnil, _⟩ := pathBuildFrom_eq_some h
  obtain rfl := trailText_eq_nil (stackOf_kept hstack).1 hnil.symm
  have hplain : Plain dotDotName := ⟨by decide, by simp [dotDotName, isSep]⟩
  have hup : addComponents (components (dotDotName ++ 47 :: q)) [] =
      addComponents (components q) [] := by
    have hshort : ¬31 < dotDotName.length := by decide
    have hnot : dotDotName ≠ dotName := by decide
    rw [hplain.components_append _ (by simp; decide), components_sep rfl]
    simp only [addComponents, hshort, hnot, if_false, if_true, dropLast_nil]
  rw [pathBuildFrom_eq, pathBuildFrom_eq, append_assoc, stackOf_append_of_root hends hstack,
    stackOf_append_of_root hends hstack, hup]

/-- `path_build_from` computes a normal form: its results are normal and fixed, `..` stops
at the root, and building on a result is building the whole path. -/
theorem path_build_is_normal_form (base : Path) (outSize : Nat) :
    (∀ path c, pathBuildFrom base path outSize = some c →
      Normal c ∧ pathBuildFrom [] c outSize = some c) ∧
    (∀ p, endsInSep p = true → pathBuildFrom base p outSize = some [] → ∀ q,
      pathBuildFrom base (p ++ dotDotName ++ 47 :: q) outSize =
        pathBuildFrom base (p ++ q) outSize) ∧
    ∀ p₁ c, p₁ ≠ [] → pathBuildFrom base p₁ outSize = some c → ∀ p₂, startsWithSep p₂ = false →
      pathBuildFrom c p₂ outSize = pathBuildFrom base (p₁ ++ 47 :: p₂) outSize :=
  ⟨fun _ _ h => pathBuildFrom_normal h, fun _ hends h q => pathBuildFrom_dotDot hends h q,
    fun _ _ hp h _ hrel => pathBuildFrom_append hp h hrel⟩

theorem path_build_is_normal_form_single : (Normal [97] ∧ pathBuildFrom [] [97] 128 = some [97]) ∧
    pathBuildFrom [] ([] ++ dotDotName ++ 47 :: [97]) 128 = pathBuildFrom [] ([] ++ [97]) 128 ∧
    pathBuildFrom [97] [98] 128 = pathBuildFrom [] [97, 47, 98] 128 := by
  have hroot : pathBuildFrom [] [] 128 = some [] := by
    rw [pathBuildFrom_eq, stackOf, components_of_nil rfl]
    rfl
  have ha : pathBuildFrom [] [97] 128 = some [97] := by
    have hplain : Plain [97] := ⟨by decide, by simp [isSep]⟩
    have hone : addComponents (components [97]) [] = some [[97]] := by
      have hnil : components [] = [] := components_of_nil rfl
      rw [← append_nil [97], hplain.components_append [] (by simp), hnil]
      rfl
    rw [pathBuildFrom_eq, stackOf, baseComponents, if_neg (by simp), bind_some, hone]
    rfl
  obtain ⟨hnormal, hup, happend⟩ := path_build_is_normal_form [] 128
  exact ⟨hnormal [97] [97] ha, hup [] rfl hroot [97], happend [97] [97] (by decide) ha [98] rfl⟩

end SmallOS.Kernel
