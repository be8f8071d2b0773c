import Mathlib.Logic.Function.Basic

/-! Proof rules for programs with a state and an exception. A program keeps the state it reached
when it fails, so `Post` has one postcondition for a return and one for a failure. -/

namespace SmallOS.Prog

variable {c : Prop} {ε σ α β : Type}

def Post (x : EStateM ε σ α) (s : σ) (Q : α → σ → Prop) (E : ε → σ → Prop) : Prop :=
  match x s with
  | .ok a s' => Q a s'
  | .error e s' => E e s'

variable {x : EStateM ε σ α} {f : α → EStateM ε σ β} {s s' : σ} {a : α} {e : ε}
  {Q R : α → σ → Prop} {E F : ε → σ → Prop}

theorem Post.of_ok (h : Post x s Q E) (run : x s = .ok a s') : Q a s' := by
  simpa only [Post, run] using h

theorem Post.of_error (h : Post x s Q E) (run : x s = .error e s') : E e s' := by
  simpa only [Post, run] using h

theorem Post.mono
    (h : Post x s Q E) (ok : ∀ a s', Q a s' → R a s') (err : ∀ e s', E e s' → F e s') :
    Post x s R F := by
  unfold Post at h ⊢
  cases run : x s with
  | ok a s' => rw [run] at h; exact ok a s' h
  | error e s' => rw [run] at h; exact err e s' h

theorem Post.and (h : Post x s Q E) (k : Post x s R F) :
    Post x s (fun a s' => Q a s' ∧ R a s') (fun e s' => E e s' ∧ F e s') := by
  unfold Post at h k ⊢
  cases run : x s with
  | ok a s' => rw [run] at h k; exact ⟨h, k⟩
  | error e s' => rw [run] at h k; exact ⟨h, k⟩

theorem Post.bind {Q : β → σ → Prop} (hx : Post x s R F)
    (err : ∀ e s', F e s' → E e s') (ok : ∀ a s', R a s' → Post (f a) s' Q E) :
    Post (x >>= f) s Q E := by
  unfold Post at hx ⊢
  change match EStateM.bind x f s with
    | .ok a s' => Q a s'
    | .error e s' => E e s'
  unfold EStateM.bind
  cases run : x s with
  | ok a s' => rw [run] at hx; exact ok a s' hx
  | error e s' => rw [run] at hx; exact err e s' hx

theorem Post.weaken (h : Post x s Q E) (ok : ∀ a s', Q a s' → R a s') : Post x s R E :=
  h.mono ok fun _ _ he => he

theorem Post.seq {Q : β → σ → Prop} (hx : Post x s R E)
    (ok : ∀ a s', R a s' → Post (f a) s' Q E) : Post (x >>= f) s Q E :=
  hx.bind (fun _ _ he => he) ok

theorem Post.any (x : EStateM ε σ α) (s : σ) : Post x s (fun _ _ => True) (fun _ _ => True) := by
  unfold Post
  cases x s <;> trivial

theorem Post.of_result : Post x s (fun a s' => x s = .ok a s') (fun e s' => x s = .error e s') := by
  unfold Post
  cases run : x s <;> rfl

theorem Post.ret (h : Q a s) : Post (pure a) s Q E := h

theorem Post.raise (h : E e s) : Post (throw e : EStateM ε σ α) s Q E := h

theorem Post.assign {f : σ → σ} {Q : Unit → σ → Prop} (h : Q () (f s)) : Post (modify f) s Q E := h

theorem Post.of_run (run : x s = .ok a s') (h : Q a s') : Post x s Q E := by
  simpa only [Post, run] using h

theorem Post.bind_run {Q : β → σ → Prop} (run : x s = .ok a s') (h : Post (f a) s' Q E) :
    Post (x >>= f) s Q E :=
  .bind (.of_run (Q := fun b t => b = a ∧ t = s') (E := E) run ⟨rfl, rfl⟩)
    (fun _ _ he => he) (by rintro b t ⟨rfl, rfl⟩; exact h)

theorem Post.bind_get {f : σ → EStateM ε σ β} {Q : β → σ → Prop}
    (h : Post (f s) s Q E) : Post (get >>= f) s Q E := h

theorem Post.bind_assign {g : σ → σ} {f : Unit → EStateM ε σ β} {Q : β → σ → Prop}
    (h : Post (f ()) (g s) Q E) : Post (modify g >>= f) s Q E := h

theorem Post.bind_set {f : PUnit → EStateM ε σ β} {Q : β → σ → Prop}
    (h : Post (f ⟨⟩) s' Q E) : Post (set s' >>= f) s Q E := h

theorem Post.bind_ret {Q : β → σ → Prop} (h : Post (f a) s Q E) : Post (pure a >>= f) s Q E := h

theorem Post.branch [Decidable c] {x y : EStateM ε σ α}
    (yes : c → Post x s Q E) (no : ¬c → Post y s Q E) : Post (if c then x else y) s Q E := by
  by_cases h : c
  · simpa only [h, if_true] using yes h
  · simpa only [h, if_false] using no h

theorem Post.guard [Decidable c] {y : EStateM ε σ α} (fails : E e s) (no : ¬c → Post y s Q E) :
    Post (if c then throw e else y) s Q E :=
  .branch (fun _ => .raise fails) no

theorem Post.rescue {h : ε → EStateM ε σ α} (body : Post x s Q F)
    (handler : ∀ e s', F e s' → Post (h e) s' Q E) : Post (tryCatch x h) s Q E := by
  unfold Post at body ⊢
  change match EStateM.tryCatch x h s with
    | .ok a s' => Q a s'
    | .error e s' => E e s'
  delta EStateM.tryCatch
  cases run : x s with
  | ok a s' => rw [run] at body; exact body
  | error e s' => rw [run] at body; exact handler e s' body

theorem rescue_run {h : ε → EStateM ε σ α} (run : x s = .ok a s') : tryCatch x h s = .ok a s' := by
  change EStateM.tryCatch x h s = _
  delta EStateM.tryCatch
  simp only [run]

def success : EStateM.Result ε σ α → Option (α × σ)
  | .ok a s => some (a, s)
  | .error _ _ => none

theorem eq_ok_of_success {r : EStateM.Result ε σ α}
    (h : success r = some (a, s)) : r = .ok a s := by
  cases r with
  | ok b t =>
    simp only [success, Option.some.injEq, Prod.mk.injEq] at h
    rw [h.1, h.2]
  | error e t => cases h

def failure : EStateM.Result ε σ α → Option (ε × σ)
  | .ok _ _ => none
  | .error e s => some (e, s)

theorem eq_error_of_failure {r : EStateM.Result ε σ α}
    (h : failure r = some (e, s)) : r = .error e s := by
  cases r with
  | ok a t => cases h
  | error e' t =>
    simp only [failure, Option.some.injEq, Prod.mk.injEq] at h
    rw [h.1, h.2]

def query (f : σ → Option α) (e : ε) : EStateM ε σ α := fun s =>
  match f s with
  | some a => .ok a s
  | none => .error e s

theorem query_run {f : σ → Option α} (h : f s = some a) : query f e s = .ok a s := by
  simp only [query, h]

theorem Post.ask {f : σ → Option α} (some : ∀ a, f s = some a → Q a s) (none : f s = none → E e s) :
    Post (query f e) s Q E := by
  unfold Post query
  cases h : f s with
  | some a => exact some a h
  | none => exact none h

theorem Post.bind_ask {f : σ → Option α} {g : α → EStateM ε σ β} {Q : β → σ → Prop}
    (none : f s = none → E e s) (some : ∀ a, f s = some a → Post (g a) s Q E) :
    Post (query f e >>= g) s Q E := by
  refine .bind (R := fun a t => t = s ∧ f s = .some a) (.ask (fun a h => ⟨rfl, h⟩) none)
    (fun _ _ he => he) ?_
  rintro a _ ⟨rfl, h⟩
  exact some a h

def steps (body : Nat → β → EStateM ε σ β) : (n i : Nat) → β → EStateM ε σ β
  | 0, _, acc => pure acc
  | n + 1, i, acc => body i acc >>= steps body n (i + 1)

theorem Post.loop {body : Nat → β → EStateM ε σ β} (inv : Nat → β → σ → Prop)
    (last : Nat) (step : ∀ i acc s, i < last → inv i acc s → Post (body i acc) s (inv (i + 1)) E) :
    ∀ n i acc s, i + n = last → inv i acc s → Post (steps body n i acc) s (inv last) E := by
  intro n
  induction n with
  | zero =>
    intro i acc s hi h
    obtain rfl : i = last := by omega
    exact h
  | succ n ih =>
    intro i acc s hi h
    refine .bind (step i acc s (by omega) h) (fun _ _ he => he) ?_
    intro acc' s' h'
    exact ih (i + 1) acc' s' (by omega) h'

/-- However `x` ends, the states before and after it are related by `R`. -/
def Within (R : σ → σ → Prop) (x : EStateM ε σ α) : Prop :=
  ∀ s, Post x s (fun _ s' => R s s') (fun _ s' => R s s')

section Within

variable {R : σ → σ → Prop} {x y : EStateM ε σ α}

theorem Within.onward [IsTrans σ R] (hx : Within R x) (h : R s s') :
    Post x s' (fun _ t => R s t) (fun _ t => R s t) :=
  (hx s').mono (fun _ _ h' => IsTrans.trans _ _ _ h h') fun _ _ h' => IsTrans.trans _ _ _ h h'

theorem Within.bind [IsTrans σ R] {f : α → EStateM ε σ β} (hx : Within R x)
    (hf : ∀ a, Within R (f a)) : Within R (x >>= f) :=
  fun s => .seq (hx s) fun a _ h => (hf a).onward h

theorem Within.branch [Decidable c] (yes : c → Within R x) (no : ¬c → Within R y) :
    Within R (if c then x else y) :=
  fun s => .branch (fun h => yes h s) fun h => no h s

theorem Within.ret [Std.Refl R] (a : α) : Within R (pure a : EStateM ε σ α) :=
  fun s => .ret (Std.Refl.refl s)

theorem Within.raise [Std.Refl R] (e : ε) : Within R (throw e : EStateM ε σ α) :=
  fun s => .raise (Std.Refl.refl s)

theorem Within.guard [Std.Refl R] [Decidable c] (e : ε) (no : ¬c → Within R y) :
    Within R (if c then throw e else y) :=
  .branch (fun _ => .raise e) no

theorem Within.read {f : σ → EStateM ε σ α} (h : ∀ t, Within R (f t)) : Within R (get >>= f) :=
  fun s => .bind_get (h s s)

theorem Within.assign {f : σ → σ} (h : ∀ s, R s (f s)) : Within R (modify f : EStateM ε σ Unit) :=
  fun s => .assign (h s)

end Within

theorem run_bind (x : EStateM ε σ α) (f : α → EStateM ε σ β) (s : σ) : (x >>= f) s =
    match x s with
    | .ok a s' => f a s'
    | .error e s' => .error e s' := rfl

theorem run_pure (a : α) (s : σ) : (pure a : EStateM ε σ α) s = .ok a s := rfl

theorem run_get (s : σ) : (get : EStateM ε σ σ) s = .ok s s := rfl

theorem run_set (s t : σ) : (set t : EStateM ε σ PUnit) s = .ok ⟨⟩ t := rfl

theorem run_modify (f : σ → σ) (s : σ) : (modify f : EStateM ε σ PUnit) s = .ok ⟨⟩ (f s) := rfl

theorem some_of_guard [Decidable c] {x : Option α} (h : (if c then none else x) = some a) :
    ¬c ∧ x = some a := by
  by_cases hc : c
  · cases (if_pos hc).symm.trans h
  · exact ⟨hc, (if_neg hc).symm.trans h⟩

end SmallOS.Prog
