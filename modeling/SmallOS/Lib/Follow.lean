import SmallOS.Lib.Prog

/-! One run following another: every success of `x` from `s` is matched by a success of `y` from the
image of `s`, with the same result and the image of the state. Nothing is asked where `x` fails. -/

namespace SmallOS.Prog

variable {ε σ α β : Type} {f : σ → σ} {s : σ}

def FollowsAt (f : σ → σ) (s : σ) (x y : EStateM ε σ α) : Prop :=
  ∀ a s', x s = .ok a s' → y (f s) = .ok a (f s')

def Follows (f : σ → σ) (x : EStateM ε σ α) : Prop := ∀ s, FollowsAt f s x x

theorem FollowsAt.ret (a : α) : FollowsAt f s (pure a : EStateM ε σ α) (pure a) := by
  rintro _ _ ⟨⟩
  rfl

theorem FollowsAt.raise (e : ε) (y : EStateM ε σ α) : FollowsAt f s (throw e) y :=
  fun _ _ h => nomatch h

variable {x y : EStateM ε σ α}

theorem FollowsAt.bind {k k' : α → EStateM ε σ β} (hx : FollowsAt f s x y)
    (hk : ∀ a s', x s = .ok a s' → FollowsAt f s' (k a) (k' a)) :
    FollowsAt f s (x >>= k) (y >>= k') := by
  intro b t h
  change EStateM.bind x k s = .ok b t at h
  change EStateM.bind y k' (f s) = .ok b (f t)
  unfold EStateM.bind at h ⊢
  cases hrun : x s with
  | error e s' =>
    rw [hrun] at h
    cases h
  | ok a s' =>
    rw [hrun] at h
    rw [hx a s' hrun]
    exact hk a s' hrun b t h

theorem Follows.bind {k : α → EStateM ε σ β} (hx : Follows f x)
    (hk : ∀ a, Follows f (k a)) : Follows f (x >>= k) :=
  fun s => (hx s).bind fun a s' _ => hk a s'

theorem Follows.ret (a : α) : Follows f (pure a : EStateM ε σ α) := fun _ => .ret a

theorem Follows.raise (e : ε) : Follows f (throw e : EStateM ε σ α) := fun _ => .raise e _

theorem FollowsAt.bind_get {k k' : σ → EStateM ε σ β} (h : FollowsAt f s (k s) (k' (f s))) :
    FollowsAt f s (get >>= k) (get >>= k') := h

theorem FollowsAt.put {t t' : σ} (h : t' = f t) :
    FollowsAt f s (set t : EStateM ε σ PUnit) (set t') := by
  rintro _ _ ⟨⟩
  rw [h]
  rfl

theorem FollowsAt.assign {g : σ → σ} (h : g (f s) = f (g s)) :
    FollowsAt f s (modify g : EStateM ε σ PUnit) (modify g) := by
  rintro _ _ ⟨⟩
  change EStateM.Result.ok PUnit.unit (g (f s)) = _
  rw [h]

theorem query_eq_ok {q : σ → Option α} {e : ε} {a : α} {s' : σ} (h : query q e s = .ok a s') :
    q s = some a ∧ s' = s := by
  unfold query at h
  cases hq : q s with
  | none =>
    rw [hq] at h
    cases h
  | some b =>
    rw [hq] at h
    obtain ⟨rfl, rfl⟩ : b = a ∧ s = s' := by simpa using h
    exact ⟨rfl, rfl⟩

theorem FollowsAt.ask {q q' : σ → Option α} {e e' : ε} (h : ∀ a, q s = some a → q' (f s) = some a) :
    FollowsAt f s (query q e) (query q' e') := by
  intro a s' hrun
  obtain ⟨hq, rfl⟩ := query_eq_ok hrun
  unfold query
  rw [h a hq]

theorem FollowsAt.branch {p : Prop} [Decidable p] {x' y' : EStateM ε σ α}
    (yes : p → FollowsAt f s x x') (no : ¬p → FollowsAt f s y y') :
    FollowsAt f s (if p then x else y) (if p then x' else y') := by
  by_cases h : p
  · rw [if_pos h, if_pos h]
    exact yes h
  · rw [if_neg h, if_neg h]
    exact no h

theorem Follows.branch {p : Prop} [Decidable p] (yes : Follows f x)
    (no : Follows f y) : Follows f (if p then x else y) :=
  fun s => .branch (fun _ => yes s) fun _ => no s

theorem FollowsAt.cleanup {z z' : ε → EStateM ε σ β} (hx : FollowsAt f s x y) :
    FollowsAt f s (tryCatch x fun e => z e >>= fun _ => throw e)
      (tryCatch y fun e => z' e >>= fun _ => throw e) := by
  intro a s' hrun
  change EStateM.tryCatch x _ s = .ok a s' at hrun
  change EStateM.tryCatch y _ (f s) = .ok a (f s')
  delta EStateM.tryCatch at hrun ⊢
  cases hbody : x s with
  | error e t =>
    rw [hbody] at hrun
    have hfails : Post (z e >>= fun _ => throw e : EStateM ε σ α) t (fun _ _ => False)
        (fun _ _ => True) := .seq (.any _ _) fun _ _ _ => .raise trivial
    exact (hfails.of_ok hrun).elim
  | ok b t =>
    rw [hbody] at hrun
    obtain ⟨rfl, rfl⟩ : b = a ∧ t = s' := by simpa using hrun
    rw [hx b t hbody]

end SmallOS.Prog
