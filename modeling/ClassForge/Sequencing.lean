/-! Steps in turn, each of which may fail and leaves its state either way. -/

namespace ClassForge

/-- The state that a step leaves, whether it succeeds or not. -/
def stateAfter {ε σ α : Type} : EStateM.Result ε σ α → σ
  | .ok _ s | .error _ s => s

theorem ok_of_bind_eq_ok {ε σ α β : Type} {x : EStateM ε σ α} {f : α → EStateM ε σ β}
    {s t : σ} {b : β} (h : (x >>= f) s = .ok b t) :
    ∃ a r, x s = .ok a r ∧ f a r = .ok b t := by
  change EStateM.bind x f s = .ok b t at h
  unfold EStateM.bind at h
  split at h
  · rename_i a r hx
    exact ⟨a, r, hx, h⟩
  · cases h

theorem error_of_bind_eq_error {ε σ α β : Type} {x : EStateM ε σ α} {f : α → EStateM ε σ β}
    {s t : σ} {e : ε} (h : (x >>= f) s = .error e t) :
    x s = .error e t ∨ ∃ a r, x s = .ok a r ∧ f a r = .error e t := by
  change EStateM.bind x f s = .error e t at h
  unfold EStateM.bind at h
  split at h
  · rename_i a r hx
    exact .inr ⟨a, r, hx, h⟩
  · rename_i e' r hx
    cases h
    exact .inl hx

theorem except_bind_eq_ok {ε α β : Type} {x : Except ε α} {f : α → Except ε β} {b : β} :
    (x >>= f) = .ok b ↔ ∃ a, x = .ok a ∧ f a = .ok b := by
  cases x with
  | error e => simp [Bind.bind, Except.bind]
  | ok a => simp [Bind.bind, Except.bind]

theorem except_bind_eq_error {ε α β : Type} {x : Except ε α} {f : α → Except ε β} {e : ε} :
    (x >>= f) = .error e ↔ x = .error e ∨ ∃ a, x = .ok a ∧ f a = .error e := by
  cases x with
  | error e' => simp [Bind.bind, Except.bind]
  | ok a => simp [Bind.bind, Except.bind]

theorem bind_eq_of_ok {ε σ α β : Type} {x : EStateM ε σ α} {s r : σ} {a : α}
    (h : x s = .ok a r) (f : α → EStateM ε σ β) : (x >>= f) s = f a r := by
  change EStateM.bind x f s = f a r
  unfold EStateM.bind
  rw [h]

theorem bind_eq_of_error {ε σ α β : Type} {x : EStateM ε σ α} {s r : σ} {e : ε}
    (h : x s = .error e r) (f : α → EStateM ε σ β) : (x >>= f) s = .error e r := by
  change EStateM.bind x f s = .error e r
  unfold EStateM.bind
  rw [h]

theorem bind_pure_eq_error {ε σ α β : Type} {x : EStateM ε σ α} {f : α → β} {s t : σ} {e : ε} :
    (x >>= fun a => pure (f a)) s = .error e t ↔ x s = .error e t := by
  constructor
  · intro h
    rcases error_of_bind_eq_error h with h | ⟨_, _, -, h⟩
    · exact h
    · cases h
  · exact fun h => bind_eq_of_error h _

/-- Only what the first step does to its own state matters. -/
theorem bind_congr_at {ε σ α β : Type} {x y : EStateM ε σ α} {s t : σ} (h : x s = y t)
    (f : α → EStateM ε σ β) : (x >>= f) s = (y >>= f) t := by
  change EStateM.bind x f s = EStateM.bind y f t
  unfold EStateM.bind
  rw [h]

theorem adaptExcept_eq_ok {ε ε' σ α : Type} {x : EStateM ε σ α} {f : ε → ε'} {s t : σ} {a : α} :
    x.adaptExcept f s = .ok a t ↔ x s = .ok a t := by
  unfold EStateM.adaptExcept
  split
  · simp [*]
  · simp [*]

theorem adaptExcept_eq_error {ε ε' σ α : Type} {x : EStateM ε σ α} {f : ε → ε'} {s t : σ}
    {e : ε'} : x.adaptExcept f s = .error e t ↔ ∃ e', x s = .error e' t ∧ f e' = e := by
  unfold EStateM.adaptExcept
  split
  · rename_i e' r hx
    simp only [EStateM.Result.error.injEq, hx]
    constructor
    · rintro ⟨rfl, rfl⟩
      exact ⟨e', ⟨rfl, rfl⟩, rfl⟩
    · rintro ⟨e'', ⟨rfl, rfl⟩, rfl⟩
      exact ⟨rfl, rfl⟩
  · simp [*]

/-- There is a result, and it passes the test. -/
def resultIs {ε α : Type} (p : α → Bool) : Except ε α → Bool
  | .ok a => p a
  | .error _ => false

/-- The step succeeds, and what it gives and leaves passes the test. -/
def outcomeIs {ε σ α : Type} (p : α → σ → Bool) : EStateM.Result ε σ α → Bool
  | .ok a s => p a s
  | .error _ _ => false

theorem of_resultIs {ε α : Type} {p : α → Bool} {x : Except ε α} (h : resultIs p x = true) :
    ∃ a, x = .ok a ∧ p a = true := by
  cases x with
  | error e => cases h
  | ok a => exact ⟨a, rfl, h⟩

theorem of_outcomeIs {ε σ α : Type} {p : α → σ → Bool} {x : EStateM.Result ε σ α}
    (h : outcomeIs p x = true) : ∃ a s, x = .ok a s ∧ p a s = true := by
  cases x with
  | error e s => cases h
  | ok a s => exact ⟨a, s, rfl, h⟩

end ClassForge
