/-!
# Steps one after the other

The passes are steps that keep a state also when they fail. These lemmas take a sequence of two
steps apart and put it together. A step fails in certain ways only if its parts do; what it gives as
a value and what it makes of its state do not matter for that.
-/

namespace LetLang

variable {ε σ α β : Type} {x : EStateM ε σ α} {f : α → EStateM ε σ β} {s s' s₁ : σ} {a : α} {b : β}

theorem bind_eq_ok (h : (x >>= f) s = .ok b s') :
    ∃ a s₁, x s = .ok a s₁ ∧ f a s₁ = .ok b s' := by
  change EStateM.bind x f s = _ at h
  unfold EStateM.bind at h
  split at h
  · next a s₁ hx => exact ⟨a, s₁, hx, h⟩
  · cases h

theorem bind_eq_error {e : ε} (h : (x >>= f) s = .error e s') :
    x s = .error e s' ∨ ∃ a s₁, x s = .ok a s₁ ∧ f a s₁ = .error e s' := by
  change EStateM.bind x f s = _ at h
  unfold EStateM.bind at h
  split at h
  · next a s₁ hx => exact .inr ⟨a, s₁, hx, h⟩
  · next hx =>
    cases h
    exact .inl hx

theorem bind_of_ok (h : x s = .ok a s₁) : (x >>= f) s = f a s₁ := by
  change EStateM.bind x f s = _
  unfold EStateM.bind
  rw [h]

theorem bind_of_error {e : ε} (h : x s = .error e s₁) : (x >>= f) s = .error e s₁ := by
  change EStateM.bind x f s = _
  unfold EStateM.bind
  rw [h]

/-- Whatever state the step begins with, `P` holds of the failure that it ends with, if it fails. -/
def FailsOnly (P : ε → Prop) (x : EStateM ε σ α) : Prop := ∀ s e s', x s = .error e s' → P e

namespace FailsOnly

variable {P : ε → Prop}

theorem pure (a : α) : FailsOnly P (pure a : EStateM ε σ α) := by
  rintro s e s' ⟨⟩

theorem throw {e : ε} (h : P e) : FailsOnly P (throw e : EStateM ε σ α) := by
  rintro s _ s' ⟨⟩
  exact h

theorem modify (k : σ → σ) : FailsOnly P (modify k : EStateM ε σ PUnit) := by
  rintro s e s' ⟨⟩

/-- The second step has to be looked at only for the values that the first one can give. -/
theorem bindOf (h : FailsOnly P x) (hf : ∀ s a s', x s = .ok a s' → FailsOnly P (f a)) :
    FailsOnly P (x >>= f) := by
  intro s e s' hbind
  rcases bind_eq_error hbind with hx | ⟨a, s₁, hx, ha⟩
  · exact h s e s' hx
  · exact hf s a s₁ hx s₁ e s' ha

theorem bind (h : FailsOnly P x) (hf : ∀ a, FailsOnly P (f a)) : FailsOnly P (x >>= f) :=
  h.bindOf fun _ a _ _ => hf a

end FailsOnly

end LetLang
