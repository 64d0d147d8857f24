/-
# Activities one after another

An activity with a state and failures is a function from a state to a result and the state
afterwards.  These lemmas take a sequence of two such activities apart; the parser and the search
for a fix are both built from them.
-/
namespace Recast

variable {ε σ α β : Type} {s s' : σ}

theorem bind_apply (x : ExceptT ε (StateM σ) α) (f : α → ExceptT ε (StateM σ) β) (s : σ) :
    (x >>= f) s = match x s with
      | (.ok a, s') => f a s'
      | (.error e, s') => (.error e, s') := by
  change (ExceptT.bindCont f (x s).1) (x s).2 = _
  rcases x s with ⟨_ | _, s'⟩ <;> rfl

/-- **A sequence succeeds exactly when both parts do**, the second from where the first ended. -/
theorem bind_eq_ok {x : ExceptT ε (StateM σ) α} {f : α → ExceptT ε (StateM σ) β} {b : β} :
    (x >>= f) s = (.ok b, s') ↔ ∃ a s₁, x s = (.ok a, s₁) ∧ f a s₁ = (.ok b, s') := by
  rw [bind_apply]
  rcases x s with ⟨_ | a, s₀⟩
  · constructor
    · intro h
      cases h
    · rintro ⟨a, s₁, h, -⟩
      cases h
  · constructor
    · intro h
      exact ⟨a, s₀, rfl, h⟩
    · rintro ⟨a, s₁, h, h'⟩
      cases h
      exact h'

/-- A sequence goes on where its first part ended. -/
theorem bind_of_ok {x : ExceptT ε (StateM σ) α} {f : α → ExceptT ε (StateM σ) β} {a : α}
    (h : x s = (.ok a, s')) : (x >>= f) s = f a s' := by
  rw [bind_apply, h]

/-- A sequence ends with the failure of its first part. -/
theorem bind_of_error {x : ExceptT ε (StateM σ) α} {f : α → ExceptT ε (StateM σ) β} {e : ε}
    (h : x s = (.error e, s')) : (x >>= f) s = (.error e, s') := by
  rw [bind_apply, h]

end Recast
