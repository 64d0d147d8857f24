/-
# Scopes as deep as 32 bits allow

A scope with a depth of 32 bits is a stack of maps as long as no more scopes are open than there are
depths.  When one more is opened there is no result, while the stack has one map more.

* `run?`: calls one after another on a scope whose depth is checked; `run?_of_depth_lt`: **they are
  what they are without a bound**, if all depths on the way are numbers of 32 bits;
* `run?_eq_stack`: so **a scope and a stack have given the same results and show the same**;
* `run?_enter_eq_none`: opening too many scopes has no result.
-/
import Recast.Narrow.Scope
import Recast.Proofs.Semantics.ScopeStack

namespace Recast

/-- Each call opens one scope at most. -/
theorem ScopeStack.depth_run_le (k : ScopeStack) (calls : List ScopeCall) :
    (ScopeCall.run perform k calls).2.depth ≤ k.depth + calls.length := by
  have hstep : ∀ {k k' : ScopeStack} {call : ScopeCall}, k.perform call = .ok k' →
      k'.depth ≤ k.depth + 1 := by
    intro k k' call h
    cases call with
    | enter =>
      cases h
      exact Nat.le_refl _
    | leave =>
      obtain ⟨top, _ | ⟨m, below⟩⟩ := k
      · cases h
        exact Nat.zero_le _
      · cases h
        exact Nat.le_succ_of_le (Nat.le_succ _)
    | declare name binding span =>
      rw [perform, declare] at h
      split at h
      · cases h
      · cases h
        exact Nat.le_succ _
  induction calls generalizing k with
  | nil => exact Nat.le_refl _
  | cons call calls ih =>
    rw [ScopeCall.run, List.length_cons]
    split
    · rename_i k' h
      have := hstep h
      have := ih k'
      dsimp only
      omega
    · have := ih k
      dsimp only
      omega

namespace Narrow

variable {s s' : Scope}

/-! ## 1. Calls one after another -/

/-- Do a call on a scope, if there is a depth for it. -/
def perform? (s : Scope) : ScopeCall → Option (Except SemanticError Scope)
  | .enter => (enter? s).map .ok
  | call => some (s.perform call)

/-- Do calls one after another, as `ScopeCall.run` does them. -/
def run? : Scope → List ScopeCall → Option (List (Option SemanticError) × Scope)
  | s, [] => some ([], s)
  | s, call :: calls => do
    match ← perform? s call with
    | .ok s' =>
      let (results, last) ← run? s' calls
      pure (none :: results, last)
    | .error e =>
      let (results, last) ← run? s calls
      pure (some e :: results, last)

theorem perform?_of_depth_lt {call : ScopeCall}
    (h : ∀ s', s.perform call = .ok s' → s'.depth < size) :
    perform? s call = some (s.perform call) := by
  cases call with
  | enter =>
    have hlt : s.depth + 1 < size := h s.enter rfl
    rw [perform?, enter?, if_pos hlt]
    rfl
  | leave | declare => rfl

/-- **While the depths are numbers of 32 bits, the calls do what they do without a bound.** -/
theorem run?_of_depth_lt {calls : List ScopeCall}
    (h : ∀ early, early <+: calls → (ScopeCall.run Scope.perform s early).2.depth < size) :
    run? s calls = some (ScopeCall.run Scope.perform s calls) := by
  induction calls generalizing s with
  | nil => rfl
  | cons call calls ih =>
    have hnext : ∀ s', s.perform call = .ok s' → s'.depth < size := by
      intro s' hs'
      have := h [call] (List.prefix_append [call] calls)
      simpa [ScopeCall.run, hs'] using this
    rw [run?, perform?_of_depth_lt hnext, ScopeCall.run]
    -- what comes early in the rest comes early in all the calls
    have hrest : ∀ early, early <+: calls →
        (ScopeCall.run Scope.perform s (call :: early)).2.depth < size :=
      fun early he => h (call :: early) (List.prefix_cons_inj call |>.mpr he)
    cases hp : s.perform call with
    | ok s' =>
      have := ih (s := s') fun early he => by simpa [ScopeCall.run, hp] using hrest early he
      simp [this]
    | error e =>
      have := ih (s := s) fun early he => by simpa [ScopeCall.run, hp] using hrest early he
      simp [this]

/-! ## 2. Scopes and stacks -/

/-- **A scope is a stack of maps while it has a depth.**  After calls on the way of which the stack has
never been deeper than a number of 32 bits says, a scope and a stack that started empty have refused
the same calls for the same reasons, are equally deep, and know the same variables of every name, in
all and in the current scope. -/
theorem run?_eq_stack (calls : List ScopeCall)
    (h : ∀ early, early <+: calls → (ScopeCall.run ScopeStack.perform .empty early).2.depth < size) :
    ∃ results s, run? .empty calls = some (results, s) ∧
      results = (ScopeCall.run ScopeStack.perform .empty calls).1 ∧
      s.depth = (ScopeCall.run ScopeStack.perform .empty calls).2.depth ∧
      ∀ name, s.get? name = (ScopeCall.run ScopeStack.perform .empty calls).2.get? name ∧
        s.isDeclaredHere name =
          (ScopeCall.run ScopeStack.perform .empty calls).2.isDeclaredHere name := by
  refine ⟨_, _, run?_of_depth_lt fun early he => ?_, Scope.run_eq_stack calls⟩
  rw [(Scope.run_eq_stack early).2.1]
  exact h early he

/-- A name that is declared again in the scope inside and once more in its own. -/
theorem run?_eq_stack_of_shadowing : ∃ results s,
    run? .empty [.declare "x" (.declared 0 0) default, .enter, .declare "x" (.declared 1 0) default,
      .leave, .declare "x" (.declared 2 0) default] = some (results, s) ∧
      results = [none, none, none, none, some (.redeclared "x" default)] ∧
      s.get? "x" = some ⟨"x", .declared 0 0, 0, default⟩ := by
  obtain ⟨results, s, h, hresults, -, hget⟩ := run?_eq_stack [.declare "x" (.declared 0 0) default,
    .enter, .declare "x" (.declared 1 0) default, .leave, .declare "x" (.declared 2 0) default]
    fun early he => by
      have hdepth := ScopeStack.depth_run_le .empty early
      have hlength : early.length ≤ 5 := he.length_le
      have hfive : ScopeStack.empty.depth + early.length ≤ 5 := by rwa [Nat.add_comm]
      exact Nat.lt_of_le_of_lt (Nat.le_trans hdepth hfive) (by decide)
  refine ⟨results, s, h, hresults.trans ?_, (hget "x").1.trans ?_⟩
  · rfl
  · rfl

/-- Too many scopes cannot be opened. -/
theorem run?_enter_eq_none {n : Nat} (hs : s.depth < size) (hn : size ≤ s.depth + n) :
    run? s (List.replicate n .enter) = none := by
  induction n generalizing s with
  | zero => omega
  | succ n ih =>
    rw [List.replicate_succ, run?, perform?, enter?]
    split
    · rename_i hlt
      have := ih (s := s.enter) hlt (by simp only [Scope.enter]; omega)
      simp [this]
    · rfl

/-- **One scope more than there are depths cannot be opened**, while the stack has one map more. -/
theorem run?_enter_overflows : run? .empty (List.replicate size .enter) = none ∧
    (ScopeCall.run ScopeStack.perform .empty (List.replicate size .enter)).2.depth = size := by
  have hdepth : ∀ (n : Nat) (k : ScopeStack),
      (ScopeCall.run ScopeStack.perform k (List.replicate n .enter)).2.depth = k.depth + n := by
    intro n
    induction n with
    | zero => exact fun k => rfl
    | succ n ih =>
      intro k
      rw [List.replicate_succ, ScopeCall.run]
      refine (ih k.enter).trans ?_
      simp only [ScopeStack.depth, ScopeStack.enter, List.length_cons]
      omega
  exact ⟨run?_enter_eq_none (by decide) (Nat.le_add_left ..),
    (hdepth size .empty).trans (Nat.zero_add _)⟩

end Narrow

end Recast
