/-
# Scopes as stacks of maps

A `Scope` keeps the visible variables in one table and puts those that are hidden aside.  What it
shows is what a plain stack of maps shows, with a map from names to variables for each open scope: a
name is declared in the map on top unless it is there already, and looked up from the top down.

* `ScopeStack`: the stack; `ScopeCall.run`: calls one after another, on scopes and on stacks;
* `Scope.Alike`: two scopes that only differ in the order of their tables; leaving a scope does not
  tell them apart, nor whether a name was declared before (`Sole.leave_declared`);
* `Scope.Models`: the scope shows what the stack shows, now and whenever scopes are left;
* `Scope.run_eq_stack`: **after any calls, a scope and a stack have given the same results and show
  the same.**
-/
import Recast.Proofs.Semantics.Scopes
import Mathlib.Logic.Function.Basic

namespace Recast

/-! ## 1. Stacks of maps -/

/-- Variables by their names. -/
abbrev NameMap := String → Option LocalVar

/-- A stack of maps, one for each open scope. -/
structure ScopeStack where
  /-- The map of the current scope. -/
  top : NameMap
  /-- The maps of the scopes around it, the innermost in front. -/
  below : List NameMap

namespace ScopeStack

/-- One map without names. -/
def empty : ScopeStack := ⟨fun _ => none, []⟩

/-- The number of open scopes around the current one. -/
def depth (k : ScopeStack) : Nat := k.below.length

/-- The variable that a name stands for: the one in the topmost map that has the name. -/
def get? (k : ScopeStack) (name : String) : Option LocalVar :=
  (k.top :: k.below).findSome? fun m => m name

/-- Whether the map on top has the name. -/
def isDeclaredHere (k : ScopeStack) (name : String) : Bool := (k.top name).isSome

/-- Put an empty map on top. -/
def enter (k : ScopeStack) : ScopeStack := ⟨fun _ => none, k.top :: k.below⟩

/-- Take the map on top away; the only map is emptied. -/
def leave : ScopeStack → ScopeStack
  | ⟨_, []⟩ => empty
  | ⟨_, m :: below⟩ => ⟨m, below⟩

/-- Add a name to the map on top, which must not have it. -/
def declare (k : ScopeStack) (name : String) (binding : Binding) (span : Span) :
    Except SemanticError ScopeStack :=
  if (k.top name).isSome then .error (.redeclared name span)
  else .ok { k with top := Function.update k.top name (some ⟨name, binding, k.depth, span⟩) }

end ScopeStack

/-- What can be done to scopes and to stacks. -/
inductive ScopeCall where
  | enter
  | leave
  | declare (name : String) (binding : Binding) (span : Span)

namespace ScopeCall

/-- Do calls one after another.  A call that fails changes nothing.  The results are the failures,
call by call, and what is there in the end. -/
def run {σ : Type} (perform : σ → ScopeCall → Except SemanticError σ) :
    σ → List ScopeCall → List (Option SemanticError) × σ
  | s, [] => ([], s)
  | s, call :: calls =>
    match perform s call with
    | .ok s' => (none :: (run perform s' calls).1, (run perform s' calls).2)
    | .error e => (some e :: (run perform s calls).1, (run perform s calls).2)

end ScopeCall

/-- Do a call on a scope. -/
def Scope.perform (s : Scope) : ScopeCall → Except SemanticError Scope
  | .enter => .ok s.enter
  | .leave => .ok s.leave
  | .declare name binding span => s.declare name binding span

/-- Do a call on a stack. -/
def ScopeStack.perform (k : ScopeStack) : ScopeCall → Except SemanticError ScopeStack
  | .enter => .ok k.enter
  | .leave => .ok k.leave
  | .declare name binding span => k.declare name binding span

namespace Scope

variable {s s' : Scope} {name : String} {binding : Binding} {span : Span}

/-! ## 2. The order of the tables -/

/-- The variables of one name among others. -/
def named (vars : List LocalVar) (name : String) : List LocalVar := vars.filter fun v => v.name = name

theorem get?_eq_head? (s : Scope) (name : String) : s.get? name = (named s.visible name).head? := by
  rw [get?, named, List.head?_filter]

theorem named_put (vars : List LocalVar) (v : LocalVar) (name : String) :
    named (put vars v) name = if v.name = name then [v] else named vars name := by
  by_cases h : v.name = name
  · subst h
    simp [named, put, List.filter_filter]
  · have hfilter : named (vars.filter fun w => w.name ≠ v.name) name = named vars name := by
      rw [named, List.filter_filter]
      refine List.filter_congr fun w _ => ?_
      by_cases hw : w.name = name
      · simp [hw, Ne.symm h]
      · simp [hw]
    rw [if_neg h, put, named, List.filter_cons_of_neg (by simpa using h)]
    exact hfilter

theorem named_filter (vars : List LocalVar) (p : LocalVar → Bool) (name : String) :
    named (vars.filter p) name = (named vars name).filter p := by
  rw [named, named, List.filter_filter, List.filter_filter]
  exact List.filter_congr fun v _ => Bool.and_comm ..

/-- The two scopes have the same variables of each name; the order of the names may differ. -/
structure Alike (s s' : Scope) : Prop where
  named_eq : ∀ name, named s.visible name = named s'.visible name
  hidden_eq : s.hidden = s'.hidden
  depth_eq : s.depth = s'.depth

theorem Alike.refl (s : Scope) : Alike s s := ⟨fun _ => rfl, rfl, rfl⟩

theorem Alike.symm (h : Alike s s') : Alike s' s :=
  ⟨fun name => (h.named_eq name).symm, h.hidden_eq.symm, h.depth_eq.symm⟩

theorem Alike.get? (h : Alike s s') (name : String) : s.get? name = s'.get? name := by
  rw [get?_eq_head?, get?_eq_head?, h.named_eq]

/-- What is put back does not depend on the order either. -/
theorem restore_alike (depth : Nat) : ∀ (hidden : List (Nat × LocalVar)) {vars vars' : List LocalVar},
    (∀ name, named vars name = named vars' name) →
    (∀ name, named (restore depth vars hidden).1 name = named (restore depth vars' hidden).1 name) ∧
      (restore depth vars hidden).2 = (restore depth vars' hidden).2
  | [], _, _, h => ⟨h, rfl⟩
  | (hider, old) :: hidden, vars, vars', h => by
    rw [restore, restore]
    split
    · refine restore_alike depth hidden fun name => ?_
      rw [named_put, named_put, h]
    · exact ⟨h, rfl⟩

/-- **Leaving a scope does not tell apart what is alike.** -/
theorem Alike.leave (h : Alike s s') : Alike s.leave s'.leave := by
  have hkept : ∀ name, named (s.visible.filter fun v => v.depth < s.depth) name =
      named (s'.visible.filter fun v => v.depth < s.depth) name := by
    intro name
    rw [named_filter, named_filter, h.named_eq]
  obtain ⟨hnamed, hhidden⟩ := restore_alike s.depth s.hidden hkept
  rw [leave_eq, leave_eq, ← h.hidden_eq, ← h.depth_eq]
  exact ⟨hnamed, hhidden, rfl⟩

/-- The scope is tidy and shows at most one variable of each name. -/
structure Sole (s : Scope) : Prop extends Tidy s where
  sole : ∀ name, (named s.visible name).length ≤ 1

namespace Sole

theorem named_eq (h : s.Sole) (name : String) : named s.visible name = (s.get? name).toList := by
  rw [get?_eq_head?]
  match hs : named s.visible name with
  | [] => rfl
  | [v] => rfl
  | v :: w :: vars =>
    have hle := h.sole name
    rw [hs] at hle
    simp at hle

theorem empty : Scope.empty.Sole := ⟨tidy_empty, fun _ => Nat.zero_le _⟩

theorem enter (h : s.Sole) : s.enter.Sole := ⟨h.toTidy.enter, h.sole⟩

theorem put {vars : List LocalVar} (h : ∀ name, (named vars name).length ≤ 1) (v : LocalVar)
    (name : String) : (named (put vars v) name).length ≤ 1 := by
  rw [named_put]
  split
  · exact Nat.le_refl _
  · exact h name

theorem declared (h : s.Sole) (name : String) (binding : Binding) (span : Span) :
    (s.declared name binding span).Sole := by
  refine ⟨h.toTidy.declared name binding span, ?_⟩
  cases hs : s.get? name with
  | none =>
    rw [declared_of_none hs]
    exact put h.sole _
  | some old =>
    by_cases hd : old.depth = s.depth
    · rw [declared_of_here hs hd]
      exact h.sole
    · rw [declared_of_outside hs hd]
      exact put h.sole _

theorem restore {depth : Nat} : ∀ {hidden : List (Nat × LocalVar)} {vars : List LocalVar},
    (∀ name, (named vars name).length ≤ 1) →
    ∀ name, (named (Scope.restore depth vars hidden).1 name).length ≤ 1
  | [], _, h => h
  | (hider, old) :: hidden, vars, h => by
    rw [Scope.restore]
    split
    · exact restore (put h old)
    · exact h

theorem leave (h : s.Sole) : s.leave.Sole := by
  refine ⟨h.toTidy.leave, ?_⟩
  rw [leave_eq]
  refine restore fun name => ?_
  rw [named_filter]
  exact Nat.le_trans (List.length_filter_le ..) (h.sole name)

/-- **What is declared in a scope is gone when the scope is left**, and what it hid is back. -/
theorem leave_declared (h : s.Sole) (name : String) (binding : Binding) (span : Span) :
    Alike (s.declared name binding span).leave s.leave := by
  cases hs : s.get? name with
  | none =>
    have hnone : named s.visible name = [] := by
      rw [h.named_eq, hs]
      rfl
    have hkept : ∀ other,
        named ((Scope.put s.visible ⟨name, binding, s.depth, span⟩).filter fun v => v.depth < s.depth)
          other = named (s.visible.filter fun v => v.depth < s.depth) other := by
      intro other
      rw [named_filter, named_filter, named_put]
      split
      · rename_i hother
        subst hother
        simp [hnone]
      · rfl
    obtain ⟨hnamed, hhidden⟩ := restore_alike s.depth s.hidden hkept
    rw [declared_of_none hs, leave_eq, leave_eq]
    exact ⟨hnamed, hhidden, rfl⟩
  | some old =>
    by_cases hd : old.depth = s.depth
    · rw [declared_of_here hs hd]
      exact .refl _
    · have hlt : old.depth < s.depth := Nat.lt_of_le_of_ne (h.toTidy.get?_depth hs) hd
      have hname : old.name = name := by
        have := List.find?_some hs
        simpa using this
      have hold : named s.visible name = [old] := by
        rw [h.named_eq, hs]
        rfl
      -- the variable that was hidden last is the first to be put back
      have hstep : Scope.restore s.depth
          ((Scope.put s.visible ⟨name, binding, s.depth, span⟩).filter fun v => v.depth < s.depth)
          ((s.depth, old) :: s.hidden) = Scope.restore s.depth
          (Scope.put ((Scope.put s.visible ⟨name, binding, s.depth, span⟩).filter
            fun v => v.depth < s.depth) old) s.hidden := by
        rw [Scope.restore, if_pos rfl]
      have hkept : ∀ other,
          named (Scope.put ((Scope.put s.visible ⟨name, binding, s.depth, span⟩).filter
            fun v => v.depth < s.depth) old) other =
          named (s.visible.filter fun v => v.depth < s.depth) other := by
        intro other
        rw [named_put, named_filter, named_filter, named_put, hname]
        split
        · rename_i hother
          subst hother
          simp [hold, hlt]
        · rfl
      obtain ⟨hnamed, hhidden⟩ := restore_alike s.depth s.hidden hkept
      rw [← hstep] at hnamed hhidden
      rw [declared_of_outside hs hd, leave_eq, leave_eq]
      exact ⟨hnamed, hhidden, rfl⟩

end Sole

theorem get?_declared (s : Scope) (name other : String) (binding : Binding) (span : Span) :
    (s.declared name binding span).get? other =
      if name = other ∧ s.isDeclaredHere name = false then some ⟨name, binding, s.depth, span⟩
      else s.get? other := by
  have hput : ∀ s' : Scope, s'.visible = put s.visible ⟨name, binding, s.depth, span⟩ →
      s'.get? other = if name = other then some ⟨name, binding, s.depth, span⟩ else s.get? other := by
    intro s' hs'
    rw [get?_eq_head?, hs', named_put, get?_eq_head?]
    split <;> rfl
  cases hs : s.get? name with
  | none =>
    rw [declared_of_none hs, hput _ rfl]
    simp [isDeclaredHere, hs]
  | some old =>
    by_cases hd : old.depth = s.depth
    · rw [declared_of_here hs hd]
      simp [isDeclaredHere, hs, hd]
    · rw [declared_of_outside hs hd, hput _ rfl]
      simp [isDeclaredHere, hs, hd]

/-- A declaration fails exactly if the name is declared in the current scope. -/
theorem declare_eq (s : Scope) (name : String) (binding : Binding) (span : Span) :
    s.declare name binding span = if s.isDeclaredHere name then .error (.redeclared name span)
      else .ok (s.declared name binding span) := by
  cases hs : s.get? name with
  | none => simp [declared, declare, isDeclaredHere, hs]
  | some old => by_cases hd : old.depth = s.depth <;> simp [declared, declare, isDeclaredHere, hs, hd]

theorem declared_of_isDeclaredHere (h : s.isDeclaredHere name = true) :
    s.declared name binding span = s := by
  obtain ⟨old, hold, hd⟩ := (Option.any_eq_true ..).mp h
  exact declared_of_here hold (of_decide_eq_true hd)

theorem depth_declared (s : Scope) (name : String) (binding : Binding) (span : Span) :
    (s.declared name binding span).depth = s.depth := by
  cases hs : s.get? name with
  | none => rw [declared_of_none hs]
  | some old =>
    by_cases hd : old.depth = s.depth
    · rw [declared_of_here hs hd]
    · rw [declared_of_outside hs hd]

/-! ## 3. What a scope shows -/

/-- A map with one more variable of a depth. -/
theorem depth_of_update {top : NameMap} {depth : Nat} {other : String} {v : LocalVar}
    (h : ∀ {other v}, top other = some v → v.depth = depth)
    (hv : Function.update top name (some ⟨name, binding, depth, span⟩) other = some v) :
    v.depth = depth := by
  rw [Function.update_apply] at hv
  split at hv
  · cases hv
    rfl
  · exact h hv

/-- The scope shows what the stack shows, and so does every scope around it once it is left to. -/
inductive Models : Scope → ScopeStack → Prop
  | outermost {s : Scope} {top : NameMap} : s.depth = 0 → s.hidden = [] →
      (∀ name, s.get? name = top name) → (∀ {name v}, top name = some v → v.depth = 0) →
      Models s ⟨top, []⟩
  | nested {s : Scope} {top m : NameMap} {below : List NameMap} : Models s.leave ⟨m, below⟩ →
      s.depth = below.length + 1 → (∀ name, s.get? name = (top name).or (s.leave.get? name)) →
      (∀ {name v}, top name = some v → v.depth = s.depth) → Models s ⟨top, m :: below⟩

namespace Models

variable {k : ScopeStack}

theorem depth_eq (h : Models s k) : s.depth = k.depth := by
  cases h with
  | outermost hd => exact hd
  | nested _ hd => exact hd

theorem get?_eq (h : Models s k) (name : String) : s.get? name = k.get? name := by
  induction h with
  | outermost _ _ hget _ => simp [ScopeStack.get?, hget]
  | @nested s top m below _ _ hget _ ih =>
    rw [hget, ih]
    cases hv : top name <;> simp [ScopeStack.get?, List.findSome?_cons, hv]

theorem isDeclaredHere_eq (h : Models s k) (hs : s.Sole) (name : String) :
    s.isDeclaredHere name = k.isDeclaredHere name := by
  cases h with
  | @outermost s top hd _ hget hdepth =>
    cases ht : top name with
    | none => simp [isDeclaredHere, ScopeStack.isDeclaredHere, hget, ht]
    | some v => simp [isDeclaredHere, ScopeStack.isDeclaredHere, hget, ht, hdepth ht, hd]
  | @nested s top m below _ hd hget hdepth =>
    cases ht : top name with
    | some v => simp [isDeclaredHere, ScopeStack.isDeclaredHere, hget, ht, hdepth ht]
    | none =>
      -- a variable from further out lies less deep
      have hout : ∀ v ∈ s.leave.get? name, v.depth ≠ s.depth := by
        intro v hv
        have hle : v.depth ≤ s.depth - 1 := hs.toTidy.leave.get?_depth hv
        omega
      cases hv : s.leave.get? name with
      | none => simp [isDeclaredHere, ScopeStack.isDeclaredHere, hget, ht, hv]
      | some v => simp [isDeclaredHere, ScopeStack.isDeclaredHere, hget, ht, hv, hout v hv]

/-- A stack does not tell apart what is alike. -/
theorem alike (h : Models s k) (ha : Alike s s') : Models s' k := by
  induction h generalizing s' with
  | outermost hd hh hget hdepth =>
    exact .outermost (ha.depth_eq ▸ hd) (ha.hidden_eq ▸ hh)
      (fun name => (ha.get? name).symm.trans (hget name)) hdepth
  | nested _ hd hget hdepth ih =>
    refine .nested (ih ha.leave) (ha.depth_eq ▸ hd) (fun name => ?_)
      fun hv => ha.depth_eq ▸ hdepth hv
    rw [← ha.get?, ← ha.leave.get?, hget]

theorem empty : Models .empty .empty := .outermost rfl rfl (fun _ => rfl) (by simp)

theorem enter (h : Models s k) (hs : s.Sole) : Models s.enter k.enter := by
  have hleave : s.enter.leave = s := hs.toTidy.leave_enter
  refine .nested (by rwa [hleave]) (congrArg (· + 1) h.depth_eq) (fun name => ?_) (by simp)
  rw [hleave]
  rfl

theorem leave (h : Models s k) : Models s.leave k.leave := by
  cases h with
  | nested h => exact h
  | outermost hd hh hget hdepth =>
    have hempty : s.leave = .empty := by
      rw [leave_eq, hd, hh]
      simp [restore, Scope.empty]
    rw [hempty]
    exact empty

/-- A new name is put into the map on top. -/
theorem declared (h : Models s k) (hs : s.Sole) (hnew : k.top name = none) :
    Models (s.declared name binding span)
      { k with top := Function.update k.top name (some ⟨name, binding, k.depth, span⟩) } := by
  have hhere : s.isDeclaredHere name = false := by
    rw [h.isDeclaredHere_eq hs, ScopeStack.isDeclaredHere, hnew]
    rfl
  have hdepth' := depth_declared s name binding span
  rw [← h.depth_eq]
  cases h with
  | @outermost s top hd hh hget hdepth =>
    have hnone : s.get? name = none := (hget name).trans hnew
    refine .outermost (hdepth'.trans hd) (by rwa [declared_of_none hnone]) (fun other => ?_)
      fun hv => (depth_of_update (fun hv => (hdepth hv).trans hd.symm) hv).trans hd
    rw [get?_declared, hhere, hget]
    by_cases ho : name = other <;> simp [ho, eq_comm]
  | @nested s top m below hm hd hget hdepth =>
    have hleave := hs.leave_declared name binding span
    refine .nested (hm.alike hleave.symm) (hdepth'.trans hd) (fun other => ?_)
      fun hv => (depth_of_update hdepth hv).trans hdepth'.symm
    rw [get?_declared, hhere, hget, hleave.get?]
    by_cases ho : name = other <;> simp [ho, eq_comm]

end Models

/-! ## 4. Calls one after another -/

/-- The results of a call are the same, and afterwards the scope and the stack show the same. -/
inductive SameResult : Except SemanticError Scope → Except SemanticError ScopeStack → Prop
  | ok {s : Scope} {k : ScopeStack} : s.Sole → Models s k → SameResult (.ok s) (.ok k)
  | error (e : SemanticError) : SameResult (.error e) (.error e)

theorem Models.perform {k : ScopeStack} (h : Models s k) (hs : s.Sole) (call : ScopeCall) :
    SameResult (s.perform call) (k.perform call) := by
  cases call with
  | enter => exact .ok hs.enter (h.enter hs)
  | leave => exact .ok hs.leave h.leave
  | declare name binding span =>
    rw [Scope.perform, ScopeStack.perform, declare_eq, ScopeStack.declare, h.isDeclaredHere_eq hs,
      ScopeStack.isDeclaredHere]
    cases ht : k.top name with
    | some v => exact .error _
    | none => exact .ok (hs.declared name binding span) (h.declared hs ht)

/-- Whatever is done to a scope and a stack that show the same, they go on to do so. -/
theorem Models.run {k : ScopeStack} (h : Models s k) (hs : s.Sole) (calls : List ScopeCall) :
    (ScopeCall.run Scope.perform s calls).1 = (ScopeCall.run ScopeStack.perform k calls).1 ∧
      (ScopeCall.run Scope.perform s calls).2.Sole ∧
      Models (ScopeCall.run Scope.perform s calls).2 (ScopeCall.run ScopeStack.perform k calls).2 := by
  induction calls generalizing s k with
  | nil => exact ⟨rfl, hs, h⟩
  | cons call calls ih =>
    rw [ScopeCall.run, ScopeCall.run]
    have hstep := h.perform hs call
    generalize s.perform call = r, k.perform call = r' at hstep
    cases hstep with
    | ok hs' h' =>
      obtain ⟨hresults, hlast⟩ := ih h' hs'
      exact ⟨congrArg (none :: ·) hresults, hlast⟩
    | error e =>
      obtain ⟨hresults, hlast⟩ := ih h hs
      exact ⟨congrArg (some e :: ·) hresults, hlast⟩

/-- **A scope is a stack of maps.**  After any calls, a scope and a stack that started empty have
refused the same calls for the same reasons, are equally deep, and know the same variables of every
name, in all and in the current scope. -/
theorem run_eq_stack (calls : List ScopeCall) :
    (ScopeCall.run Scope.perform .empty calls).1 = (ScopeCall.run ScopeStack.perform .empty calls).1 ∧
    (ScopeCall.run Scope.perform .empty calls).2.depth =
      (ScopeCall.run ScopeStack.perform .empty calls).2.depth ∧
    ∀ name, (ScopeCall.run Scope.perform .empty calls).2.get? name =
        (ScopeCall.run ScopeStack.perform .empty calls).2.get? name ∧
      (ScopeCall.run Scope.perform .empty calls).2.isDeclaredHere name =
        (ScopeCall.run ScopeStack.perform .empty calls).2.isDeclaredHere name := by
  obtain ⟨hresults, hsole, hmodels⟩ := Models.empty.run Sole.empty calls
  exact ⟨hresults, hmodels.depth_eq, fun name =>
    ⟨hmodels.get?_eq name, hmodels.isDeclaredHere_eq hsole name⟩⟩

end Scope

end Recast
