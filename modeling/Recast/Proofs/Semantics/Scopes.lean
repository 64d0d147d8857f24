/-
# Scopes that open and close

Two scopes show the same names if they differ only in the places of the names and in the bindings that
they stand for.  Everything that is done to a scope keeps this.  And a scope that is opened and closed
again leaves no trace, however many others are around the declarations in it.

* `Scope.relabel`: a scope with other bindings and without places; it commutes with all that is done to
  a scope;
* `Scope.Tidy`: the depths in a scope are those of the open scopes;
* `Scope.Tidy.leave_enter`, `Scope.Tidy.leave_declared`: **what a scope is after one inside it was
  closed** does not depend on the depth of that scope.
-/
import Recast.Semantics.Scope

namespace Recast

/-! ## 1. Other bindings -/

/-- The variable with another binding, in no place. -/
def LocalVar.relabel (f : Binding → Binding) (v : LocalVar) : LocalVar :=
  ⟨v.name, f v.binding, v.depth, default⟩

namespace Scope

variable {f : Binding → Binding} {s : Scope} {name : String} {binding : Binding} {span : Span}

/-- The scope with other bindings, without places. -/
def relabel (f : Binding → Binding) (s : Scope) : Scope :=
  ⟨s.visible.map (·.relabel f), s.hidden.map fun h => (h.1, h.2.relabel f), s.depth⟩

/-- The scope after a declaration, which does nothing if the name is declared there already. -/
def declared (s : Scope) (name : String) (binding : Binding) (span : Span) : Scope :=
  match s.declare name binding span with
  | .ok s' => s'
  | .error _ => s

/-- The scope with the variable of a name in front. -/
def refresh (s : Scope) (name : String) : Scope :=
  { s with visible := (s.get? name).toList ++ s.visible.filter fun v => v.name ≠ name }

@[simp]
theorem get?_enter (s : Scope) (name : String) : s.enter.get? name = s.get? name := rfl

theorem get?_relabel (f : Binding → Binding) (s : Scope) (name : String) :
    (s.relabel f).get? name = (s.get? name).map (LocalVar.relabel f) := by
  rw [get?, get?, relabel, List.find?_map]
  rfl

/-- Leaving out what is told by name or depth commutes with relabelling. -/
theorem filter_map_relabel {p : LocalVar → Bool} (hp : ∀ v, p (v.relabel f) = p v)
    (vars : List LocalVar) :
    (vars.filter p).map (·.relabel f) = (vars.map (·.relabel f)).filter p := by
  rw [List.filter_map]
  exact congrArg _ (List.filter_congr fun v _ => (hp v).symm)

theorem relabel_put (vars : List LocalVar) (v : LocalVar) :
    (put vars v).map (·.relabel f) = put (vars.map (·.relabel f)) (v.relabel f) := by
  rw [put, put, List.map_cons]
  exact congrArg _ (filter_map_relabel (fun _ => rfl) vars)

theorem relabel_restore (depth : Nat) : ∀ (hidden : List (Nat × LocalVar)) (vars : List LocalVar),
    restore depth (vars.map (·.relabel f)) (hidden.map fun h => (h.1, h.2.relabel f)) =
      ((restore depth vars hidden).1.map (·.relabel f),
        (restore depth vars hidden).2.map fun h => (h.1, h.2.relabel f))
  | [], _ => rfl
  | (hider, old) :: hidden, vars => by
    rw [List.map_cons, restore, restore]
    split
    · rw [← relabel_restore depth hidden, relabel_put]
    · rfl

theorem leave_eq (s : Scope) : s.leave =
    ⟨(restore s.depth (s.visible.filter fun v => v.depth < s.depth) s.hidden).1,
      (restore s.depth (s.visible.filter fun v => v.depth < s.depth) s.hidden).2, s.depth - 1⟩ := rfl

theorem relabel_leave (f : Binding → Binding) (s : Scope) : s.leave.relabel f = (s.relabel f).leave := by
  have hfilter := filter_map_relabel (f := f) (p := fun v => v.depth < s.depth) (fun _ => rfl) s.visible
  have hrestore := relabel_restore (f := f) s.depth s.hidden
    (s.visible.filter fun v => v.depth < s.depth)
  rw [hfilter] at hrestore
  rw [leave_eq s, leave_eq (s.relabel f)]
  exact (congrArg (fun p => Scope.mk p.1 p.2 (s.depth - 1)) hrestore).symm

theorem declared_of_none (h : s.get? name = none) :
    s.declared name binding span = { s with visible := put s.visible ⟨name, binding, s.depth, span⟩ } := by
  simp [declared, declare, h]

theorem declared_of_here {old : LocalVar} (h : s.get? name = some old) (hd : old.depth = s.depth) :
    s.declared name binding span = s := by
  simp [declared, declare, h, hd]

theorem declared_of_outside {old : LocalVar} (h : s.get? name = some old) (hd : old.depth ≠ s.depth) :
    s.declared name binding span =
      { s with visible := put s.visible ⟨name, binding, s.depth, span⟩,
               hidden := (s.depth, old) :: s.hidden } := by
  simp [declared, declare, h, hd]

theorem relabel_declared (f : Binding → Binding) (s : Scope) (name : String) (binding : Binding)
    (span : Span) : (s.declared name binding span).relabel f =
      (s.relabel f).declared name (f binding) default := by
  have hget := get?_relabel f s name
  cases hs : s.get? name with
  | none =>
    rw [hs] at hget
    rw [declared_of_none hs, declared_of_none hget, relabel, relabel_put]
    rfl
  | some old =>
    rw [hs] at hget
    by_cases hd : old.depth = s.depth
    · rw [declared_of_here hs hd, declared_of_here hget hd]
    · rw [declared_of_outside hs hd, declared_of_outside hget hd, relabel, relabel_put]
      rfl

theorem relabel_refresh (f : Binding → Binding) (s : Scope) (name : String) :
    (s.refresh name).relabel f = (s.relabel f).refresh name := by
  have hget : ((s.get? name).map (LocalVar.relabel f)).toList =
      (s.get? name).toList.map (LocalVar.relabel f) := by
    cases s.get? name <;> rfl
  rw [refresh, refresh, get?_relabel, hget, relabel, relabel, List.map_append]
  exact congrArg (fun vars => Scope.mk (_ ++ vars) _ _) (filter_map_relabel (fun _ => rfl) s.visible)

/-! ## 2. Opening and closing -/

/-- The depths in a scope are those of the open scopes: what is hidden is further out than what hides
it, and what was hidden last is hidden furthest in. -/
structure Tidy (s : Scope) : Prop where
  visible : ∀ v ∈ s.visible, v.depth ≤ s.depth
  hidden : ∀ h ∈ s.hidden, h.1 ≤ s.depth ∧ h.2.depth < h.1
  sorted : s.hidden.Pairwise fun a b => b.1 ≤ a.1

theorem tidy_empty : empty.Tidy := ⟨by simp [empty], by simp [empty], .nil⟩

theorem tidy_relabel : (s.relabel f).Tidy ↔ s.Tidy := by
  constructor
  · intro h
    refine ⟨fun v hv => h.visible (v.relabel f) (List.mem_map_of_mem hv),
      fun p hp => h.hidden (p.1, p.2.relabel f) (List.mem_map.mpr ⟨p, hp, rfl⟩), ?_⟩
    have hsorted := h.sorted
    rwa [relabel, List.pairwise_map] at hsorted
  · intro h
    refine ⟨fun v hv => ?_, fun p hp => ?_, ?_⟩
    · obtain ⟨w, hw, rfl⟩ := List.mem_map.mp hv
      exact h.visible w hw
    · obtain ⟨q, hq, rfl⟩ := List.mem_map.mp hp
      exact h.hidden q hq
    · rw [relabel, List.pairwise_map]
      exact h.sorted

namespace Tidy

theorem enter (h : s.Tidy) : s.enter.Tidy :=
  ⟨fun v hv => Nat.le_succ_of_le (h.visible v hv),
    fun p hp => ⟨Nat.le_succ_of_le (h.hidden p hp).1, (h.hidden p hp).2⟩, h.sorted⟩

theorem get?_depth (h : s.Tidy) {v : LocalVar} (hv : s.get? name = some v) : v.depth ≤ s.depth :=
  h.visible v (List.mem_of_find?_eq_some hv)

theorem put_depth (h : s.Tidy) {v : LocalVar} (hv : v.depth ≤ s.depth) :
    ∀ w ∈ put s.visible v, w.depth ≤ s.depth := by
  intro w hw
  rcases List.mem_cons.mp hw with rfl | hw
  · exact hv
  · exact h.visible w (List.mem_filter.mp hw).1

theorem declared (h : s.Tidy) (name : String) (binding : Binding) (span : Span) :
    (s.declared name binding span).Tidy := by
  cases hs : s.get? name with
  | none =>
    rw [declared_of_none hs]
    exact ⟨h.put_depth (Nat.le_refl _), h.hidden, h.sorted⟩
  | some old =>
    by_cases hd : old.depth = s.depth
    · rw [declared_of_here hs hd]
      exact h
    · rw [declared_of_outside hs hd]
      have hlt : old.depth < s.depth := Nat.lt_of_le_of_ne (h.get?_depth hs) hd
      refine ⟨h.put_depth (Nat.le_refl _), fun p hp => ?_, .cons (fun p hp => ?_) h.sorted⟩
      · rcases List.mem_cons.mp hp with rfl | hp
        · exact ⟨Nat.le_refl _, hlt⟩
        · exact h.hidden p hp
      · exact (h.hidden p hp).1

theorem restore {depth : Nat} : ∀ {hidden : List (Nat × LocalVar)} {vars : List LocalVar},
    (∀ v ∈ vars, v.depth < depth) → (∀ p ∈ hidden, p.1 ≤ depth ∧ p.2.depth < p.1) →
    (hidden.Pairwise fun a b => b.1 ≤ a.1) →
    (∀ v ∈ (restore depth vars hidden).1, v.depth < depth) ∧
      (∀ p ∈ (restore depth vars hidden).2, p.1 < depth ∧ p.2.depth < p.1) ∧
      (restore depth vars hidden).2.Pairwise fun a b => b.1 ≤ a.1
  | [], _, hv, _, _ => ⟨hv, by simp [Scope.restore], .nil⟩
  | (hider, old) :: hidden, vars, hv, hh, hs => by
    obtain ⟨hle, hs⟩ := List.pairwise_cons.mp hs
    have hhead := hh _ (List.mem_cons_self ..)
    rw [Scope.restore]
    split
    · rename_i he
      refine restore (fun v hmem => ?_) (fun p hp => hh p (List.mem_cons_of_mem _ hp)) hs
      rcases List.mem_cons.mp hmem with rfl | hmem
      · exact Nat.lt_of_lt_of_le hhead.2 hhead.1
      · exact hv v (List.mem_filter.mp hmem).1
    · rename_i hne
      have hlt : hider < depth := Nat.lt_of_le_of_ne hhead.1 hne
      refine ⟨hv, fun p hp => ?_, .cons hle hs⟩
      refine ⟨?_, (hh p hp).2⟩
      rcases List.mem_cons.mp hp with rfl | hp
      · exact hlt
      · exact Nat.lt_of_le_of_lt (hle p hp) hlt

theorem leave (h : s.Tidy) : s.leave.Tidy := by
  obtain ⟨hv, hh, hs⟩ := @restore s.depth _ _
    (fun v hv => of_decide_eq_true (List.mem_filter.mp hv).2) h.hidden h.sorted
  exact ⟨fun v hmem => Nat.le_sub_one_of_lt (hv v hmem),
    fun p hp => ⟨Nat.le_sub_one_of_lt (hh p hp).1, (hh p hp).2⟩, hs⟩

theorem refresh (h : s.Tidy) (name : String) : (s.refresh name).Tidy := by
  refine ⟨fun v hv => ?_, h.hidden, h.sorted⟩
  rcases List.mem_append.mp hv with hv | hv
  · exact h.get?_depth (Option.mem_toList.mp hv)
  · exact h.visible v (List.mem_filter.mp hv).1

/-- Nothing is hidden by a scope that was just opened. -/
theorem restore_enter (h : s.Tidy) (vars : List LocalVar) :
    Scope.restore (s.depth + 1) vars s.hidden = (vars, s.hidden) := by
  cases hs : s.hidden with
  | nil => rfl
  | cons p hidden =>
    have hle := (h.hidden p (by simp [hs])).1
    rw [Scope.restore, if_neg (Nat.ne_of_lt (Nat.lt_succ_of_le hle))]

theorem filter_enter (h : s.Tidy) (p : LocalVar → Bool) :
    (s.visible.filter p).filter (fun v => v.depth < s.depth + 1) = s.visible.filter p := by
  refine List.filter_eq_self.mpr fun v hv => decide_eq_true ?_
  exact Nat.lt_succ_of_le (h.visible v (List.mem_filter.mp hv).1)

/-- **A scope that is opened and closed leaves no trace.** -/
theorem leave_enter (h : s.Tidy) : s.enter.leave = s := by
  have hfilter := h.filter_enter fun _ => true
  rw [List.filter_eq_self.mpr fun _ _ => rfl] at hfilter
  have hrestore := h.restore_enter s.visible
  rw [← hfilter] at hrestore
  rw [leave_eq]
  exact congrArg (fun p => Scope.mk p.1 p.2 s.depth) (hrestore.trans (congrArg (·, s.hidden) hfilter))

/-- **After a scope in which one name was declared, that name is in front.** -/
theorem leave_declared (h : s.Tidy) (name : String) (binding : Binding) (span : Span) :
    (s.enter.declared name binding span).leave = s.refresh name := by
  -- the new variable goes, and what is left was there before
  have hfilter : (put s.visible ⟨name, binding, s.depth + 1, span⟩).filter
      (fun v => v.depth < s.depth + 1) = s.visible.filter fun v => v.name ≠ name := by
    rw [put, List.filter_cons_of_neg (by simp)]
    exact h.filter_enter fun v => v.name ≠ name
  cases hs : s.get? name with
  | none =>
    have hrestore := h.restore_enter (s.visible.filter fun v => v.name ≠ name)
    rw [← hfilter] at hrestore
    rw [declared_of_none (by rwa [get?_enter]), leave_eq, Scope.refresh, hs]
    exact congrArg (fun p => Scope.mk p.1 p.2 s.depth) (hrestore.trans (congrArg (·, s.hidden) hfilter))
  | some old =>
    have hle := h.get?_depth hs
    have hname : old.name = name := by
      have := List.find?_some hs
      simpa using this
    have hput : put (s.visible.filter fun v => v.name ≠ name) old =
        old :: s.visible.filter fun v => v.name ≠ name := by
      rw [put, hname, List.filter_filter]
      simp
    have hrestore : Scope.restore (s.depth + 1) ((put s.visible ⟨name, binding, s.depth + 1, span⟩).filter
        (fun v => v.depth < s.depth + 1)) ((s.depth + 1, old) :: s.hidden) =
          (old :: s.visible.filter fun v => v.name ≠ name, s.hidden) := by
      rw [hfilter, Scope.restore, if_pos rfl, hput, h.restore_enter]
    rw [declared_of_outside (by rwa [get?_enter]) (Nat.ne_of_lt (Nat.lt_succ_of_le hle)), leave_eq,
      Scope.refresh, hs]
    exact congrArg (fun p => Scope.mk p.1 p.2 s.depth) hrestore

/-- It does not matter how many scopes were opened around the declaration. -/
theorem leave_leave_declared (h : s.Tidy) (name : String) (binding : Binding) (span : Span) :
    (s.enter.enter.declared name binding span).leave.leave = s.refresh name := by
  rw [h.enter.leave_declared]
  exact (h.refresh name).leave_enter

end Tidy

end Scope

end Recast
