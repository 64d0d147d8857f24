/-
# Recursion with a bound

A recursion that cannot be seen to end is cut off after a number of steps.  That the cut does not show
is said by comparing two runs with anything in its place: `P n x y` says that `x` and `y` do the same
on everything of size at most `n`, and a step that only goes on with less carries this from smaller
sizes to `n`.

* `iterate_agree`: what stands at the bottom of many steps does not matter;
* `Settles`: the recursion has a result that is its own step, and many steps from anywhere lead to it.
-/
import Mathlib.Logic.Function.Iterate

namespace Recast

variable {β : Type} {P : Nat → β → β → Prop} {step step' : β → β}

/-- **If a step goes on with less only, what stands at the bottom of many steps does not matter.** -/
theorem iterate_agree (hstep : ∀ {n x y}, (∀ k < n, P k x y) → P n (step x) (step' y)) :
    ∀ {m m' n : Nat}, n < m → n < m' → ∀ x y, P n (step^[m] x) (step'^[m'] y)
  | 0, _, _, h, _, _, _ => absurd h (Nat.not_lt_zero _)
  | _, 0, _, _, h, _, _ => absurd h (Nat.not_lt_zero _)
  | m + 1, m' + 1, n, h, h', x, y => by
    rw [Function.iterate_succ_apply', Function.iterate_succ_apply']
    refine hstep fun k hk => ?_
    exact iterate_agree hstep (Nat.lt_of_lt_of_le hk (Nat.le_of_lt_succ h))
      (Nat.lt_of_lt_of_le hk (Nat.le_of_lt_succ h')) x y

/-- The recursion `x = step x` comes to an end: after more steps than the size of what it is asked its
result is `x`, whatever is answered at the bottom of the steps. -/
structure Settles (P : Nat → β → β → Prop) (step : β → β) (x : β) : Prop where
  unfolds : ∀ n, P n (step x) x
  ends : ∀ n m, n < m → ∀ bottom, P n (step^[m] bottom) x

theorem Settles.of_step (hsymm : ∀ {n x y}, P n x y → P n y x)
    (htrans : ∀ {n x y z}, P n x y → P n y z → P n x z)
    (hstep : ∀ {n x y}, (∀ k < n, P k x y) → P n (step x) (step y)) {x : β} (bottom : β)
    (hx : ∀ n, P n (step^[n + 1] bottom) x) : Settles P step x := by
  have hends : ∀ n m, n < m → ∀ y, P n (step^[m] y) x := fun n m hm y =>
    htrans (iterate_agree hstep hm (Nat.lt_succ_self n) y bottom) (hx n)
  refine ⟨fun n => ?_, hends⟩
  have hdown : P n (step x) (step (step^[n] x)) := hstep fun k hk => hsymm (hends k n hk x)
  rw [← Function.iterate_succ_apply' step n x] at hdown
  exact htrans hdown (hends n (n + 1) (Nat.lt_succ_self n) x)

end Recast
