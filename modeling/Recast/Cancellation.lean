/-
# Cancellation

A caller keeps a handle by which it can ask the work to stop.  Handles can be shared: a request
through one handle is seen through every handle that shares its signal.

* `Cancellation` keeps the signals and the handles;
* `CancelPoint` says when a caller of a fix asks: never, or once the semantic model has answered
  so many questions.
-/
import Recast.Error

namespace Recast

/-- The signals, each raised or not, and for each handle the signal it belongs to. -/
structure Cancellation where
  raised : List Bool
  handles : List Nat
  deriving DecidableEq

namespace Cancellation

/-- No handle yet. -/
def empty : Cancellation := ⟨[], []⟩

/-- One more handle, with a signal of its own. -/
def fresh (c : Cancellation) : Cancellation :=
  ⟨c.raised ++ [false], c.handles ++ [c.raised.length]⟩

/-- One more handle, for the signal of the handle `h`. -/
def share (c : Cancellation) (h : Nat) : Cancellation :=
  { c with handles := c.handles ++ (c.handles[h]?).toList }

/-- Raise the signal of a handle. -/
def cancel (c : Cancellation) (h : Nat) : Cancellation :=
  match c.handles[h]? with
  | some signal => { c with raised := c.raised.set signal true }
  | none => c

/-- Whether the signal of a handle is raised. -/
def isCancelled (c : Cancellation) (h : Nat) : Bool :=
  (c.handles[h]?.bind fun signal => c.raised[signal]?).getD false

/-- Fails once the signal of a handle is raised. -/
def check (c : Cancellation) (h : Nat) : Except FixError Unit :=
  if c.isCancelled h then .error .cancelled else .ok ()

end Cancellation

/-- When the caller of a fix asks it to stop. -/
inductive CancelPoint where
  | never
  /-- Once the model has answered this many questions. -/
  | afterQueries (count : Nat)
  deriving DecidableEq

/-- Whether the caller has asked to stop by the time so many questions are answered. -/
def CancelPoint.reached : CancelPoint → Nat → Bool
  | never, _ => false
  | afterQueries count, answered => count ≤ answered

end Recast
