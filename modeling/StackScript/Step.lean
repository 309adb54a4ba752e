import StackScript.Fault

/-!
# Steps

A step changes a state and yields a value or a fault.  It hands back the state in either case: what
a sequence of steps did before a fault stays done.
-/

namespace StackScript

/-- A computation that reads and changes a state and may stop for a fault.  A fault keeps the state as
well. -/
def Step (σ α : Type) : Type := σ → Except Fault α × σ

namespace Step

/-- Yields a value and leaves the state alone. -/
@[always_inline, inline]
protected def pure (a : α) : Step σ α := fun s => (.ok a, s)

/-- One computation after the other; the second is not run behind a fault. -/
@[always_inline, inline]
protected def bind (x : Step σ α) (f : α → Step σ β) : Step σ β := fun s =>
  match x s with
  | (.ok a, s) => f a s
  | (.error e, s) => (.error e, s)

/-- Sequencing passes the state on and stops at the first fault. -/
instance : Monad (Step σ) where
  pure := Step.pure
  bind := Step.bind

/-- The result and the state behind it. -/
@[always_inline, inline]
def run (x : Step σ α) (s : σ) : Except Fault α × σ := x s

/-- Stops. -/
def fail (f : Fault) : Step σ α := fun s => (.error f, s)

/-- Something read off the state. -/
@[always_inline, inline]
def view (f : σ → α) : Step σ α := fun s => (.ok (f s), s)

/-- Something read off the state that may not be there. -/
@[always_inline, inline]
def check (f : σ → Except Fault α) : Step σ α := fun s => (f s, s)

/-- Changes the state. -/
@[always_inline, inline]
def update (f : σ → σ) : Step σ Unit := fun s => (.ok (), f s)

end Step

end StackScript
