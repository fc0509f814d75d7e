/-!
# Steps and runs

A machine is a total function from states to transitions. A run follows it for a number
of steps that is given beforehand; running out of them is told apart from every way in
which the machine itself can end.
-/
namespace StackCode

/-- What a step leads to. -/
inductive Transition (σ : Type) where
  | goes (s : σ)
  /-- the program returned to where it was entered from -/
  | returned (s : σ)
  /-- the program ended the process -/
  | halted (s : σ)
  /-- the program did what has no meaning -/
  | stuck
deriving DecidableEq, Repr

/-- How a run ended. -/
inductive Ending (σ : Type) where
  | returned (s : σ)
  | halted (s : σ)
  | stuck
  /-- the allowed number of steps was not enough -/
  | unfinished
deriving DecidableEq, Repr

namespace Ending

/-- Runs for at most `fuel` steps. -/
@[specialize] def run {σ : Type} (step : σ → Transition σ) : Nat → σ → Ending σ
  | 0, _ => .unfinished
  | fuel + 1, s =>
      match step s with
      | .goes s => run step fuel s
      | .returned s => .returned s
      | .halted s => .halted s
      | .stuck => .stuck

end Ending
end StackCode
