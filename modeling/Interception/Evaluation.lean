import Interception.Machine

namespace Interception.Evaluation

abbrev host : Host := ⟨Unit, Empty, Empty, Empty, Empty, Empty, Empty, Empty⟩

def behaviour : Behaviour host := ⟨nofun, nofun, nofun, nofun⟩

def evaluator : EvaluatorId := ⟨0⟩

def world (program : Program) (maxDepth : Nat) : World host :=
  { World.empty none () with evaluators := ⟨#[{ program, slot := .thread, maxDepth }]⟩ }

structure Answer where
  result : Except EvalError Value
  frames : Nat

def calls? (fuel : Nat) (w : World host) :
    List (UInt32 × List Value) → Option (Except (Panic host) (List Answer))
  | [] => some (.ok [])
  | (function, args) :: rest =>
    match (State.ofRequest w (.evaluate evaluator function args.toArray)).run behaviour fuel with
    | .finished w (.ok result) =>
      let answer : Answer := ⟨result, (w.evaluator evaluator).usage.frames⟩
      (calls? fuel w rest).map fun answers => answers.map (answer :: ·)
    | .finished _ (.error panic) => some (.error panic)
    | .running _ => none

end Interception.Evaluation
