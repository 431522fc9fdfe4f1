import Interception.Proofs.Actions
import Interception.Proofs.Jobs

namespace Interception

theorem Program.mem_of_function? {p : Program} {index : UInt32} {code : Code} (h : p.function? index = some code) :
    code ∈ p.functions := Array.mem_of_getElem? h

theorem Frame.of_make? {code : Code} {args : Array Value} {depth : Nat} {f : Frame}
    (h : Frame.make? code args depth = some f) : f.code = code ∧ f.depth = depth := by
  rw [Frame.make?] at h
  split at h
  · cases h
    exact ⟨rfl, rfl⟩
  · cases h

namespace Activation

def origin (a : Activation) : Code × Nat := (a.code, a.depth)

end Activation

def Progress.Continues (p : Program) (origin : Code × Nat) : Progress → Prop
  | .running b => b.origin = origin
  | .calling b callee => b.origin = origin ∧ callee.code ∈ p.functions ∧ callee.depth = origin.2 + 1
  | .stranded | .finished _ => True

namespace Activation

variable {p : Program} {a : Activation} {next : Nat} {g : Progress}

theorem execute_continues {i : Instruction} (h : a.execute p i next = .ok g) : g.Continues p a.origin := by
  cases executes h with
  | proceeds | jumps => rfl
  | calls _ hcode _ hcallee =>
    obtain ⟨hc, hd⟩ := Frame.of_make? hcallee
    exact ⟨rfl, hc ▸ Program.mem_of_function? hcode, hd⟩
  | strands | returns => trivial

theorem step_continues (p : Program) (a : Activation) : (a.step p).Continues p a.origin := by
  rw [step]
  cases h : a.advance p with
  | error cause => trivial
  | ok g =>
    rw [advance] at h
    split at h
    · split at h
      · exact execute_continues h
      · cases h
    · cases h

end Activation

namespace Job

variable {p : Program} {maxDepth : Nat} {a caller : Activation} {callee : Frame} {job : Job}

theorem of_body_becomes (hm : (body a).move p maxDepth = .becomes job) :
    ∃ b, job = .body b ∧ b.origin = a.origin := by
  have ha := a.step_continues p
  rw [move] at hm
  split at hm
  · next b hb =>
    cases hm
    rw [hb] at ha
    exact ⟨b, rfl, ha⟩
  all_goals cases hm

theorem of_body_calls (hm : (body a).move p maxDepth = .calls caller callee) :
    caller.origin = a.origin ∧ callee.code ∈ p.functions ∧ callee.depth = a.depth + 1 := by
  have ha := a.step_continues p
  obtain ⟨b, hb, hstep⟩ := calls_iff.mp hm
  cases hb
  rw [hstep] at ha
  exact ha

end Job

def EvalError.Own : EvalError → Prop
  | hook _ => False
  | _ => True

def Progress.Own : Progress → Prop
  | .finished (.error cause) => cause.Own
  | _ => True

theorem EvalError.Arises.own {a : Activation} {cause : EvalError} (h : cause.Arises a) : cause.Own := by
  cases cause with
  | hook cause => exact h.elim
  | _ => trivial

theorem Activation.step_own (a : Activation) (p : Program) : (a.step p).Own := by
  cases h : a.step p with
  | finished r =>
    cases r with
    | ok v => trivial
    | error cause =>
      rcases step_error h with ⟨-, rfl⟩ | ⟨-, fault, -, rfl⟩ | ⟨i, -, harises⟩
      · trivial
      · cases fault <;> trivial
      · exact harises.own
  | _ => trivial

theorem Job.ends_own {p : Program} {maxDepth : Nat} {job : Job} {cause : EvalError}
    (hm : job.move p maxDepth = .ends (.result (.error cause))) : cause.Own := by
  cases job with
  | call function args =>
    rw [move] at hm
    split at hm
    · cases hm
      trivial
    · split at hm
      · split at hm <;> cases hm
      · cases hm
        trivial
  | frame f =>
    rw [move] at hm
    split at hm <;> cases hm
    trivial
  | body a =>
    have ha := a.step_own p
    rw [move] at hm
    split at hm
    · cases hm
    · cases hm
    · cases hm
    · next r hr =>
      cases hm
      rw [hr] at ha
      exact ha

end Interception
