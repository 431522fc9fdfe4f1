import Interception.Proofs.Steps

namespace Interception

variable {H : Host} {l final : Kind} {β : Behaviour H} {w : World H}

def Stack.append : {k : Kind} → Stack H k l → Stack H l final → Stack H k final
  | _, .nil, rest => rest
  | _, .cons p stack, rest => .cons p (stack.append rest)

namespace State

def under (s : State H l) (rest : Stack H l final) : State H final :=
  ⟨s.world, s.kind, s.stack.append rest, s.task⟩

theorem Step.under {s t : State H l} (h : Step β s t) (rest : Stack H l final) :
    Step β (s.under rest) (t.under rest) := by
  cases h with
  | turn h => exact .turn h
  | push h => exact .push h
  | offer hlimit hs => exact .offer hlimit hs
  | pop h => exact .pop h

theorem step_under {s t : State H l} (h : s.step β = .running t) (rest : Stack H l final) :
    (s.under rest).step β = .running (t.under rest) := step_iff.mpr ((step_iff.mp h).under rest)

theorem run_running_under {s t : State H l} {n : Nat} (h : s.run β n = .running t) (rest : Stack H l final) :
    (s.under rest).run β n = .running (t.under rest) := by
  induction n generalizing s with
  | zero =>
    obtain rfl : s = t := Outcome.running.inj h
    rfl
  | succ n ih =>
    rw [run] at h
    split at h
    · next u hu =>
      rw [run_succ (step_under hu rest)]
      exact ih h
    · exact absurd h (by simp)

theorem Reaches.under {s t : State H l} (h : Reaches β s t) (rest : Stack H l final) :
    Reaches β (s.under rest) (t.under rest) := by
  obtain ⟨n, hn⟩ := h
  exact ⟨n, run_running_under hn rest⟩

theorem Finishes.under {s : State H l} {r : Except (Panic H) (l.Result H)} (h : Finishes β s w r)
    (rest : Stack H l final) : Reaches β (s.under rest) (returning w rest r) :=
  h.reaches.under rest

theorem run_under {s : State H l} {rest : Stack H l final} {r : Except (Panic H) (final.Result H)} {n : Nat}
    (h : (s.under rest).run β n = .finished w r) :
    ∃ m w₁ r₁, m < n ∧ s.run β (m + 1) = .finished w₁ r₁ ∧
      (returning w₁ rest r₁).run β (n - m) = .finished w r := by
  -- the task ends first, and at least one step is left for the stack
  induction n generalizing s with
  | zero => exact absurd h (by simp [run])
  | succ n ih =>
    cases hs : s.step β with
    | running t =>
      rw [run_succ (step_under hs rest)] at h
      obtain ⟨m, w₁, r₁, hm, hrun, hrest⟩ := ih h
      refine ⟨m + 1, w₁, r₁, by omega, (run_succ hs _).trans hrun, ?_⟩
      rwa [Nat.succ_sub_succ]
    | finished w₁ r₁ =>
      refine ⟨0, w₁, r₁, by omega, by simp only [run, hs], ?_⟩
      rw [eq_returning_of_step hs] at h
      exact h

theorem finishes_under_iff {s : State H l} {rest : Stack H l final} {r : Except (Panic H) (final.Result H)} :
    Finishes β (s.under rest) w r ↔
      ∃ w₁ r₁, Finishes β s w₁ r₁ ∧ Finishes β (returning w₁ rest r₁) w r := by
  constructor
  · rintro ⟨n, hn⟩
    obtain ⟨m, w₁, r₁, -, hrun, hrest⟩ := run_under hn
    exact ⟨w₁, r₁, ⟨_, hrun⟩, _, hrest⟩
  · rintro ⟨w₁, r₁, hs, hrest⟩
    exact (hs.under rest).finishes hrest

end State

end Interception
