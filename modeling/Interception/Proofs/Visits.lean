import Interception.Proofs.Stacks

namespace Interception.State

variable {H : Host} {l final : Kind} {β : Behaviour H} {n : Nat} {w : World H}

/-- The states before each of the first `n` steps. -/
def visited (β : Behaviour H) : Nat → State H final → List (State H final)
  | 0, _ => []
  | n + 1, s =>
    s :: match s.step β with
      | .running t => visited β n t
      | .finished _ _ => []

def after (β : Behaviour H) (n : Nat) (s : State H final) : State H final :=
  match s.run β n with
  | .running t => t
  | .finished _ _ => s

section

variable {s t u : State H final}

theorem visited_succ (h : s.step β = .running t) (n : Nat) : s.visited β (n + 1) = s :: t.visited β n := by
  simp only [visited, h]

theorem visited_add (h : s.run β n = .running t) (m : Nat) :
    s.visited β (n + m) = s.visited β n ++ t.visited β m := by
  induction n generalizing s with
  | zero =>
    obtain rfl : s = t := Outcome.running.inj h
    rw [Nat.zero_add]
    rfl
  | succ n ih =>
    rw [run] at h
    split at h
    · next u hu => rw [Nat.succ_add, visited_succ hu, visited_succ hu, ih h, List.cons_append]
    · exact absurd h (by simp)

theorem visited_of_finished {r : Except (Panic H) (final.Result H)} (h : s.run β n = .finished w r) (m : Nat) :
    s.visited β (n + m) = s.visited β n := by
  induction n generalizing s with
  | zero => exact absurd h (by simp [run])
  | succ n ih =>
    rw [run] at h
    split at h
    · next u hu => rw [Nat.succ_add, visited_succ hu, visited_succ hu, ih h]
    · next w' r' hend => rw [Nat.succ_add, visited, visited, hend]

theorem visited_of_run {r : Except (Panic H) (final.Result H)} (h : s.run β n = .finished w r) :
    ∃ m, s.run β m = .running (returning w .nil r) ∧ s.visited β n = s.visited β m ++ [returning w .nil r] := by
  induction n generalizing s with
  | zero => exact absurd h (by simp [run])
  | succ n ih =>
    rw [run] at h
    split at h
    · next u hu =>
      obtain ⟨m, hm, hvisited⟩ := ih h
      exact ⟨m + 1, (run_succ hu m).trans hm, by rw [visited_succ hu, visited_succ hu, hvisited, List.cons_append]⟩
    · next w' r' hend =>
      obtain ⟨rfl, rfl⟩ := Outcome.finished.inj h
      obtain rfl := eq_returning_of_step hend
      refine ⟨0, rfl, ?_⟩
      simp only [visited, hend]
      rfl

theorem visited_returning {r : Except (Panic H) (final.Result H)}
    (hu : u ∈ (returning w .nil r).visited β n) : u = returning w .nil r := by
  cases n with
  | zero => exact absurd hu List.not_mem_nil
  | succ n => cases r <;> exact List.mem_singleton.mp hu

theorem filterMap_cons {α γ : Type} (g : γ → Option α) (a : γ) (as : List γ) :
    (a :: as).filterMap g = (g a).toList ++ as.filterMap g := by
  cases h : g a <;> simp [h]

theorem filterMap_concat {α : Type} (g : State H final → Option α) (past : List (State H final)) (s : State H final) :
    (past ++ [s]).filterMap g = past.filterMap g ++ (g s).toList := by
  cases h : g s <;> simp [List.filterMap_append, h]

theorem reaches_of_visited (hu : u ∈ s.visited β n) : Reaches β s u := by
  induction n generalizing s with
  | zero => exact absurd hu List.not_mem_nil
  | succ n ih =>
    rw [visited] at hu
    rcases List.mem_cons.mp hu with rfl | hrest
    · exact .refl
    · cases hs : s.step β with
      | running t =>
        rw [hs] at hrest
        exact (Reaches.step hs).trans (ih hrest)
      | finished w r =>
        rw [hs] at hrest
        exact absurd hrest List.not_mem_nil

theorem visited_of_reaches {r : Except (Panic H) (final.Result H)} (hn : s.run β n = .finished w r)
    (hu : Reaches β s u) : u ∈ s.visited β n := by
  obtain ⟨m, hm⟩ := hu
  have hfirst : u ∈ u.visited β (n + 1) := List.mem_cons_self
  have hlater : u ∈ s.visited β (m + (n + 1)) := by
    rw [visited_add hm]
    exact List.mem_append_right _ hfirst
  rwa [Nat.add_left_comm, visited_of_finished hn] at hlater

section

variable {I : List (State H final) → State H final → Prop} {P : State H final → Prop}
  (hI : ∀ past s t, P s → s.step β = .running t → I past s → I (past ++ [s]) t)

include hI

theorem visited_induct_from (hP : ∀ u ∈ s.visited β n, P u) (hn : s.run β n = .running t)
    {past : List (State H final)} (hs : I past s) : I (past ++ s.visited β n) t := by
  induction n generalizing s past with
  | zero =>
    obtain rfl : s = t := Outcome.running.inj hn
    rwa [visited, List.append_nil]
  | succ n ih =>
    rw [run] at hn
    split at hn
    · next u hu =>
      rw [visited_succ hu] at hP ⊢
      rw [List.append_cons]
      have hfirst := hI past s u (hP s List.mem_cons_self) hu hs
      exact ih (fun v hv => hP v (List.mem_cons_of_mem _ hv)) hn hfirst
    · exact absurd hn (by simp)

theorem visited_induct (hP : ∀ u ∈ s.visited β n, P u) (hn : s.run β n = .running t) (hs : I [] s) :
    I (s.visited β n) t := visited_induct_from hI hP hn hs

end

end

theorem visited_under {s t : State H l} (h : s.run β n = .running t) (rest : Stack H l final) :
    (s.under rest).visited β n = (s.visited β n).map (·.under rest) := by
  induction n generalizing s with
  | zero => rfl
  | succ n ih =>
    rw [run] at h
    split at h
    · next u hu => rw [visited_succ (step_under hu rest), visited_succ hu, List.map_cons, ih h]
    · exact absurd h (by simp)

end Interception.State
