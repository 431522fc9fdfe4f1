import Interception.Machine

namespace Interception

variable {H : Host} {k final : Kind} {β : Behaviour H}

def Task.ofResult : Except (Panic H) (k.Result H) → Task H k
  | .ok a => .answer a
  | .error p => .unwind p

namespace State

variable {s t u : State H final} {w w' : World H} {r r' : Except (Panic H) (final.Result H)}

def returning (w : World H) (stack : Stack H k final) (r : Except (Panic H) (k.Result H)) : State H final :=
  ⟨w, k, stack, .ofResult r⟩

def Reaches (β : Behaviour H) (s t : State H final) : Prop := ∃ n, s.run β n = .running t

def Finishes (β : Behaviour H) (s : State H final) (w : World H) (r : Except (Panic H) (final.Result H)) : Prop :=
  ∃ n, s.run β n = .finished w r

/-- The two runs return the same, or panic with the same, or neither of them ends. -/
def SameOutcome (β : Behaviour H) (s t : State H final) : Prop :=
  ∀ r, (∃ w, Finishes β s w r) ↔ ∃ w, Finishes β t w r

theorem run_succ (h : s.step β = .running t) (n : Nat) : s.run β (n + 1) = t.run β n := by
  simp only [run, h]

theorem run_add {n : Nat} (h : s.run β n = .running t) (n' : Nat) : s.run β (n + n') = t.run β n' := by
  induction n generalizing s with
  | zero =>
    obtain rfl : s = t := Outcome.running.inj h
    rw [Nat.zero_add]
  | succ n ih =>
    rw [run] at h
    rw [Nat.succ_add, run]
    split at h
    · exact ih h
    · exact absurd h (by simp)

theorem run_mono {n n' : Nat} (h : s.run β n = .finished w r) (hn : n ≤ n') : s.run β n' = .finished w r := by
  induction n generalizing s n' with
  | zero => exact absurd h (by simp [run])
  | succ n ih =>
    obtain ⟨n', rfl⟩ : ∃ j, n' = j + 1 := ⟨n' - 1, by omega⟩
    rw [run] at h ⊢
    split at h
    · exact ih h (by omega)
    · exact h

theorem Finishes.unique (h : Finishes β s w r) (h' : Finishes β s w' r') : w = w' ∧ r = r' := by
  obtain ⟨n, hn⟩ := h
  obtain ⟨n', hn'⟩ := h'
  have hl := run_mono hn (Nat.le_max_left n n')
  have hr := run_mono hn' (Nat.le_max_right n n')
  exact Outcome.finished.inj (hl.symm.trans hr)

theorem Finishes.sameOutcome (h : Finishes β s w r) (h' : Finishes β t w' r) : SameOutcome β s t := by
  intro q
  constructor
  · rintro ⟨_, hq⟩
    obtain ⟨-, rfl⟩ := h.unique hq
    exact ⟨w', h'⟩
  · rintro ⟨_, hq⟩
    obtain ⟨-, rfl⟩ := h'.unique hq
    exact ⟨w, h⟩

theorem Reaches.refl : Reaches β s s := ⟨0, rfl⟩

theorem Reaches.step (h : s.step β = .running t) : Reaches β s t := ⟨1, run_succ h 0⟩

theorem Reaches.trans (h : Reaches β s t) (h' : Reaches β t u) : Reaches β s u := by
  obtain ⟨n, hn⟩ := h
  obtain ⟨n', hn'⟩ := h'
  exact ⟨n + n', (run_add hn n').trans hn'⟩

theorem Reaches.finishes (h : Reaches β s t) (ht : Finishes β t w r) : Finishes β s w r := by
  obtain ⟨n, hn⟩ := h
  obtain ⟨n', hn'⟩ := ht
  exact ⟨n + n', (run_add hn n').trans hn'⟩

theorem Reaches.finishes_iff (h : Reaches β s t) : Finishes β s w r ↔ Finishes β t w r := by
  refine ⟨fun hs => ?_, h.finishes⟩
  obtain ⟨n, hn⟩ := h
  obtain ⟨n', hn'⟩ := hs
  exact ⟨n', (run_add hn n').symm.trans (run_mono hn' (Nat.le_add_left n' n))⟩

theorem Reaches.induct {I : State H final → Prop} (hI : ∀ s t, s.step β = .running t → I s → I t)
    (h : Reaches β s t) (hs : I s) : I t := by
  obtain ⟨n, hn⟩ := h
  induction n generalizing s with
  | zero => exact Outcome.running.inj hn ▸ hs
  | succ n ih =>
    rw [run] at hn
    split at hn
    · next t' ht' => exact ih (hI s t' ht' hs) hn
    · exact absurd hn (by simp)

theorem Reaches.eq_or_last (h : Reaches β s t) : t = s ∨ ∃ u, Reaches β s u ∧ u.step β = .running t := by
  suffices hlast : Reaches β s t ∧ (t = s ∨ ∃ u, Reaches β s u ∧ u.step β = .running t) from hlast.2
  refine h.induct (I := fun t => Reaches β s t ∧ (t = s ∨ ∃ u, Reaches β s u ∧ u.step β = .running t)) ?_
    ⟨.refl, .inl rfl⟩
  rintro u v huv ⟨hu, -⟩
  exact ⟨hu.trans (.step huv), .inr ⟨u, hu, huv⟩⟩

theorem step_returning (w : World H) (r : Except (Panic H) (final.Result H)) :
    (returning w .nil r).step β = .finished w r := by
  cases r <;> rfl

theorem finishes_returning : Finishes β (returning w .nil r) w r := by
  refine ⟨1, ?_⟩
  rw [run, step_returning]

theorem run_returning {n : Nat} (h : (returning w .nil r).run β n = .finished w' r') : w' = w ∧ r' = r :=
  Finishes.unique ⟨n, h⟩ finishes_returning

theorem eq_returning_of_step (h : s.step β = .finished w r) : s = returning w .nil r := by
  obtain ⟨w₀, k₀, stack, task⟩ := s
  cases task with
  | request q => simp [State.step] at h
  | script p => simp [State.step] at h
  | run e a => simp [State.step] at h
  | answer a =>
    cases stack with
    | nil =>
      obtain ⟨rfl, rfl⟩ := Outcome.finished.inj h
      rfl
    | cons p rest => simp [State.step] at h
  | unwind p =>
    cases stack with
    | nil =>
      obtain ⟨rfl, rfl⟩ := Outcome.finished.inj h
      rfl
    | cons p rest => simp [State.step] at h

theorem Finishes.reaches (h : Finishes β s w r) : Reaches β s (returning w .nil r) := by
  obtain ⟨n, hn⟩ := h
  induction n generalizing s with
  | zero => exact absurd hn (by simp [run])
  | succ n ih =>
    rw [run] at hn
    split at hn
    · next t ht => exact (Reaches.step ht).trans (ih hn)
    · next w₀ r₀ ht =>
      obtain ⟨rfl, rfl⟩ := Outcome.finished.inj hn
      exact eq_returning_of_step ht ▸ .refl

theorem reaches_dispatch {h : HandlerId} {d : Dispatch} (hh : w.handler h = .dispatch d) (f : Frame) :
    Reaches β (ofRequest w (.decide (.active h) f)) (ofRequest w (.dispatch d f)) := by
  refine .step ?_
  simp only [ofRequest, State.step, begin, hh]

end State

end Interception
