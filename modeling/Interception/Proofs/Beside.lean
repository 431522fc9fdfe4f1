import Interception.Proofs.Ahead

namespace Interception

variable {H : Host}

def Scope.Entered (i : Nat) (scope : Scope) (d : Hook) (j : Nat) (a b : Scope) : Prop :=
  if j = i then a = scope ∧ b = { scope with displaced := some d } else a = b

namespace Scope

variable {i j : Nat} {scope a b : Scope} {d : Hook}

theorem entered_self : Entered i scope d i a b ↔ a = scope ∧ b = { scope with displaced := some d } :=
  iff_of_eq (if_pos rfl)

theorem entered_ne (hj : j ≠ i) : Entered i scope d j a b ↔ a = b := iff_of_eq (if_neg hj)

end Scope

namespace Table.Related

open Scope

variable {i : Nat} {scope : Scope} {d : Hook} {t u : Table Scope}

theorem of_set (hi : i < t.cells.size) (ht : t.get i = scope) :
    t.Related (Entered i scope d) (t.set i { scope with displaced := some d }) := by
  refine ⟨?_, fun j => ?_, fun j hj a => (entered_ne (by omega)).mpr rfl⟩
  · rw [size_set]
    omega
  · by_cases hj : j = i
    · subst hj
      exact entered_self.mpr ⟨ht, get_set_self ..⟩
    · exact (entered_ne hj).mpr (get_set_ne _ _ (Ne.symm hj)).symm

theorem closed (h : t.Related (Entered i scope d) u) (hidle : scope.displaced = none) : u.set i scope = t := by
  have hi : i < t.cells.size := by
    by_cases hi : i < t.cells.size
    · exact hi
    · have hactive := (entered_self.mp (h.fresh i (by omega) scope)).2
      cases hidle.symm.trans (congrArg Scope.displaced hactive)
  refine ext_get ?_ fun j => ?_
  · rw [size_set, h.size]
    omega
  · have hj := h.get j
    by_cases hij : j = i
    · subst hij
      rw [get_set_self, (entered_self.mp hj).1]
    · rw [get_set_ne _ _ (Ne.symm hij), (entered_ne hij).mp hj]

end Table.Related

def World.Beside (s : ScopeId) (scope : Scope) (d : Hook) (past past' : Journal H.Note) : World H → World H → Prop :=
  Differs { past, past', scopes := Scope.Entered s.index scope d }

def View.besides (s : ScopeId) (past past' : Journal H.Note) : View H where
  allows
    | .enter t | .exit t | .drop t | .scope t => t ≠ s
    | .journalFrom start => past'.toList.drop start = past.toList.drop start
    | _ => True
  same _ a a' := a = a'

namespace World

def said (w : World H) (message : Message) : Journal H.Note :=
  if w.threshold.admits .trace then #[.record ⟨.trace, message⟩] else #[]

theorem log_trace (w : World H) (message : Message) :
    w.log .trace message = { w with journal := w.journal ++ w.said message } := by
  rw [log, said]
  split
  · rfl
  · rw [Array.append_empty]

theorem size_said (w : World H) (message message' : Message) : (w.said message).size = (w.said message').size := by
  rw [said, said]
  split <;> rfl

theorem openGuard_eq (w : World H) (r : SlotId) (hook : Hook) :
    w.openGuard r hook =
      { w.install r hook with journal := w.journal ++ w.said (.scopeOpened (w.slot r)) } := log_trace ..

theorem closeGuard_eq (w : World H) (r : SlotId) (hook : Hook) :
    w.closeGuard r hook = { w.install r hook with journal := w.journal ++ w.said (.scopeClosed hook) } := by
  rw [closeGuard, log_trace]
  rfl

abbrev guarded (w : World H) (s : ScopeId) : World H := w.openGuard (w.scope s).slot (w.scope s).hook

variable {s : ScopeId} {scope : Scope} {d : Hook} {past past' : Journal H.Note} {w v : World H}

theorem enter_eq (hs : (w.scope s).displaced = none) :
    (w.enter s).2 =
      { w.install (w.scope s).slot (w.scope s).hook with
        scopes := w.scopes.set s.index { w.scope s with displaced := some (w.slot (w.scope s).slot) }
        journal := w.journal ++ w.said (.scopeEntered (w.slot (w.scope s).slot)) } := by
  simp only [enter, hs]
  rw [log_trace]
  rfl

theorem exit_eq (hs : (w.scope s).displaced = some d) :
    (w.exit s).2 =
      { w.install (w.scope s).slot d with
        scopes := w.scopes.set s.index { w.scope s with displaced := none }
        journal := w.journal ++ w.said (.scopeExited d) } := by
  simp only [exit, hs]
  rw [log_trace]
  rfl

theorem beside_enter (hs : s.index < w.scopes.cells.size) (hidle : (w.scope s).displaced = none) :
    (w.guarded s).Beside s (w.scope s) (w.slot (w.scope s).slot) (w.guarded s).journal (w.enter s).2.journal
      (w.enter s).2 := by
  let scopes := w.scopes.set s.index { w.scope s with displaced := some (w.slot (w.scope s).slot) }
  -- behind either record, nothing has been logged yet
  have hguarded : w.guarded s = _ := openGuard_eq ..
  have hscopes : (w.guarded s).scopes = w.scopes := by rw [hguarded]; rfl
  have hentered : (w.enter s).2 = { w.guarded s with scopes, journal := (w.enter s).2.journal ++ #[] } := by
    rw [Array.append_empty, enter_eq hidle, hguarded]
  have htables : (w.guarded s).scopes.Related (Scope.Entered s.index (w.scope s) (w.slot (w.scope s).slot)) scopes := by
    rw [hscopes]
    exact .of_set hs rfl
  have hbeside : (w.guarded s).Beside s (w.scope s) (w.slot (w.scope s).slot) (w.guarded s).journal
      (w.enter s).2.journal { w.guarded s with scopes, journal := (w.enter s).2.journal ++ #[] } :=
    .mk (Table.Ahead.refl _) htables (by rw [Array.append_empty])
  rwa [← hentered] at hbeside

theorem Beside.exit_self (h : w.Beside s scope d past past' v) (hidle : scope.displaced = none) :
    ∃ j, w.journal = past ++ j ∧
      (v.exit s).2 = { w.closeGuard scope.slot d with journal := past' ++ j ++ w.said (.scopeExited d) } := by
  cases h with
  | @mk evaluators scopes j he hs hj =>
    refine ⟨j, hj, ?_⟩
    have hsame : w.evaluators = evaluators := Table.Ahead.eq he
    have hactive : World.scope { w with evaluators, scopes, journal := past' ++ j } s =
        { scope with displaced := some d } := (Scope.entered_self.mp (hs.get s.index)).2
    have hscope : { scope with displaced := none } = scope := by rw [← hidle]
    rw [exit_eq (congrArg Scope.displaced hactive), hactive, closeGuard_eq]
    simp only [hscope, hs.closed hidle, ← hsame]
    rfl

theorem journal_guarded (w : World H) (s : ScopeId) :
    (w.guarded s).journal = w.journal ++ w.said (.scopeOpened (w.slot (w.scope s).slot)) :=
  congrArg journal (openGuard_eq ..)

theorem journal_enter (hidle : (w.scope s).displaced = none) :
    (w.enter s).2.journal = w.journal ++ w.said (.scopeEntered (w.slot (w.scope s).slot)) :=
  congrArg journal (enter_eq hidle)

theorem size_journal_enter (hidle : (w.scope s).displaced = none) :
    (w.enter s).2.journal.size = (w.guarded s).journal.size := by
  rw [journal_enter hidle, journal_guarded, Array.size_append, Array.size_append, size_said]

theorem Beside.restored {w₁ v₁ : World H} (hidle : (w.scope s).displaced = none)
    (h : w₁.Beside s (w.scope s) (w.slot (w.scope s).slot) (w.guarded s).journal (w.enter s).2.journal v₁)
    (ht : w₁.threshold = w.threshold) :
    let displaced := w.slot (w.scope s).slot
    ∃ j, (w₁.closeGuard (w.scope s).slot displaced).journal =
        w.journal ++ w.said (.scopeOpened displaced) ++ j ++ w.said (.scopeClosed displaced) ∧
      (v₁.exit s).2 = { w₁.closeGuard (w.scope s).slot displaced with
        journal := w.journal ++ w.said (.scopeEntered displaced) ++ j ++ w.said (.scopeExited displaced) } := by
  intro displaced
  obtain ⟨j, hj, hexit⟩ := h.exit_self hidle
  have hsaid (message : Message) : w₁.said message = w.said message := by rw [said, said, ht]
  refine ⟨j, ?_, ?_⟩
  · rw [closeGuard_eq, hj, journal_guarded, hsaid]
  · rw [hexit, journal_enter hidle, hsaid]

end World

theorem View.besides_keeps (s : ScopeId) (scope : Scope) (d : Hook) {past past' : Journal H.Note}
    (hsize : past'.size = past.size) : (View.besides s past past').Keeps (World.Beside s scope d past past') := by
  let D : Difference H := { past, past', scopes := Scope.Entered s.index scope d }
  have hspares {t : ScopeId} (ht : t ≠ s) : D.Spares t := fun _ _ => Scope.entered_ne (ScopeId.index_ne ht)
  refine D.view_keeps.coarsen (fun c hc => ?_) fun c a a' haa' => ?_
  · cases c with
    | enter | exit | drop | scope => exact hspares hc
    | journalFrom => exact ⟨hsize, hc⟩
    | journalSize => exact hsize
    | _ => trivial
  · cases c with
    | usage e =>
      have hcounted : a' = a := haa'
      exact hcounted.symm
    | _ => exact haa'

end Interception
