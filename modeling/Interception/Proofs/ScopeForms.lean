import Interception.Proofs.Accounts
import Interception.Proofs.Beside
import Interception.Proofs.Disabling

namespace Interception

variable {H : Host} {final : Kind} {β : Behaviour H} {w w' : World H} {s : ScopeId} {b : H.Body}
  {r : Except (Panic H) H.Report}

open State

namespace Script

def runIn (s : ScopeId) (b : H.Body) : Script H H.Report :=
  .act (.scope s) fun scope => .ask (.within scope.slot scope.hook b) .done

def byHand (s : ScopeId) (b : H.Body) : Script H H.Report :=
  .act (.enter s) fun _ => .ask (.perform b) fun a => .act (.exit s) fun _ => .done a

end Script

def Scope.binding (scope : Scope) : SlotId × Hook := (scope.slot, scope.hook)

namespace World

def KeepsScopes (w w' : World H) : Prop :=
  ∀ s : ScopeId, s.index < w.scopes.cells.size →
    s.index < w'.scopes.cells.size ∧ (w'.scope s).binding = (w.scope s).binding

theorem KeepsScopes.of_eq (h : w'.scopes = w.scopes) : w.KeepsScopes w' :=
  fun s hs => ⟨h ▸ hs, congrArg (fun t => (t.get s.index).binding) h⟩

theorem KeepsScopes.of_set {a : Scope} (h : w'.scopes = w.scopes.set s.index a)
    (ha : a.binding = (w.scope s).binding) : w.KeepsScopes w' := by
  intro t ht
  refine ⟨?_, ?_⟩
  · rw [h, Table.size_set]
    omega
  · rw [scope, h]
    by_cases hst : s = t
    · rw [← hst, Table.get_set_self, ha]
    · rw [Table.get_set_ne _ _ (ScopeId.index_ne hst)]
      rfl

theorem keepsScopes_enter (w : World H) (s : ScopeId) : w.KeepsScopes (w.enter s).2 := by
  cases hs : (w.scope s).displaced with
  | none => exact .of_set (congrArg World.scopes (enter_eq hs)) rfl
  | some d =>
    rw [enter_of_active hs]
    exact .of_eq rfl

theorem keepsScopes_exit (w : World H) (s : ScopeId) : w.KeepsScopes (w.exit s).2 := by
  cases hs : (w.scope s).displaced with
  | none =>
    rw [exit_of_idle hs]
    exact .of_eq rfl
  | some d => exact .of_set (congrArg World.scopes (exit_eq hs)) rfl

theorem scopes_log (w : World H) (level : Level) (message : Message) : (w.log level message).scopes = w.scopes :=
  congrArg Prod.snd (hooks_log ..)

theorem keepsScopes_command (w : World H) (c : Command H) : w.KeepsScopes (c.run w).2 := by
  cases c with
  | enter s => exact keepsScopes_enter w s
  | exit s => exact keepsScopes_exit w s
  | drop s =>
    have hscopes : (w.drop s).scopes = (w.exit s).2.scopes := congrArg Prod.snd (hooks_drop w s)
    intro t ht
    obtain ⟨hsize, hbinding⟩ := keepsScopes_exit w s t ht
    refine ⟨hscopes ▸ hsize, ?_⟩
    rw [← hbinding, scope, scope]
    exact congrArg (fun scopes => (scopes.get t.index).binding) hscopes
  | newScope r hook =>
    intro t ht
    refine ⟨?_, congrArg Scope.binding (Table.get_add_old _ _ (Nat.ne_of_lt ht))⟩
    simp only [Command.run, Table.add, Array.size_push]
    omega
  | invalidate c code =>
    simp only [Command.run]
    cases w.converter c <;> exact .of_eq rfl
  | _ => exact .of_eq rfl

theorem covers_keepsScopes : Covers (H := H) KeepsScopes where
  refl _ := .of_eq rfl
  trans h h' := fun s hs => by
    obtain ⟨hs', hbinding⟩ := h s hs
    obtain ⟨hs'', hbinding'⟩ := h' s hs'
    exact ⟨hs'', hbinding'.trans hbinding⟩
  install _ _ _ := .of_eq rfl
  log w level message := .of_eq (scopes_log w level message)
  setUsage _ _ _ := .of_eq rfl
  recordTally w d event := .of_eq (congrArg Prod.snd (hooks_recordTally w d event))
  lookup _ _ _ _ _ _ _ := .of_eq rfl
  store _ _ _ _ _ _ _ _ := .of_eq rfl
  command := keepsScopes_command

end World

namespace State

def ofScript (w : World H) (p : Script H H.Report) : State H .body := ⟨w, .body, .nil, .script p⟩

def StartsBody (β : Behaviour H) (t : State H .body) (w : World H) (b : H.Body) : Prop :=
  ∃ rest : Stack H .body .body, Reaches β t ((ofRequest w (.perform b)).under rest)

theorem startsBody_within {slot : SlotId} {hook : Hook} :
    StartsBody β (ofRequest w (.within slot hook b)) (w.openGuard slot hook) b := ⟨_, .step rfl⟩

theorem startsBody_runIn :
    StartsBody β (ofScript w (.runIn s b)) (w.openGuard (w.scope s).slot (w.scope s).hook) b :=
  ⟨_, (Reaches.step rfl).trans ((Reaches.step rfl).trans (.step rfl))⟩

theorem startsBody_byHand : StartsBody β (ofScript w (.byHand s b)) (w.enter s).2 b :=
  ⟨_, (Reaches.step rfl).trans (.step rfl)⟩

theorem finishes_runIn_iff :
    Finishes β (ofScript w (.runIn s b)) w' r ↔
      Finishes β (ofRequest w (.within (w.scope s).slot (w.scope s).hook b)) w' r := by
  let rest : Stack H .body .body := .cons (.proceed .done) .nil
  have hask : Reaches β (ofScript w (.runIn s b))
      ((ofRequest w (.within (w.scope s).slot (w.scope s).hook b)).under rest) :=
    (Reaches.step rfl).trans (.step rfl)
  have hrest (w₁ : World H) (r₁ : Except (Panic H) H.Report) :
      Reaches β (returning w₁ rest r₁) (returning (k := .body) w₁ .nil r₁) := by
    cases r₁ with
    | ok a => exact (Reaches.step rfl).trans (.step rfl)
    | error panic => exact .step rfl
  rw [hask.finishes_iff, finishes_under_iff]
  constructor
  · rintro ⟨w₁, r₁, hbody, hfinal⟩
    obtain ⟨rfl, rfl⟩ := ((hrest w₁ r₁).finishes_iff.mp hfinal).unique finishes_returning
    exact hbody
  · exact fun h => ⟨w', r, h, (hrest w' r).finishes finishes_returning⟩

theorem finishes_byHand_iff {a : H.Report} :
    Finishes β (ofScript w (.byHand s b)) w' (.ok a) ↔
      ∃ w₁, Finishes β (ofRequest (w.enter s).2 (.perform b)) w₁ (.ok a) ∧ w' = (w₁.exit s).2 :=
  Disabling.finishes_iff (s := .thread) (d := .scope s)

end State

section

variable (β) (w : World H) (s : ScopeId) (b : H.Body)

def LeavesAlone : Prop :=
  ∀ x, Reaches β (ofRequest (w.guarded s) (.perform b)) x →
    x.Heeds (.besides s (w.guarded s).journal (w.enter s).2.journal)

structure HandDriven : Prop where
  matched : ∀ n, ((ofRequest (w.guarded s) (.perform b)).run β n).Matches
    (World.Beside s (w.scope s) (w.slot (w.scope s).slot) (w.guarded s).journal (w.enter s).2.journal)
    ((ofRequest (w.enter s).2 (.perform b)).run β n)
  events : ∀ n, (ofRequest (w.enter s).2 (.perform b)).events β n =
    (ofRequest (w.guarded s) (.perform b)).events β n
  ends : ∀ {a w'}, Finishes β (ofScript w (.runIn s b)) w' (.ok a) → ∃ j,
    w'.journal = w.journal ++ w.said (.scopeOpened (w.slot (w.scope s).slot)) ++ j ++
      w.said (.scopeClosed (w.slot (w.scope s).slot)) ∧
    Finishes β (ofScript w (.byHand s b)) { w' with
      journal := w.journal ++ w.said (.scopeEntered (w.slot (w.scope s).slot)) ++ j ++
        w.said (.scopeExited (w.slot (w.scope s).slot)) } (.ok a)
  ends_back : ∀ {a v'}, Finishes β (ofScript w (.byHand s b)) v' (.ok a) →
    ∃ w', Finishes β (ofScript w (.runIn s b)) w' (.ok a)

def wrapped (w₀ : World H) : State H .body := ofRequest w (.within (w₀.scope s).slot (w₀.scope s).hook b)

structure FormsAgree (w₀ : World H) : Prop where
  call : ∀ {w' r}, Finishes β (wrapped w s b w₀) w' r ↔ Finishes β (ofScript w (.runIn s b)) w' r
  run_starts : StartsBody β (ofScript w (.runIn s b)) (w.guarded s) b
  call_starts : StartsBody β (wrapped w s b w₀) (w.guarded s) b
  hand_starts : StartsBody β (ofScript w (.byHand s b)) (w.enter s).2 b
  hand : (w.scope s).displaced = none → LeavesAlone β w s b → HandDriven β w s b

end

theorem handDriven (hs : s.index < w.scopes.cells.size) (hidle : (w.scope s).displaced = none)
    (hb : LeavesAlone β w s b) : HandDriven β w s b := by
  -- each form has logged one record, so the journals differ, but not in size
  have hkeeps := View.besides_keeps s (w.scope s) (w.slot (w.scope s).slot) (World.size_journal_enter hidle)
  have hstart : (ofRequest (w.guarded s) (.perform b)).Matches
      (World.Beside s (w.scope s) (w.slot (w.scope s).slot) (w.guarded s).journal (w.enter s).2.journal)
      (ofRequest (w.enter s).2 (.perform b)) := .mk (World.beside_enter hs hidle)
  have hmatches := hkeeps.run_along hstart hb
  refine ⟨hmatches, hkeeps.events_along hstart hb, fun hw' => ?_, fun hv' => ?_⟩
  · obtain ⟨w₁, hbody, rfl⟩ := finishes_within_iff.mp (finishes_runIn_iff.mp hw')
    obtain ⟨v₁, hbeside, hv₁⟩ := hbody.matched hmatches
    -- what is logged at the end is logged under the threshold of the beginning
    have hthreshold : w₁.threshold = w.threshold :=
      (World.covers_threshold.finishes hbody).trans (World.covers_threshold.openGuard ..)
    obtain ⟨j, hj, hexit⟩ := hbeside.restored hidle hthreshold
    exact ⟨j, hj, finishes_byHand_iff.mpr ⟨v₁, hv₁, hexit.symm⟩⟩
  · obtain ⟨v₁, hbody, -⟩ := finishes_byHand_iff.mp hv'
    obtain ⟨w₁, -, hw₁⟩ := hbody.matched_back hmatches
    exact ⟨_, finishes_runIn_iff.mpr (finishes_within_iff.mpr ⟨w₁, hw₁, rfl⟩)⟩

/-- Running a body in a scope is calling it wrapped, whatever has happened since it was wrapped in `t`. A body that
leaves the scope alone goes the same way if the scope is idle and entered by hand instead. -/
theorem scope_forms_agree {t u : State H final} (hu : Reaches β t u) (hs : s.index < t.world.scopes.cells.size)
    (b : H.Body) : FormsAgree β u.world s b t.world := by
  obtain ⟨hsize, hbinding⟩ := World.covers_keepsScopes.reaches hu s hs
  obtain ⟨hslot, hhook⟩ := Prod.mk.inj hbinding
  have hcall : wrapped u.world s b t.world =
      ofRequest u.world (.within (u.world.scope s).slot (u.world.scope s).hook b) := by
    rw [wrapped, hslot, hhook]
  exact {
    call := hcall ▸ finishes_runIn_iff.symm
    run_starts := startsBody_runIn
    call_starts := hcall ▸ startsBody_within
    hand_starts := startsBody_byHand
    hand := handDriven hsize }

namespace OtherScope

abbrev host : Host := ⟨Unit, Unit, Empty, Except EvalError Value, Unit, Empty, Empty, Unit⟩

def behaviour : Behaviour host :=
  ⟨fun _ _ => .act (.note ()) fun _ => .done (.ok .fallback), nofun, nofun, fun _ =>
    .act (.enter ⟨1⟩) fun _ => .ask (.evaluate ⟨0⟩ 0 #[]) fun a => .act (.exit ⟨1⟩) fun _ => .done a⟩

def world : World host :=
  { World.empty (some .trace) () with
    handlers := ⟨#[.custom ()]⟩
    scopes := ⟨#[{ slot := .thread, hook := .active ⟨0⟩ }, { slot := ⟨1⟩, hook := .null }]⟩
    evaluators := ⟨#[{ program := .ofSources [⟨"yes", 0, 0, #[0x03, 0x33]⟩], slot := .thread, maxDepth := 1 }]⟩ }

def wrapping : State host .body :=
  ofScript world (.act (.install .thread (.active ⟨7⟩)) fun _ => .done (.ok .null))

def calling : State host .body := wrapping.after behaviour 1

theorem behaviour_besides (past past' : Journal Unit) : behaviour.Respects (.besides ⟨0⟩ past past') := by
  have hother : (⟨1⟩ : ScopeId) ≠ ⟨0⟩ := by decide
  exact ⟨fun _ _ => ⟨trivial, fun _ _ _ => rfl, fun _ => trivial⟩, nofun, nofun,
    fun _ => ⟨hother, fun _ _ _ => rfl, fun _ _ => ⟨hother, fun _ _ _ => rfl, fun _ => trivial⟩⟩⟩

theorem body_heeds {w : World host} {past past' : Journal Unit} {x : State host .body}
    (hx : Reaches behaviour (ofRequest w (.perform ())) x) : x.Heeds (.besides ⟨0⟩ past past') := by
  have hstart : (ofRequest w (.perform ())).Respects (.besides ⟨0⟩ past past') := ⟨trivial, trivial⟩
  exact (hstart.reaches (behaviour_besides past past') hx).heeds

theorem scope_forms_agree_note :
    Reaches behaviour wrapping calling ∧ (calling.world.scope ⟨0⟩).displaced = none ∧
      ∃ w' j, w'.journal = calling.world.journal ++ #[.record ⟨.trace, .scopeOpened (.active ⟨7⟩)⟩] ++ j ++
          #[.record ⟨.trace, .scopeClosed (.active ⟨7⟩)⟩] ∧
        Finishes behaviour (ofScript calling.world (.runIn ⟨0⟩ ())) w' (.ok (.ok (.bool true))) ∧
        Finishes behaviour (ofRequest calling.world (.within .thread (.active ⟨0⟩) ())) w' (.ok (.ok (.bool true))) ∧
        Finishes behaviour (ofScript calling.world (.byHand ⟨0⟩ ()))
          { w' with
            journal := calling.world.journal ++ #[.record ⟨.trace, .scopeEntered (.active ⟨7⟩)⟩] ++ j ++
              #[.record ⟨.trace, .scopeExited (.active ⟨7⟩)⟩] } (.ok (.ok (.bool true))) := by
  have hu : Reaches behaviour wrapping calling := ⟨1, rfl⟩
  have hrun : Finishes behaviour (ofScript calling.world (.runIn ⟨0⟩ ())) _ (.ok (.ok (.bool true))) := ⟨30, rfl⟩
  have hagree := scope_forms_agree hu (show 0 < 2 by decide) ()
  obtain ⟨j, hj, hhand⟩ := (hagree.hand rfl fun _ => body_heeds).ends hrun
  exact ⟨hu, rfl, _, j, hj, hrun, hagree.call.mpr hrun, hhand⟩

end OtherScope

end Interception
