import Interception.Proofs.Unwinding

namespace Interception

variable {H : Host} {final : Kind} {β : Behaviour H} {w w' : World H} {s : SlotId} {h : Hook} {b : H.Body}
  {r : Except (Panic H) H.Report}

open State

theorem reaches_body (β : Behaviour H) (w : World H) (s : SlotId) (h : Hook) (b : H.Body)
    (rest : Stack H .body final) :
    Reaches β ⟨w, _, rest, .request (.within s h b)⟩
      ⟨w.openGuard s h, _, .cons (.restore s (w.slot s)) rest, .script (β.perform b)⟩ :=
  (Reaches.step rfl).trans (.step rfl)

theorem finishes_within_iff :
    Finishes β (.ofRequest w (.within s h b)) w' r ↔
      ∃ w₁, Finishes β (.ofRequest (w.openGuard s h) (.perform b)) w₁ r ∧ w' = w₁.closeGuard s (w.slot s) := by
  have hopen : Reaches β (.ofRequest w (.within s h b))
      ((State.ofRequest (w.openGuard s h) (.perform b)).under (.cons (.restore s (w.slot s)) .nil)) := .step rfl
  have hclose (w₁ : World H) (r₁ : Except (Panic H) H.Report) :
      Reaches β (returning (k := .body) w₁ (.cons (.restore s (w.slot s)) .nil) r₁)
        (returning (k := .body) (w₁.closeGuard s (w.slot s)) .nil r₁) := .step (step_restore ..)
  rw [hopen.finishes_iff, finishes_under_iff]
  constructor
  · rintro ⟨w₁, r₁, hbody, hrest⟩
    obtain ⟨rfl, rfl⟩ := ((hclose w₁ r₁).finishes_iff.mp hrest).unique finishes_returning
    exact ⟨w₁, hbody, rfl⟩
  · rintro ⟨w₁, hbody, rfl⟩
    exact ⟨w₁, r, hbody, (hclose w₁ r).finishes finishes_returning⟩

theorem within_restores (β : Behaviour H) (w : World H) (s : SlotId) (h : Hook) (b : H.Body)
    (rest : Stack H .body final) :
    Reaches β ⟨w, _, rest, .request (.within s h b)⟩
        ⟨w.openGuard s h, _, .cons (.restore s (w.slot s)) rest, .script (β.perform b)⟩ ∧
      (w.openGuard s h).slot s = h ∧
      (∀ r, (∃ w', Finishes β (.ofRequest w (.within s h b)) w' r) ↔
        ∃ w₁, Finishes β (.ofRequest (w.openGuard s h) (.perform b)) w₁ r) ∧
      ∀ w' r, Finishes β (.ofRequest w (.within s h b)) w' r →
        w'.slot s = w.slot s ∧ Reaches β ⟨w, _, rest, .request (.within s h b)⟩ (returning w' rest r) := by
  refine ⟨reaches_body β w s h b rest, World.slot_openGuard_self w s h, fun r => ?_, fun w' r hw => ?_⟩
  · simp only [finishes_within_iff]
    constructor
    · rintro ⟨_, w₁, hbody, -⟩
      exact ⟨w₁, hbody⟩
    · rintro ⟨w₁, hbody⟩
      exact ⟨_, w₁, hbody, rfl⟩
  · refine ⟨?_, hw.under rest⟩
    obtain ⟨w₁, -, rfl⟩ := finishes_within_iff.mp hw
    exact World.slot_closeGuard_self ..

namespace NestedBodies

abbrev host : Host := ⟨Unit, Empty, Unit, Unit, Empty, Empty, Empty, Nat⟩

def behaviour : Behaviour host :=
  ⟨nofun, nofun, nofun, fun
    | 0 => .act (.install .thread .null) fun _ => .panic (.host ())
    | n + 1 => .ask (.within .thread (.active ⟨n⟩) n) .done⟩

def world : World host := (World.empty none ()).install .thread (.active ⟨7⟩)

theorem within_restores_nested :
    ∃ w', Finishes behaviour (.ofRequest world (.within .thread (.active ⟨3⟩) 3)) w' (.error (.host ())) ∧
      w'.slot .thread = .active ⟨7⟩ := by
  have hf : Finishes behaviour (.ofRequest world (.within .thread (.active ⟨3⟩) 3)) _ (.error (.host ())) :=
    ⟨30, rfl⟩
  have hr := within_restores behaviour world .thread (.active ⟨3⟩) 3 .nil
  exact ⟨_, hf, (hr.2.2.2 _ _ hf).1⟩

end NestedBodies

end Interception
