import Interception.Proofs.Differences

namespace Interception

variable {H : Host}

namespace Table

def Ahead (δ : Nat → Nat) : Table Evaluator → Table Evaluator → Prop := Related fun i a b => b = a.ahead (δ i)

variable {δ δ' : Nat → Nat} {t u v : Table Evaluator}

theorem Ahead.refl (t : Table Evaluator) : t.Ahead (fun _ => 0) t := ⟨rfl, fun _ => rfl, fun _ _ _ => rfl⟩

theorem Ahead.eq (h : t.Ahead (fun _ => 0) u) : t = u := ext_get h.size.symm fun i => (h.get i).symm

theorem Ahead.trans (h : t.Ahead δ u) (h' : u.Ahead δ' v) : t.Ahead (fun i => δ i + δ' i) v := by
  have hadd (e : Evaluator) (m n : Nat) : (e.ahead m).ahead n = e.ahead (m + n) := by
    simp only [Evaluator.ahead, Nat.add_assoc]
  refine ⟨h'.size.trans h.size, fun i => ?_, fun i hi a => ?_⟩
  · rw [h'.get, h.get, hadd]
  · rw [← hadd, ← h.fresh i hi a, ← h'.fresh i (h.size ▸ hi) a]

end Table

def World.Ahead (δ : Nat → Nat) (past past' : Journal H.Note) : World H → World H → Prop :=
  Differs { past, past', frames := δ }

def View.blind : View H where
  allows
    | .journalFrom _ | .journalSize => False
    | _ => True
  same
    | .usage _ => fun u u' => u'.replaced = u.replaced ∧ u'.guardFailures = u.guardFailures
    | _ => fun a a' => a = a'

theorem View.blind_keeps (δ : Nat → Nat) (past past' : Journal H.Note) :
    View.blind.Keeps (World.Ahead δ past past') := by
  let D : Difference H := { past, past', frames := δ }
  refine D.view_keeps.coarsen (fun c hc => ?_) fun c a a' haa' => ?_
  · cases c with
    | enter | exit | drop | scope => exact fun _ _ => Iff.rfl
    | journalFrom | journalSize => exact hc.elim
    | _ => trivial
  · cases c with
    | usage e =>
      have hcounted : a' = { a with frames := a.frames + δ e.index } := haa'
      rw [hcounted]
      exact ⟨rfl, rfl⟩
    | _ => exact haa'

theorem World.Ahead.runs {k : Kind} {β : Behaviour H} {δ : Nat → Nat} {past past' : Journal H.Note} {w v : World H}
    (h : w.Ahead δ past past' v) (hβ : β.Respects .blind) (q : Request H k) (n : Nat) :
    ((State.ofRequest w q).run β n).Matches (World.Ahead δ past past') ((State.ofRequest v q).run β n) ∧
      (State.ofRequest v q).events β n = (State.ofRequest w q).events β n := by
  have hmatches : (State.ofRequest w q).Matches (World.Ahead δ past past') (.ofRequest v q) := .mk h
  have hrespects : (State.ofRequest w q).Respects .blind := ⟨trivial, trivial⟩
  exact ⟨(View.blind_keeps ..).run hβ hmatches hrespects n, (View.blind_keeps ..).events hβ hmatches hrespects n⟩

namespace World

variable {w v w₁ : World H} {e : EvaluatorId}

def Counting (w v : World H) : Prop := ∃ δ evaluators, w.evaluators.Ahead δ evaluators ∧ v = { w with evaluators }

structure Inert (w v : World H) : Prop where
  converters : v.converters = w.converters
  tallies : v.tallies = w.tallies
  evaluators : ∃ δ, w.evaluators.Ahead δ v.evaluators

theorem Counting.refl (w : World H) : w.Counting w := ⟨_, _, .refl _, rfl⟩

theorem Counting.trans (h : w.Counting v) (h' : v.Counting w₁) : w.Counting w₁ := by
  obtain ⟨δ, evaluators, hahead, rfl⟩ := h
  obtain ⟨δ', evaluators', hahead', rfl⟩ := h'
  exact ⟨_, _, hahead.trans hahead', rfl⟩

theorem Counting.countFrame (he : e.index < w.evaluators.cells.size) : w.Counting (w.countFrame e) := by
  refine ⟨fun i => if i = e.index then 1 else 0, _, ⟨?_, fun i => ?_, fun i hi a => ?_⟩, rfl⟩
  · rw [Table.size_set]
    omega
  · dsimp only
    split
    · next hi =>
      subst hi
      exact Table.get_set_self ..
    · next hi => exact Table.get_set_ne _ _ (Ne.symm hi)
  · dsimp only
    rw [if_neg (by omega)]
    rfl

theorem Counting.inert (h : w.Counting v) : w.Inert v := by
  obtain ⟨δ, evaluators, hahead, rfl⟩ := h
  exact ⟨rfl, rfl, δ, hahead⟩

theorem Inert.of_books (h : v.books = w.books) : w.Inert v := by
  have hevaluators : v.evaluators = w.evaluators := congrArg (fun b => b.2.2.1) h
  refine ⟨congrArg Prod.fst h, congrArg (fun b => b.2.1) h, fun _ => 0, ?_⟩
  rw [hevaluators]
  exact .refl _

theorem Inert.trans (h : w.Inert v) (h' : v.Inert w₁) : w.Inert w₁ := by
  obtain ⟨δ, hahead⟩ := h.evaluators
  obtain ⟨δ', hahead'⟩ := h'.evaluators
  exact ⟨h'.converters.trans h.converters, h'.tallies.trans h.tallies, _, hahead.trans hahead'⟩

theorem log_eq (w : World H) (level : Level) (message : Message) :
    ∃ journal, w.log level message = { w with journal } := by
  rw [log]
  split
  · exact ⟨_, rfl⟩
  · exact ⟨w.journal, rfl⟩

theorem Ahead.of_eq {δ : Nat → Nat} {evaluators : Table Evaluator} {journal : Journal H.Note}
    (h : w.evaluators.Ahead δ evaluators) : Ahead δ w.journal journal w { w with evaluators, journal } := by
  have hahead : Ahead δ w.journal journal w { w with evaluators, journal := journal ++ #[] } :=
    .mk h (.refl _) (by rw [Array.append_empty])
  rwa [Array.append_empty] at hahead

end World

end Interception
