import Interception.Proofs.Effects
import Interception.Proofs.Lockstep

namespace Interception

variable {H : Host}

def Evaluator.ahead (e : Evaluator) (n : Nat) : Evaluator :=
  { e with usage := { e.usage with frames := e.usage.frames + n } }

namespace Table

variable {α : Type} [Inhabited α] {R : Nat → α → α → Prop} {t u : Table α}

theorem size_set (t : Table α) (i : Nat) (a : α) : (t.set i a).cells.size = max t.cells.size (i + 1) := by
  simp only [set, Array.size_setIfInBounds, Array.size_append, Array.size_replicate]
  omega

theorem set_set_get (t : Table α) {i : Nat} (hi : i < t.cells.size) (a : α) : (t.set i a).set i (t.get i) = t := by
  have hset (u : Table α) (hu : i < u.cells.size) (b : α) : u.set i b = ⟨u.cells.set i b hu⟩ := by
    have hfits : i + 1 - u.cells.size = 0 := by omega
    simp only [set, hfits, Array.replicate_zero, Array.append_empty, Array.setIfInBounds, hu, ↓reduceDIte]
  have hget : t.get i = t.cells[i] := Array.getD_eq_getD_getElem? .. |>.trans (by simp [hi])
  rw [hset t hi, hset _ (by simpa using hi)]
  simp only [Array.set_set, hget, Array.set_getElem_self]

theorem ext_get (hsize : t.cells.size = u.cells.size) (hget : ∀ i, t.get i = u.get i) : t = u := by
  obtain ⟨a⟩ := t
  obtain ⟨b⟩ := u
  refine congrArg Table.mk (Array.ext hsize fun i ha hb => ?_)
  have hi := hget i
  simp only [get, Array.getD, ha, hb, dif_pos] at hi
  exact hi

structure Related (R : Nat → α → α → Prop) (t u : Table α) : Prop where
  size : u.cells.size = t.cells.size
  get : ∀ i, R i (t.get i) (u.get i)
  fresh : ∀ i, t.cells.size ≤ i → ∀ a, R i a a

namespace Related

theorem refl (t : Table α) : t.Related (fun _ => Eq) t := ⟨rfl, fun _ => rfl, fun _ _ _ => rfl⟩

theorem set (h : t.Related R u) {i : Nat} {a b : α} (hab : R i a b) : (t.set i a).Related R (u.set i b) := by
  refine ⟨by rw [size_set, size_set, h.size], fun j => ?_, fun j hj => h.fresh j (by rw [size_set] at hj; omega)⟩
  by_cases hij : i = j
  · subst hij
    rwa [get_set_self, get_set_self]
  · rw [get_set_ne _ _ hij, get_set_ne _ _ hij]
    exact h.get j

theorem add (h : t.Related R u) (a : α) : (u.add a).1 = (t.add a).1 ∧ (t.add a).2.Related R (u.add a).2 := by
  have hsize : (t.add a).2.cells.size = t.cells.size + 1 := Array.size_push _
  have hsize' : (u.add a).2.cells.size = u.cells.size + 1 := Array.size_push _
  have hnew : (u.add a).1 = (t.add a).1 := h.size
  refine ⟨hnew, by rw [hsize, hsize', h.size], fun i => ?_, fun i hi => h.fresh i (by omega)⟩
  by_cases hi : i = (t.add a).1
  · have hboth := h.fresh i (Nat.le_of_eq hi.symm) a
    rwa [hi, get_add_new, ← hnew, get_add_new, hnew, ← hi]
  · rw [get_add_old _ _ hi, get_add_old _ _ (hnew ▸ hi)]
    exact h.get i

end Related

end Table

structure Difference (H : Host) where
  past : Journal H.Note
  past' : Journal H.Note
  frames : Nat → Nat := fun _ => 0
  scopes : Nat → Scope → Scope → Prop := fun _ => Eq

namespace Difference

variable (D : Difference H)

def Spares (s : ScopeId) : Prop := ∀ a b, D.scopes s.index a b ↔ a = b

def view : View H where
  allows
    | .enter s | .exit s | .drop s | .scope s => D.Spares s
    | .journalFrom start =>
      D.past'.size = D.past.size ∧ D.past'.toList.drop start = D.past.toList.drop start
    | .journalSize => D.past'.size = D.past.size
    | _ => True
  same
    | .usage e => fun u u' => u' = { u with frames := u.frames + D.frames e.index }
    | _ => fun a a' => a = a'

end Difference

/-- From the second world on, evaluators have counted more frames, scopes hold something else, and the journal begins
with `past'` in place of `past`. -/
inductive World.Differs (D : Difference H) : World H → World H → Prop
  | mk {w : World H} {evaluators : Table Evaluator} {scopes : Table Scope} {j : Journal H.Note}
    (he : w.evaluators.Related (fun i a b => b = a.ahead (D.frames i)) evaluators)
    (hs : w.scopes.Related D.scopes scopes) (hj : w.journal = D.past ++ j) :
    Differs D w { w with evaluators, scopes, journal := D.past' ++ j }

namespace World.Differs

variable {D : Difference H} {w v : World H} {s : ScopeId}

/-- What neither looks at the evaluators, the scopes and the journal nor changes them does the same in both worlds. -/
theorem elsewhere {α : Type} {F : World H → α × World H} (h : w.Differs D v)
    (hF : ∀ (u : World H) evaluators scopes journal, F { u with evaluators, scopes, journal } =
      ((F u).1, { (F u).2 with evaluators, scopes, journal })) :
    (F w).1 = (F v).1 ∧ (F w).2.Differs D (F v).2 := by
  have hw := hF w w.evaluators w.scopes w.journal
  have hevaluators : (F w).2.evaluators = w.evaluators := congrArg (fun x => x.2.evaluators) hw
  have hscopes : (F w).2.scopes = w.scopes := congrArg (fun x => x.2.scopes) hw
  have hjournal : (F w).2.journal = w.journal := congrArg (fun x => x.2.journal) hw
  cases h with
  | @mk evaluators scopes j he hs hj =>
    rw [hF w evaluators scopes (D.past' ++ j)]
    exact ⟨rfl, .mk (hevaluators ▸ he) (hscopes ▸ hs) (hjournal.trans hj)⟩

theorem push (h : w.Differs D v) (entry : Entry H.Note) :
    { w with journal := w.journal.push entry }.Differs D { v with journal := v.journal.push entry } := by
  cases h with
  | @mk _ _ j he hs hj =>
    have hpush : (D.past' ++ j).push entry = D.past' ++ j.push entry := by simp
    have hpast : w.journal.push entry = D.past ++ j.push entry := by simp [hj]
    dsimp only
    rw [hpush]
    exact .mk (w := { w with journal := w.journal.push entry }) he hs hpast

theorem log (h : w.Differs D v) (level : Level) (message : Message) :
    (w.log level message).Differs D (v.log level message) := by
  have hpushed := h.push (.record ⟨level, message⟩)
  cases h with
  | mk he hs hj =>
    simp only [World.log]
    split
    · exact hpushed
    · exact .mk he hs hj

theorem install (h : w.Differs D v) (r : SlotId) (hook : Hook) :
    (w.install r hook).Differs D (v.install r hook) :=
  (h.elsewhere (F := fun u => ((), u.install r hook)) fun _ _ _ _ => rfl).2

theorem setScope (h : w.Differs D v) (hs : D.Spares s) (scope : Scope) :
    (w.setScope s scope).Differs D (v.setScope s scope) := by
  cases h with
  | mk he hscopes hj => exact .mk (w := w.setScope s scope) he (hscopes.set ((hs _ _).mpr rfl)) hj

theorem setConverter (h : w.Differs D v) (c : ConverterId) (converter : Converter H) :
    (w.setConverter c converter).Differs D (v.setConverter c converter) :=
  (h.elsewhere (F := fun u => ((), u.setConverter c converter)) fun _ _ _ _ => rfl).2

theorem recordTally (h : w.Differs D v) (d : Dispatch) (event : Tally.Event) :
    (w.recordTally d event).Differs D (v.recordTally d event) := by
  refine (h.elsewhere (F := fun u => ((), u.recordTally d event)) fun u _ _ _ => ?_).2
  simp only [World.recordTally]
  split <;> rfl

theorem evaluator (h : w.Differs D v) (e : EvaluatorId) :
    v.evaluator e = (w.evaluator e).ahead (D.frames e.index) := by
  cases h with
  | mk he _ _ => exact he.get e.index

theorem setUsage (h : w.Differs D v) (e : EvaluatorId) {usage usage' : Usage}
    (hu : usage' = { usage with frames := usage.frames + D.frames e.index }) :
    (w.setUsage e usage).Differs D (v.setUsage e usage') := by
  have hget := h.evaluator e
  cases h with
  | mk he hs hj =>
    refine .mk (w := w.setUsage e usage) (he.set ?_) hs hj
    rw [hget, hu]
    rfl

theorem countFrame (h : w.Differs D v) (e : EvaluatorId) : (w.countFrame e).Differs D (v.countFrame e) := by
  refine h.setUsage e ?_
  rw [h.evaluator]
  simp only [Evaluator.ahead, Nat.add_right_comm]

theorem countReplaced (h : w.Differs D v) (e : EvaluatorId) :
    (w.countReplaced e).Differs D (v.countReplaced e) := by
  refine h.setUsage e ?_
  rw [h.evaluator]
  rfl

theorem countGuardFailure (h : w.Differs D v) (e : EvaluatorId) :
    (w.countGuardFailure e).Differs D (v.countGuardFailure e) := by
  refine h.setUsage e ?_
  rw [h.evaluator]
  rfl

theorem slot (h : w.Differs D v) (r : SlotId) : v.slot r = w.slot r := by
  cases h
  rfl

theorem converter (h : w.Differs D v) (c : ConverterId) : v.converter c = w.converter c := by
  cases h
  rfl

theorem scope (h : w.Differs D v) (hs : D.Spares s) : v.scope s = w.scope s := by
  cases h with
  | mk _ hscopes _ => exact ((hs _ _).mp (hscopes.get s.index)).symm

theorem enter (h : w.Differs D v) (hs : D.Spares s) :
    (w.enter s).1 = (v.enter s).1 ∧ (w.enter s).2.Differs D (v.enter s).2 := by
  rw [World.enter, World.enter, h.scope hs]
  cases (w.scope s).displaced with
  | some displaced => exact ⟨rfl, h⟩
  | none =>
    refine ⟨rfl, ?_⟩
    simp only [h.slot]
    exact ((h.install _ _).log ..).setScope hs _

theorem exit (h : w.Differs D v) (hs : D.Spares s) :
    (w.exit s).1 = (v.exit s).1 ∧ (w.exit s).2.Differs D (v.exit s).2 := by
  rw [World.exit, World.exit, h.scope hs]
  cases (w.scope s).displaced with
  | none => exact ⟨rfl, h⟩
  | some displaced => exact ⟨rfl, ((h.setScope hs _).log ..).install ..⟩

theorem drop (h : w.Differs D v) (hs : D.Spares s) : (w.drop s).Differs D (v.drop s) := by
  rw [World.drop, World.drop, h.scope hs]
  split
  · exact ((h.log ..).exit hs).2
  · exact h

theorem journalFrom (h : w.Differs D v) (hsize : D.past'.size = D.past.size) {start : Nat}
    (hstart : D.past'.toList.drop start = D.past.toList.drop start) :
    (w.journal.extract start w.journal.size).toList = (v.journal.extract start v.journal.size).toList := by
  cases h with
  | mk _ _ hj => simp [hj, hstart, hsize]

theorem command (h : w.Differs D v) (c : Command H) (hc : D.view.allows c) :
    D.view.same c (c.run w).1 (c.run v).1 ∧ (c.run w).2.Differs D (c.run v).2 := by
  have helsewhere (c : Command H) := h.elsewhere (F := c.run)
  cases c with
  | journalFrom start => exact ⟨h.journalFrom hc.1 hc.2, h⟩
  | journalSize =>
    have hsize : D.past'.size = D.past.size := hc
    refine ⟨?_, h⟩
    cases h with
    | mk _ _ hj => simp [Difference.view, Command.run, hj, hsize]
  | install r hook => exact ⟨(h.slot r).symm, h.install r hook⟩
  | enter s => exact h.enter hc
  | exit s => exact h.exit hc
  | drop s => exact ⟨rfl, h.drop hc⟩
  | scope s => exact ⟨(h.scope hc).symm, h⟩
  | note n => exact ⟨rfl, h.push (.note n)⟩
  | usage e => exact ⟨congrArg Evaluator.usage (h.evaluator e), h⟩
  | invalidate c code =>
    simp only [Command.run, h.converter c]
    cases w.converter c with
    | caching inner cache => exact ⟨rfl, h.setConverter ..⟩
    | _ => exact ⟨rfl, h⟩
  | newEvaluator program r maxDepth =>
    cases h with
    | mk he hs hj =>
      obtain ⟨hnew, hadd⟩ := he.add { program, slot := r, maxDepth }
      exact ⟨congrArg EvaluatorId.mk hnew.symm,
        .mk (w := ((Command.newEvaluator program r maxDepth).run w).2) hadd hs hj⟩
  | newScope r hook =>
    cases h with
    | mk he hs hj =>
      obtain ⟨hnew, hadd⟩ := hs.add { slot := r, hook }
      exact ⟨congrArg ScopeId.mk hnew.symm, .mk (w := ((Command.newScope r hook).run w).2) he hadd hj⟩
  | newSlot | newHandler _ | newConverter _ | newCompiler _ | newTally | newCode _ | resetTally _ | setHost _ =>
    exact helsewhere _ fun _ _ _ _ => rfl
  | current _ | converter _ | compiler _ | tally _ | host => exact helsewhere _ fun _ _ _ _ => rfl

end World.Differs

theorem Difference.view_keeps (D : Difference H) : D.view.Keeps (World.Differs D) where
  slot h := h.slot
  handler h _ := by cases h; rfl
  converter h := h.converter
  compiler h _ := by cases h; rfl
  setup h e := by rw [h.evaluator]; rfl
  install h := h.install
  log h := h.log
  countFrame h := h.countFrame
  countReplaced h := h.countReplaced
  countGuardFailure h := h.countGuardFailure
  setConverter h := h.setConverter
  recordTally h := h.recordTally
  command h := h.command

theorem View.Keeps.coarsen {V V' : View H} {R : World H → World H → Prop} (h : V.Keeps R)
    (hallows : ∀ c, V'.allows c → V.allows c) (hsame : ∀ c a a', V.same c a a' → V'.same c a a') : V'.Keeps R :=
  { h with
    command := fun hr c hc =>
      have hboth := h.command hr c (hallows c hc)
      ⟨hsame c _ _ hboth.1, hboth.2⟩ }

end Interception
