import Interception.Proofs.Ahead
import Interception.Proofs.Failures
import Interception.Proofs.Guards

/-!
Bodies that run with interception off. Their evaluations go as in worlds of their own, with no hook at all, and all
that is left of them are the frames that they have counted and what the log says about opening and closing.
-/

namespace Interception

variable {H : Host} {α : Type} {k l final : Kind} {β : Behaviour H} {w v w' : World H} {s : SlotId} {e : EvaluatorId}
  {O : EvaluatorId → Prop}

open State

def Command.Reads (c : Command H) : Prop := ∀ w, (c.run w).2 = w

inductive Request.Evaluates : {k : Kind} → Request H k → EvaluatorId → Job → Prop
  | call {e function args} : Evaluates (.evaluate e function args) e (.call function args)
  | frame {e f} : Evaluates (.evaluateFrame e f) e (.frame f)

def World.Over (w : World H) (s : SlotId) (e : EvaluatorId) : Prop :=
  e.index < w.evaluators.cells.size ∧ (w.evaluator e).slot = s

def World.Off (w : World H) (O : EvaluatorId → Prop) : Prop :=
  ∀ e, O e → e.index < w.evaluators.cells.size ∧ w.slot (w.evaluator e).slot = .null

def World.alone (w : World H) (e : EvaluatorId) : World Evaluation.host :=
  Evaluation.world (w.evaluator e).program (w.evaluator e).maxDepth

namespace Script

def EvaluatesBy (O : EvaluatorId → Prop) : Script H α → Prop
  | done _ | panic _ => True
  | act c next => c.Reads ∧ ∀ a, (next a).EvaluatesBy O
  | ask q next => (∃ e job, q.Evaluates e job ∧ O e) ∧ ∀ a, (next a).EvaluatesBy O

/-- How the script goes if each evaluation takes place in a world of its own, which leaves it the number of counted
frames. -/
inductive RunsApart : World H → Script H α → World H → Except (Panic H) α → Prop
  | done {w a} : RunsApart w (done a) w (.ok a)
  | panic {w p} : RunsApart w (panic p) w (.error p)
  | reads {w c next w' r} (hn : RunsApart w (next (c.run w).1) w' r) : RunsApart w (act c next) w' r
  | evaluates {w e job next own a w' r} {q : Request H .evaluation} (hq : q.Evaluates e job)
    (he : Finishes Evaluation.behaviour (job.start (w.alone e) Evaluation.evaluator) own (.ok a))
    (hn : RunsApart (w.countFrames e (own.frames Evaluation.evaluator)) (next a) w' r) :
    RunsApart w (ask q next) w' r
  | strands {w e job next own} {q : Request H .evaluation} (hq : q.Evaluates e job)
    (he : Finishes Evaluation.behaviour (job.start (w.alone e) Evaluation.evaluator) own (.error .tooManyLocals)) :
    RunsApart w (ask q next) (w.countFrames e (own.frames Evaluation.evaluator)) (.error .tooManyLocals)

end Script

namespace Request.Evaluates

variable {q : Request H k} {job job' : Job} {e' : EvaluatorId}

theorem kind_eq (h : q.Evaluates e job) : k = .evaluation := by cases h <;> rfl

theorem unique (h : q.Evaluates e job) (h' : q.Evaluates e' job') : e' = e ∧ job' = job := by
  cases h <;> cases h' <;> exact ⟨rfl, rfl⟩

end Request.Evaluates

namespace World

theorem setup_countFrame (w : World H) (e e' : EvaluatorId) :
    ((w.countFrame e).evaluator e').setup = (w.evaluator e').setup := by
  by_cases he : e = e'
  · subst he
    rw [evaluator_countFrame]
    rfl
  · exact congrArg Evaluator.setup (evaluator_setUsage_ne w _ he)

theorem Off.countFrame (h : w.Off O) (e : EvaluatorId) : (w.countFrame e).Off O := by
  intro e' he'
  obtain ⟨hsize, hslot⟩ := h e' he'
  have hsame : ((w.countFrame e).evaluator e').slot = (w.evaluator e').slot :=
    congrArg (fun p => p.2.1) (setup_countFrame w e e')
  refine ⟨?_, ?_⟩
  · rw [World.countFrame, setUsage, Table.size_set]
    omega
  · rw [slot_countFrame, hsame, hslot]

theorem Off.countFrames (h : w.Off O) (e : EvaluatorId) (n : Nat) : (w.countFrames e n).Off O := by
  induction n generalizing w with
  | zero => exact h
  | succ n ih => exact ih (h.countFrame e)

theorem Off.of_counting (hw : w.Off O) (h : w.Counting v) : v.Off O := by
  obtain ⟨δ, evaluators, hahead, rfl⟩ := h
  intro e he
  obtain ⟨hsize, hslot⟩ := hw e he
  have hsame : (evaluators.get e.index).slot = (w.evaluator e).slot := by
    rw [hahead.get]
    rfl
  exact ⟨hahead.size ▸ hsize, (congrArg w.slot hsame).trans hslot⟩

theorem alone_of_counting (h : w.Counting v) (e : EvaluatorId) : v.alone e = w.alone e := by
  obtain ⟨δ, evaluators, hahead, rfl⟩ := h
  have hget : evaluators.get e.index = (w.evaluator e).ahead (δ e.index) := hahead.get e.index
  simp only [alone, evaluator, hget]
  rfl

theorem frames_alone (w : World H) (e : EvaluatorId) (n : Nat) :
    ((w.alone e).countFrames Evaluation.evaluator n).frames Evaluation.evaluator = n :=
  (frames_countFrames ..).trans (Nat.zero_add n)

theorem finishes_iff_alone {job : Job} {r : Except (Panic H) (Except EvalError Value)}
    (hw : w.slot (w.evaluator e).slot = .null) :
    Finishes β (job.start w e) w' r ↔
      ∃ own q, Finishes Evaluation.behaviour (job.start (w.alone e) Evaluation.evaluator) own (Ending.lift q) ∧
        r = q.lift ∧ w' = w.countFrames e (own.frames Evaluation.evaluator) := by
  have halone : (w.alone e).Equipped Evaluation.evaluator (w.evaluator e).program (w.evaluator e).maxDepth .null :=
    Evaluation.world_equipped ..
  rw [finishes_iff_computes ⟨rfl, rfl, hw⟩]
  constructor
  · rintro ⟨n, q, hn, rfl, rfl⟩
    refine ⟨_, q, (finishes_iff_computes halone).mpr ⟨n, q, hn, rfl, rfl⟩, rfl, ?_⟩
    rw [frames_alone]
  · rintro ⟨own, q, hown, rfl, rfl⟩
    obtain ⟨n, q', hn, hlift, rfl⟩ := (finishes_iff_computes halone).mp hown
    obtain rfl := Ending.lift_inj hlift
    exact ⟨n, q, hn, rfl, by rw [frames_alone]⟩

end World

section

variable {r : Except (Panic H) (k.Result H)}

theorem finishes_of_step {t : State H k} {w₁ : World H} {r₁ : Except (Panic H) (k.Result H)}
    (h : t.step β = .running (returning w₁ .nil r₁)) : Finishes β t w' r ↔ w' = w₁ ∧ r = r₁ := by
  rw [(Reaches.step h).finishes_iff]
  constructor
  · exact fun hf => hf.unique finishes_returning
  · rintro ⟨rfl, rfl⟩
    exact finishes_returning

theorem finishes_ask_iff {q : Request H .evaluation} {job : Job} {next : Except EvalError Value → Script H (k.Result H)}
    (hq : q.Evaluates e job) (hw : w.slot (w.evaluator e).slot = .null) :
    Finishes β ⟨w, k, .nil, .script (.ask q next)⟩ w' r ↔
      ∃ own, (∃ a, Finishes Evaluation.behaviour (job.start (w.alone e) Evaluation.evaluator) own (.ok a) ∧
          Finishes β ⟨w.countFrames e (own.frames Evaluation.evaluator), k, .nil, .script (next a)⟩ w' r) ∨
        Finishes Evaluation.behaviour (job.start (w.alone e) Evaluation.evaluator) own (.error .tooManyLocals) ∧
          w' = w.countFrames e (own.frames Evaluation.evaluator) ∧ r = .error .tooManyLocals := by
  have hask : Reaches β ⟨w, k, .nil, .script (.ask q next)⟩ ((job.start w e).under (.cons (.proceed next) .nil)) := by
    cases hq <;> exact .step rfl
  have hproceed (w₁ : World H) (a : Except EvalError Value) : Reaches β
      (returning (k := .evaluation) w₁ (.cons (.proceed next) .nil) (.ok a)) ⟨w₁, k, .nil, .script (next a)⟩ :=
    .step rfl
  have hstrand (w₁ : World H) : Finishes β
      (returning (k := .evaluation) w₁ (.cons (.proceed next) .nil) (.error .tooManyLocals)) w' r ↔
        w' = w₁ ∧ r = .error .tooManyLocals := finishes_of_step rfl
  rw [hask.finishes_iff, finishes_under_iff]
  simp only [World.finishes_iff_alone hw]
  constructor
  · rintro ⟨_, _, ⟨own, ending, hown, rfl, rfl⟩, hrest⟩
    cases ending with
    | result a => exact ⟨own, .inl ⟨a, hown, (hproceed _ a).finishes_iff.mp hrest⟩⟩
    | noRoom => exact ⟨own, .inr ⟨hown, (hstrand _).mp hrest⟩⟩
  · rintro ⟨own, ⟨a, hown, hrest⟩ | ⟨hown, hrest⟩⟩
    · exact ⟨_, _, ⟨own, .result a, hown, rfl, rfl⟩, (hproceed _ a).finishes hrest⟩
    · exact ⟨_, _, ⟨own, .noRoom, hown, rfl, rfl⟩, (hstrand _).mpr hrest⟩

theorem script_finishes_iff {p : Script H (k.Result H)} (hw : w.Off O) (hp : p.EvaluatesBy O) :
    Finishes β ⟨w, k, .nil, .script p⟩ w' r ↔ p.RunsApart w w' r := by
  -- on the script: what is left of it starts in the world that the evaluation before has left
  induction p generalizing w with
  | done a =>
    have hdone : State.step β ⟨w, k, .nil, .script (.done a)⟩ = .running (returning w .nil (.ok a)) := rfl
    rw [finishes_of_step hdone]
    constructor
    · rintro ⟨rfl, rfl⟩
      exact .done
    · intro h
      cases h
      exact ⟨rfl, rfl⟩
  | panic panic =>
    have hpanic : State.step β ⟨w, k, .nil, .script (.panic panic)⟩ = .running (returning w .nil (.error panic)) := rfl
    rw [finishes_of_step hpanic]
    constructor
    · rintro ⟨rfl, rfl⟩
      exact .panic
    · intro h
      cases h
      exact ⟨rfl, rfl⟩
  | act c next ih =>
    have hread : Reaches β ⟨w, k, .nil, .script (.act c next)⟩ ⟨(c.run w).2, k, .nil, .script (next (c.run w).1)⟩ :=
      .step rfl
    rw [hread.finishes_iff, hp.1 w, ih _ hw (hp.2 _)]
    constructor
    · exact .reads
    · intro h
      cases h with
      | reads hn => exact hn
  | ask q next ih =>
    obtain ⟨⟨e, job, hq, he⟩, hnext⟩ := hp
    obtain rfl := hq.kind_eq
    rw [finishes_ask_iff hq (hw e he).2]
    constructor
    · rintro ⟨own, ⟨a, hown, hrest⟩ | ⟨hown, rfl, rfl⟩⟩
      · exact .evaluates hq hown ((ih a (hw.countFrames e _) (hnext a)).mp hrest)
      · exact .strands hq hown
    · intro h
      cases h with
      | @evaluates _ _ _ _ own a _ _ _ hq' hown hrest =>
        obtain ⟨rfl, rfl⟩ := hq.unique hq'
        exact ⟨own, .inl ⟨a, hown, (ih a (hw.countFrames _ _) (hnext a)).mpr hrest⟩⟩
      | @strands _ _ _ _ own _ hq' hown =>
        obtain ⟨rfl, rfl⟩ := hq.unique hq'
        exact ⟨own, .inr ⟨hown, rfl, rfl⟩⟩

end

namespace State

def Always (β : Behaviour H) (I : State H final → Prop) (s : State H final) : Prop := ∀ t, Reaches β s t → I t

variable {I : State H final → Prop} {t u : State H final}

theorem Always.step (ht : I t) (h : t.step β = .running u) (hu : Always β I u) : Always β I t := by
  rintro v ⟨n, hn⟩
  cases n with
  | zero =>
    obtain rfl : t = v := Outcome.running.inj hn
    exact ht
  | succ n => exact hu v ⟨n, (run_succ h n).symm.trans hn⟩

theorem Always.returning {r : Except (Panic H) (final.Result H)} (h : I (returning w .nil r)) :
    Always β I (returning w .nil r) := by
  rintro v ⟨n, hn⟩
  cases n with
  | zero =>
    obtain rfl : State.returning w .nil r = v := Outcome.running.inj hn
    exact h
  | succ n => cases r <;> cases hn

theorem Always.under {t : State H l} {rest : Stack H l final} (ht : ∀ u, Reaches β t u → I (u.under rest))
    (hrest : ∀ w r, Finishes β t w r → Always β I (State.returning w rest r)) : Always β I (t.under rest) := by
  -- first the task's own states, from its end on those of the stack
  have hphase (v : State H final) (hv : Reaches β (t.under rest) v) :
      (∃ u, Reaches β t u ∧ v = u.under rest) ∨
        ∃ w r, Finishes β t w r ∧ Reaches β (State.returning w rest r) v := by
    refine hv.induct (I := fun v => (∃ u, Reaches β t u ∧ v = u.under rest) ∨
      ∃ w r, Finishes β t w r ∧ Reaches β (State.returning w rest r) v) ?_ (.inl ⟨t, .refl, rfl⟩)
    rintro v v' hvv' (⟨u, hu, rfl⟩ | ⟨w, r, hf, hv⟩)
    · cases hstep : u.step β with
      | running u' =>
        obtain rfl := Outcome.running.inj ((step_under hstep rest).symm.trans hvv')
        exact .inl ⟨u', hu.trans (.step hstep), rfl⟩
      | finished w r =>
        obtain rfl := eq_returning_of_step hstep
        exact .inr ⟨w, r, hu.finishes finishes_returning, .step hvv'⟩
    · exact .inr ⟨w, r, hf, hv.trans (.step hvv')⟩
  intro v hv
  rcases hphase v hv with ⟨u, hu, rfl⟩ | ⟨w, r, hf, hr⟩
  · exact ht u hu
  · exact hrest w r hf v hr

inductive Evaluating (β : Behaviour H) (O : EvaluatorId → Prop) : State H .body → Prop
  | asked (w : World H) {b : H.Body} (hb : (β.perform b).EvaluatesBy O) : Evaluating β O (ofRequest w (.perform b))
  | between (w : World H) {p : Script H H.Report} (hp : p.EvaluatesBy O) : Evaluating β O ⟨w, .body, .nil, .script p⟩
  | working (w : World H) (job : Job) {e : EvaluatorId} (callers : List Activation)
    {next : Except EvalError Value → Script H H.Report} (he : O e) (hn : ∀ a, (next a).EvaluatesBy O) :
    Evaluating β O ⟨w, _, (suspended e callers).append (.cons (.proceed (l := .body) next) .nil), job.task e⟩
  | returning (w : World H) {e : EvaluatorId} (callers : List Activation)
    {next : Except EvalError Value → Script H H.Report} (r : Except (Panic H) (Except EvalError Value)) (he : O e)
    (hn : ∀ a, (next a).EvaluatesBy O) :
    Evaluating β O (returning w ((suspended e callers).append (.cons (.proceed (l := .body) next) .nil)) r)
  | ended (w : World H) (r : Except (Panic H) H.Report) : Evaluating β O (State.returning w .nil r)

theorem Evaluating.step {t u : State H .body} (h : Evaluating β O t) (ht : t.world.Off O)
    (htu : t.step β = .running u) : Evaluating β O u ∧ t.world.Counting u.world := by
  cases h with
  | asked w hb =>
    obtain rfl := Outcome.running.inj htu
    exact ⟨.between w hb, .refl w⟩
  | @between w p hp =>
    obtain rfl := Outcome.running.inj htu
    cases p with
    | done a => exact ⟨.ended w (.ok a), .refl w⟩
    | panic panic => exact ⟨.ended w (.error panic), .refl w⟩
    | act c next =>
      have hread : (c.run w).2 = w := hp.1 w
      simp only [interpret, hread]
      exact ⟨.between w (hp.2 _), .refl w⟩
    | ask q next =>
      obtain ⟨⟨e, job, hq, he⟩, hnext⟩ := hp
      cases hq with
      | @call _ function args => exact ⟨.working w (.call function args) [] he hnext, .refl w⟩
      | @frame _ f => exact ⟨.working w (.frame f) [] he hnext, .refl w⟩
  | @working w job e callers next he hn =>
    obtain rfl := Outcome.running.inj ((step_job ..).symm.trans htu)
    cases w.move e job with
    | ends q => exact ⟨.returning w callers q.lift he hn, .refl w⟩
    | becomes job' => exact ⟨.working w job' callers he hn, .refl w⟩
    | calls caller callee => exact ⟨.working w (.frame callee) (caller :: callers) he hn, .refl w⟩
    | enters f =>
      -- the only move that looks at the slot, and finds it empty
      obtain ⟨hsize, hslot⟩ := ht e he
      simp only [moved, hslot]
      exact ⟨.working (w.countFrame e) (.body (.start f)) callers he hn, .countFrame hsize⟩
  | @returning w e callers next r he hn =>
    cases callers with
    | nil =>
      cases r with
      | ok a =>
        obtain rfl := Outcome.running.inj htu
        exact ⟨.between w (hn a), .refl w⟩
      | error panic =>
        obtain rfl := Outcome.running.inj htu
        exact ⟨.ended w (.error panic), .refl w⟩
    | cons caller callers =>
      by_cases hr : ∃ v, r = .ok (.ok v)
      · obtain ⟨v, rfl⟩ := hr
        obtain rfl := Outcome.running.inj ((step_resume ..).symm.trans htu)
        exact ⟨.working w (.body (caller.push v)) callers he hn, .refl w⟩
      · have hne : ∀ v, r ≠ .ok (.ok v) := fun v hv => hr ⟨v, hv⟩
        obtain rfl := Outcome.running.inj ((step_resume_of_ne w e caller hne _).symm.trans htu)
        exact ⟨.returning w callers r he hn, .refl w⟩
  | ended w r => cases r <;> cases htu

theorem Evaluating.kind {u : State H .body} (h : Evaluating β O u) : u.kind = .evaluation ∨ u.kind = .body := by
  cases h with
  | asked | between | ended => exact .inr rfl
  | working | returning => exact .inl rfl

theorem Evaluating.reaches {t u : State H .body} (h : Evaluating β O t) (ht : t.world.Off O) (hu : Reaches β t u) :
    Evaluating β O u ∧ t.world.Counting u.world := by
  refine hu.induct (I := fun u => Evaluating β O u ∧ t.world.Counting u.world) ?_ ⟨h, .refl _⟩
  rintro u v huv ⟨hu, hcounting⟩
  obtain ⟨hv, hmore⟩ := hu.step (ht.of_counting hcounting) huv
  exact ⟨hv, hcounting.trans hmore⟩

end State

inductive Disabling
  | guard
  | scope (c : ScopeId)

namespace Disabling

def start (w : World H) (s : SlotId) (b : H.Body) : Disabling → State H .body
  | guard => ofRequest w (.within s .null b)
  | scope c => ⟨w, .body, .nil, .script (.act (.enter c) fun _ => .ask (.perform b) fun a => .act (.exit c) fun _ =>
      .done a)⟩

def Ready (w : World H) (s : SlotId) : Disabling → Prop
  | guard => True
  | scope c => c.index < w.scopes.cells.size ∧ w.scope c = ⟨s, .null, none⟩

def opened (w : World H) (s : SlotId) : Disabling → World H
  | guard => w.openGuard s .null
  | scope c => (w.enter c).2

def closed (w : World H) (s : SlotId) (displaced : Hook) (r : Except (Panic H) H.Report) : Disabling → World H
  | guard => w.closeGuard s displaced
  | scope c =>
    match r with
    | .ok _ => (w.exit c).2
    | .error _ => w

def Closes (r : Except (Panic H) H.Report) : Disabling → Prop
  | guard => True
  | scope _ => ∃ a, r = .ok a

def rest (w : World H) (s : SlotId) : Disabling → Stack H .body .body
  | guard => .cons (.restore s (w.slot s)) .nil
  | scope c => .cons (.proceed fun a => .act (.exit c) fun _ => .done a) .nil

variable {d : Disabling} {b : H.Body} {r : Except (Panic H) H.Report} {w₁ : World H}

theorem reaches_body (w : World H) (s : SlotId) (b : H.Body) (d : Disabling) :
    Reaches β (d.start w s b) ((ofRequest (d.opened w s) (.perform b)).under (d.rest w s)) := by
  cases d with
  | guard => exact .step rfl
  | scope c => exact (Reaches.step rfl).trans (.step rfl)

theorem reaches_closed (w w₁ : World H) (s : SlotId) (r : Except (Panic H) H.Report) (d : Disabling) :
    Reaches β (returning w₁ (d.rest w s) r) (returning (k := .body) (d.closed w₁ s (w.slot s) r) .nil r) := by
  cases d with
  | guard => exact .step (step_restore ..)
  | scope c =>
    cases r with
    | ok a => exact (Reaches.step rfl).trans ((Reaches.step rfl).trans (.step rfl))
    | error panic => exact .step rfl

theorem finishes_iff : Finishes β (d.start w s b) w' r ↔
    ∃ w₁, Finishes β (ofRequest (d.opened w s) (.perform b)) w₁ r ∧ w' = d.closed w₁ s (w.slot s) r := by
  rw [(reaches_body w s b d).finishes_iff, finishes_under_iff]
  constructor
  · rintro ⟨w₁, r₁, hbody, hrest⟩
    obtain ⟨rfl, rfl⟩ := ((reaches_closed ..).finishes_iff.mp hrest).unique finishes_returning
    exact ⟨w₁, hbody, rfl⟩
  · rintro ⟨w₁, hbody, rfl⟩
    exact ⟨w₁, r, hbody, (reaches_closed ..).finishes finishes_returning⟩

theorem slot_opened (hd : d.Ready w s) : (d.opened w s).slot s = .null := by
  cases d with
  | guard => exact World.slot_openGuard_self ..
  | scope c =>
    obtain ⟨-, hscope⟩ := hd
    rw [opened, World.slot_enter (by rw [hscope]), hscope, if_pos rfl]

theorem books_opened (w : World H) (s : SlotId) (d : Disabling) : (d.opened w s).books = w.books := by
  cases d with
  | guard => exact World.books_openGuard ..
  | scope c => exact World.books_enter ..

theorem evaluators_opened (w : World H) (s : SlotId) (d : Disabling) : (d.opened w s).evaluators = w.evaluators :=
  congrArg (fun b => b.2.2.1) (books_opened w s d)

theorem evaluator_opened (w : World H) (s : SlotId) (d : Disabling) (e : EvaluatorId) :
    (d.opened w s).evaluator e = w.evaluator e := congrArg (fun t => t.get e.index) (evaluators_opened w s d)

theorem off_opened (hd : d.Ready w s) : (d.opened w s).Off (w.Over s) := by
  rintro e ⟨hsize, hslot⟩
  rw [evaluators_opened, evaluator_opened, hslot]
  exact ⟨hsize, slot_opened hd⟩

theorem evaluating_of_reaches {u : State H .body} (hd : d.Ready w s) (hb : (β.perform b).EvaluatesBy (w.Over s))
    (hu : Reaches β (ofRequest (d.opened w s) (.perform b)) u) :
    Evaluating β (w.Over s) u ∧ (d.opened w s).Counting u.world :=
  (Evaluating.asked _ hb).reaches (off_opened hd) hu

theorem finishes_iff_alone {u : State H .body} {job : Job} {q : Except (Panic H) (Except EvalError Value)}
    (hd : d.Ready w s) (hb : (β.perform b).EvaluatesBy (w.Over s))
    (hu : Reaches β (ofRequest (d.opened w s) (.perform b)) u) (he : w.Over s e) :
    Finishes β (job.start u.world e) w' q ↔
      ∃ own ending,
        Finishes Evaluation.behaviour (job.start (w.alone e) Evaluation.evaluator) own (Ending.lift ending) ∧
          q = ending.lift ∧ w' = u.world.countFrames e (own.frames Evaluation.evaluator) := by
  obtain ⟨-, hcounting⟩ := evaluating_of_reaches hd hb hu
  have hoff := ((off_opened hd).of_counting hcounting e he).2
  have halone : (d.opened w s).alone e = w.alone e := by
    simp only [World.alone, evaluator_opened]
  rw [World.finishes_iff_alone hoff, World.alone_of_counting hcounting, halone]

theorem inert_of_counting (h : (d.opened w s).Counting v) : w.Inert v :=
  (World.Inert.of_books (books_opened ..)).trans h.inert

theorem always_inert (hd : d.Ready w s) (hb : (β.perform b).EvaluatesBy (w.Over s)) :
    Always β (fun u => (u.kind = .evaluation ∨ u.kind = .body) ∧ w.Inert u.world) (d.start w s b) := by
  have hbody : Always β (fun u => (u.kind = .evaluation ∨ u.kind = .body) ∧ w.Inert u.world)
      ((ofRequest (d.opened w s) (.perform b)).under (d.rest w s)) := by
    refine .under (fun u hu => ?_) fun w₁ r hf => ?_
    · obtain ⟨hevaluating, hcounting⟩ := evaluating_of_reaches hd hb hu
      exact ⟨hevaluating.kind, inert_of_counting hcounting⟩
    · have hw₁ : w.Inert w₁ := inert_of_counting (evaluating_of_reaches hd hb hf.reaches).2
      cases d with
      | guard =>
        have hclosed := hw₁.trans (.of_books (World.books_closeGuard w₁ s (w.slot s)))
        exact .step ⟨.inr rfl, hw₁⟩ (step_restore ..) (.returning ⟨.inr rfl, hclosed⟩)
      | scope c =>
        cases r with
        | error panic => exact .step ⟨.inr rfl, hw₁⟩ rfl (.returning (r := .error panic) ⟨.inr rfl, hw₁⟩)
        | ok a =>
          have hexited : w.Inert (w₁.exit c).2 := hw₁.trans (.of_books (World.books_exit w₁ c))
          refine .step ⟨.inr rfl, hw₁⟩ rfl (.step ⟨.inr rfl, hw₁⟩ rfl (.step ⟨.inr rfl, hexited⟩ rfl ?_))
          exact .returning (r := .ok a) ⟨.inr rfl, hexited⟩
  have hw : w.Inert w := .of_books rfl
  cases d with
  | guard => exact .step ⟨.inr rfl, hw⟩ rfl hbody
  | scope c => exact .step ⟨.inr rfl, hw⟩ rfl (.step ⟨.inr rfl, .of_books (World.books_enter w c)⟩ rfl hbody)

theorem finishes_iff_runsApart (hd : d.Ready w s) (hb : (β.perform b).EvaluatesBy (w.Over s)) :
    Finishes β (d.start w s b) w' r ↔
      ∃ w₁, (β.perform b).RunsApart (d.opened w s) w₁ r ∧ w' = d.closed w₁ s (w.slot s) r := by
  have hperform (w₁ : World H) : Finishes β (ofRequest (d.opened w s) (.perform b)) w₁ r ↔
      (β.perform b).RunsApart (d.opened w s) w₁ r :=
    (Reaches.step rfl).finishes_iff.trans (script_finishes_iff (k := .body) (off_opened hd) hb)
  simp only [finishes_iff, hperform]

end Disabling

namespace World

theorem ahead_closeGuard (hs : s.index < w.slots.cells.size) (h : (w.openGuard s .null).Counting v) :
    ∃ δ past', Ahead δ w.journal past' w (v.closeGuard s (w.slot s)) := by
  obtain ⟨δ, evaluators, hahead, rfl⟩ := h
  obtain ⟨j, hopened⟩ := log_eq (w.install s .null) .trace (.scopeOpened (w.slot s))
  rw [openGuard, hopened] at hahead ⊢
  obtain ⟨past', hclosed⟩ := log_eq { w.install s .null with evaluators, journal := j } .trace (.scopeClosed (w.slot s))
  refine ⟨δ, past', ?_⟩
  have hrestored : closeGuard { w.install s .null with evaluators, journal := j } s (w.slot s) =
      { w with evaluators, journal := past' } := by
    rw [closeGuard, hclosed]
    simp only [install, slot, Table.set_set_get _ hs]
  rw [hrestored]
  exact .of_eq hahead

theorem ahead_exit {c : ScopeId} (hs : s.index < w.slots.cells.size) (hc : c.index < w.scopes.cells.size)
    (hscope : w.scope c = ⟨s, .null, none⟩) (h : (w.enter c).2.Counting v) :
    ∃ δ past', Ahead δ w.journal past' w (v.exit c).2 := by
  obtain ⟨δ, evaluators, hahead, rfl⟩ := h
  obtain ⟨j, hentered⟩ := log_eq (w.install s .null) .trace (.scopeEntered (w.slot s))
  have henter : (w.enter c).2 = { (w.install s .null).setScope c ⟨s, .null, w.slot s⟩ with journal := j } := by
    simp only [enter, hscope, hentered]
    rfl
  rw [henter] at hahead ⊢
  let left : World H := { (w.install s .null).setScope c ⟨s, .null, w.slot s⟩ with evaluators, journal := j }
  obtain ⟨past', hleft⟩ := log_eq (left.setScope c ⟨s, .null, none⟩) .trace (.scopeExited (w.slot s))
  refine ⟨δ, past', ?_⟩
  have hactive : left.scope c = ⟨s, .null, w.slot s⟩ := Table.get_set_self ..
  have hslots : (w.slots.set s.index .null).set s.index (w.slot s) = w.slots := Table.set_set_get _ hs _
  have hscopes : (w.scopes.set c.index ⟨s, .null, w.slot s⟩).set c.index ⟨s, .null, none⟩ = w.scopes :=
    hscope ▸ Table.set_set_get _ hc _
  have hrestored : (left.exit c).2 = { w with evaluators, journal := past' } := by
    simp only [exit, hactive, hleft]
    simp only [left, install, setScope, hslots, hscopes]
  rw [hrestored]
  exact .of_eq hahead

end World

theorem Disabling.ahead {d : Disabling} {w₁ : World H} {r : Except (Panic H) H.Report}
    (hs : s.index < w.slots.cells.size) (hd : d.Ready w s) (hr : d.Closes r) (h : (d.opened w s).Counting w₁) :
    ∃ δ past', World.Ahead δ w.journal past' w (d.closed w₁ s (w.slot s) r) := by
  cases d with
  | guard => exact World.ahead_closeGuard hs h
  | scope c =>
    obtain ⟨a, rfl⟩ := hr
    exact World.ahead_exit hs hd.1 hd.2 h

/-- But for counted frames and the log, `w'` is `w`. -/
def World.Resumes (β : Behaviour H) (w w' : World H) : Prop :=
  ∃ δ past', World.Ahead δ w.journal past' w w' ∧ (β.Respects .blind → ∀ {k} (q : Request H k) n,
    ((ofRequest w q).run β n).Matches (World.Ahead δ w.journal past') ((ofRequest w' q).run β n) ∧
      (ofRequest w' q).events β n = (ofRequest w q).events β n)

/-- How a body goes that is run in `w` with interception off for slot `s`. -/
structure Disabling.Isolates (d : Disabling) (β : Behaviour H) (w : World H) (s : SlotId) (b : H.Body) : Prop where
  unseen : ∀ {u}, Reaches β (d.start w s b) u → (u.kind = .evaluation ∨ u.kind = .body) ∧ w.Inert u.world
  alone : ∀ {u}, Reaches β (ofRequest (d.opened w s) (.perform b)) u → ∀ {e} {job : Job}, w.Over s e → ∀ {w' r},
    Finishes β (job.start u.world e) w' r ↔
      ∃ own q, Finishes Evaluation.behaviour (job.start (w.alone e) Evaluation.evaluator) own (Ending.lift q) ∧
        r = q.lift ∧ w' = u.world.countFrames e (own.frames Evaluation.evaluator)
  apart : ∀ {w' r}, Finishes β (d.start w s b) w' r ↔
    ∃ w₁, (β.perform b).RunsApart (d.opened w s) w₁ r ∧ w' = d.closed w₁ s (w.slot s) r
  slot : ∀ {w' r}, Finishes β (d.start w s b) w' r → d.Closes r → w'.slot s = w.slot s
  resumes : ∀ {w' r}, Finishes β (d.start w s b) w' r → d.Closes r → w.Resumes β w'

theorem Disabling.resumes {d : Disabling} {b : H.Body} {r : Except (Panic H) H.Report}
    (hs : s.index < w.slots.cells.size) (hd : d.Ready w s) (hb : (β.perform b).EvaluatesBy (w.Over s))
    (hf : Finishes β (d.start w s b) w' r) (hr : d.Closes r) : w'.slot s = w.slot s ∧ w.Resumes β w' := by
  obtain ⟨w₁, hbody, rfl⟩ := Disabling.finishes_iff.mp hf
  have hcounting := (Disabling.evaluating_of_reaches hd hb hbody.reaches).2
  obtain ⟨δ, past', hahead⟩ := Disabling.ahead hs hd hr hcounting
  exact ⟨hahead.slot s, δ, past', hahead, fun hβ _ q n => hahead.runs hβ q n⟩

/-- A body that evaluates with interception off is never seen to consult a hook, a converter or a compiler. Its
evaluations end as they do alone, and when it is closed, the world is the one from before but for counted frames and
the log. -/
theorem disabled_body_inert {d : Disabling} {b : H.Body} (hs : s.index < w.slots.cells.size) (hd : d.Ready w s)
    (hb : (β.perform b).EvaluatesBy (w.Over s)) : d.Isolates β w s b where
  unseen := Disabling.always_inert hd hb _
  alone hu _ _ he _ _ := Disabling.finishes_iff_alone hd hb hu he
  apart := Disabling.finishes_iff_runsApart hd hb
  slot hf hr := (Disabling.resumes hs hd hb hf hr).1
  resumes hf hr := (Disabling.resumes hs hd hb hf hr).2

namespace HookedBody

abbrev host : Host := ⟨Unit, Empty, Empty, Except EvalError Value, Unit, Empty, Empty, Unit⟩

def no : Code := .make ⟨2⟩ ⟨"no", 0, 0, #[0x04, 0x33]⟩

def behaviour : Behaviour host :=
  ⟨fun _ _ => .done (.ok (.replace ⟨no, .always⟩)), nofun, nofun, fun _ =>
    .ask (.evaluate ⟨0⟩ 0 #[]) fun _ => .ask (.evaluate ⟨0⟩ 0 #[]) .done⟩

def world : World host :=
  { World.empty none () with
    slots := ⟨#[.active ⟨0⟩]⟩
    handlers := ⟨#[.custom ()]⟩
    scopes := ⟨#[⟨.thread, .null, none⟩]⟩
    evaluators := ⟨#[{ program := .ofSources [⟨"yes", 0, 0, #[0x03, 0x33]⟩], slot := .thread, maxDepth := 1 }]⟩ }

theorem behaviour_blind : behaviour.Respects .blind := by
  refine ⟨fun _ _ => trivial, nofun, nofun, fun _ _ _ => trivial⟩

theorem disabled_body_inert_hooked :
    ∃ w', Finishes behaviour ((Disabling.scope ⟨0⟩).start world .thread ()) w' (.ok (.ok (.bool true))) ∧
      w'.slot .thread = .active ⟨0⟩ ∧ w'.frames ⟨0⟩ = 2 ∧
      ∃ v, Finishes behaviour (ofRequest w' (.evaluate ⟨0⟩ 0 #[])) v (.ok (.ok (.bool false))) := by
  have hf : Finishes behaviour ((Disabling.scope ⟨0⟩).start world .thread ()) _ (.ok (.ok (.bool true))) := ⟨30, rfl⟩
  have hb : (behaviour.perform ()).EvaluatesBy (world.Over .thread) := by
    have he : world.Over .thread ⟨0⟩ := ⟨by decide, rfl⟩
    exact ⟨⟨_, _, .call, he⟩, fun _ => ⟨⟨_, _, .call, he⟩, fun _ => trivial⟩⟩
  have hisolates := disabled_body_inert (by decide) (d := .scope ⟨0⟩) ⟨by decide, rfl⟩ hb
  obtain ⟨δ, past', -, hruns⟩ := hisolates.resumes hf ⟨_, rfl⟩
  have hreplaced : (ofRequest world (.evaluate ⟨0⟩ 0 #[])).run behaviour 20 = .finished _ (.ok (.ok (.bool false))) :=
    rfl
  have hmatches := (hruns behaviour_blind (.evaluate ⟨0⟩ 0 #[]) 20).1
  rw [hreplaced] at hmatches
  rcases hmatches.cases with ⟨_, _, h, -⟩ | ⟨_, v, r, hw, hv, -⟩
  · cases h
  · cases hw
    exact ⟨_, hf, hisolates.slot hf ⟨_, rfl⟩, rfl, v, 20, hv⟩

end HookedBody

end Interception
