import Interception.Proofs.EagerPipeline

namespace Interception

open State

variable {H : Host}

inductive Demand
  | evaluate (job : Job)
  | invalidate (c : ConverterId) (code : CodeId)

inductive Serves (β : Behaviour H) (e : EvaluatorId) :
    World H → List Demand → List (Except (Panic H) (Except EvalError Value) × Nat) → World H → Prop
  | nil {w} : Serves β e w [] [] w
  | evaluate {w w₁ w' ds answers r n} {job : Job} (hf : Finishes β (job.start w e) w₁ r)
    (hn : n = (w₁.evaluator e).usage.frames - (w.evaluator e).usage.frames) (hs : Serves β e w₁ ds answers w') :
    Serves β e w (.evaluate job :: ds) ((r, n) :: answers) w'
  | invalidate {w c code ds answers w'} (hs : Serves β e ((Command.invalidate c code).run w).2 ds answers w') :
    Serves β e w (.invalidate c code :: ds) answers w'

def Demanded (p : Program) (ds : List Demand) (c : Code) : Prop :=
  c ∈ p.functions ∨ ∃ f : Frame, .evaluate (.frame f) ∈ ds ∧ f.code = c

variable {β : Behaviour H} {e : EvaluatorId} {w w' : World H} {job : Job} {p : Program} {maxDepth n : Nat}

open World

namespace World

variable {c : ConverterId}

theorem slot_invalidate (w : World H) (c : ConverterId) (code : CodeId) (s : SlotId) :
    ((Command.invalidate c code).run w).2.slot s = w.slot s := by
  simp only [Command.run]
  cases w.converter c <;> rfl

theorem restores_invalidate (w : World H) (e : EvaluatorId) (c : ConverterId) (code : CodeId) :
    w.Restores e ((Command.invalidate c code).run w).2 :=
  ⟨congrArg Evaluator.setup (evaluator_of_fixtures (fixtures_invalidate w c code) e), slot_invalidate ..⟩

theorem EagerConverter.invalidate {known : Code → Prop} (hw : w.EagerConverter (Cache.Sound known) c)
    (c' : ConverterId) (code : CodeId) :
    ((Command.invalidate c' code).run w).2.EagerConverter (Cache.Sound known) c := by
  simp only [Command.run]
  cases hc' : w.converter c' with
  | eager refused => exact hw
  | custom script => exact hw
  | caching inner' cache' =>
    have hother {i : ConverterId} {refused : List Opcode} (hi : w.converter i = .eager refused) :
        (w.setConverter c' (.caching inner' (cache'.invalidate code))).converter i = .eager refused := by
      rw [converter_setConverter_ne, hi]
      rintro rfl
      cases hc'.symm.trans hi
    cases hw with
    | eager hc => exact .eager (hother hc)
    | caching hc hi hok =>
      by_cases h : c' = c
      · subst h
        cases hc'.symm.trans hc
        exact .caching (converter_setConverter_self ..) (hother hi) (hok.invalidate code)
      · exact .caching ((converter_setConverter_ne w _ h).trans hc) (hother hi) hok

end World

theorem World.Counts.growth (h : w.Counts e n w') :
    n = (w'.evaluator e).usage.frames - (w.evaluator e).usage.frames := by
  rw [h.1, Nat.add_sub_cancel_left]

section

variable {known : Code → Prop} (hids : ∀ c c', known c → known c' → c.id = c'.id → c = c')
  (hp : ∀ c ∈ p.functions, known c) {h : HandlerId} {d : Dispatch} {v : World H} {ds : List Demand}
  {answers : List (Except (Panic H) (Except EvalError Value) × Nat)}

include hids hp

theorem serves_iff_plain (hw : w.Equipped e p maxDepth (.active h)) (hv : v.Equipped e p maxDepth .null)
    (hpipe : w.EagerPipeline (Cache.Sound known) h d) (hds : ∀ job, .evaluate job ∈ ds → job.Known known) :
    (∃ w', Serves β e w ds answers w') ↔ ∃ v', Serves β e v ds answers v' := by
  induction ds generalizing w v answers with
  | nil =>
    constructor
    · rintro ⟨_, ⟨⟩⟩
      exact ⟨v, .nil⟩
    · rintro ⟨_, ⟨⟩⟩
      exact ⟨w, .nil⟩
  | cons demand ds ih =>
    have hrest : ∀ job, Demand.evaluate job ∈ ds → job.Known known :=
      fun job hjob => hds job (List.mem_cons_of_mem _ hjob)
    cases demand with
    | evaluate job =>
      have hj := hds job List.mem_cons_self
      have hplain {n : Nat} {q : Ending} (hq : Computes p maxDepth job n q) :
          Finishes β (job.start v e) (v.countFrames e n) q.lift := (hq.evaluates hv).finishes
      have hv' (n : Nat) := hv.of_restores (restores_countFrames v e n)
      constructor
      · rintro ⟨w', hserves⟩
        cases hserves with | evaluate hf hn hs
        have he := finishes_iff_evaluates.mp hf
        obtain ⟨n, q, hq, rfl, hpipe₁, hcounts⟩ := he.computes_counted hids hp hw hpipe hj
        obtain ⟨v', hv₁⟩ := (ih (hw.of_restores he.restores) (hv' n) hpipe₁ hrest).mp ⟨w', hs⟩
        rw [← hcounts.growth] at hn
        exact ⟨v', .evaluate (hplain hq) (hn.trans (counts_countFrames v e n).growth) hv₁⟩
      · rintro ⟨v', hserves⟩
        cases hserves with | evaluate hf hn hs
        obtain ⟨n, q, hq, rfl, rfl⟩ := (finishes_iff_computes hv).mp hf
        obtain ⟨w₁, he⟩ := hq.evaluates_eagerly (β := β) hids hp hw hpipe hj
        obtain ⟨n', q', hq', -, hpipe₁, hcounts⟩ := he.computes_counted hids hp hw hpipe hj
        obtain ⟨rfl, -⟩ := hq.unique hq'
        obtain ⟨w', hw'⟩ := (ih (hw.of_restores he.restores) (hv' n) hpipe₁ hrest).mpr ⟨v', hs⟩
        rw [← (counts_countFrames v e n).growth] at hn
        exact ⟨w', .evaluate he.finishes (hn.trans hcounts.growth) hw'⟩
    | invalidate c code =>
      have hw₁ := hw.of_restores (restores_invalidate w e c code)
      have hv₁ := hv.of_restores (restores_invalidate v e c code)
      have hpipe₁ := hpipe.of_fixtures (fixtures_invalidate w c code) (hpipe.converter.invalidate c code)
      constructor
      · rintro ⟨w', hserves⟩
        cases hserves with | invalidate hs
        obtain ⟨v', hv'⟩ := (ih hw₁ hv₁ hpipe₁ hrest).mp ⟨w', hs⟩
        exact ⟨v', .invalidate hv'⟩
      · rintro ⟨v', hserves⟩
        cases hserves with | invalidate hs
        obtain ⟨w', hw'⟩ := (ih hw₁ hv₁ hpipe₁ hrest).mpr ⟨v', hs⟩
        exact ⟨w', .invalidate hw'⟩

theorem Serves.guardFailures_eq (hs : Serves β e w ds answers w') (hw : w.Equipped e p maxDepth (.active h))
    (hpipe : w.EagerPipeline (Cache.Sound known) h d) (hds : ∀ job, .evaluate job ∈ ds → job.Known known) :
    (w'.evaluator e).usage.guardFailures = (w.evaluator e).usage.guardFailures := by
  induction hs with
  | nil => rfl
  | evaluate hf _ _ ih =>
    have he := finishes_iff_evaluates.mp hf
    obtain ⟨_, _, -, -, hpipe₁, hcounts⟩ := he.computes_counted hids hp hw hpipe (hds _ List.mem_cons_self)
    have hrest := ih (hw.of_restores he.restores) hpipe₁ fun job hjob => hds job (List.mem_cons_of_mem _ hjob)
    exact hrest.trans hcounts.2
  | @invalidate w c code _ _ _ _ ih =>
    have hpipe₁ := hpipe.of_fixtures (fixtures_invalidate w c code) (hpipe.converter.invalidate c code)
    have hrest := ih (hw.of_restores (restores_invalidate ..)) hpipe₁ fun job hjob =>
      hds job (List.mem_cons_of_mem _ hjob)
    rw [hrest, evaluator_of_fixtures (fixtures_invalidate w c code)]

end

/-- A dispatcher over the eager converter, with a fresh cache or none, and the eager compiler is invisible, through
invalidations and beyond the limit of the cache. -/
theorem eager_pipeline_invisible (β : Behaviour H) (w : World H) (e : EvaluatorId) (h : HandlerId) (d : Dispatch)
    (ds : List Demand) (answers : List (Except (Panic H) (Except EvalError Value) × Nat))
    (hs : w.slot (w.evaluator e).slot = .active h) (hpipe : w.EagerPipeline (·.entries = []) h d)
    (hids : ∀ c c', Demanded (w.evaluator e).program ds c → Demanded (w.evaluator e).program ds c' →
      c.id = c'.id → c = c') :
    ((∃ w', Serves β e w ds answers w') ↔
        ∃ w', Serves β e (w.install (w.evaluator e).slot .null) ds answers w') ∧
      ∀ w', Serves β e w ds answers w' →
        (w'.evaluator e).usage.guardFailures = (w.evaluator e).usage.guardFailures := by
  have hw : w.Equipped e (w.evaluator e).program (w.evaluator e).maxDepth (.active h) := ⟨rfl, rfl, hs⟩
  have hsound : w.EagerPipeline (Cache.Sound (Demanded (w.evaluator e).program ds)) h d :=
    ⟨hpipe.handler, hpipe.compiler, hpipe.converter.mono fun _ => Cache.sound_of_entries_nil⟩
  have hds : ∀ job, .evaluate job ∈ ds → job.Known (Demanded (w.evaluator e).program ds) := by
    intro job hjob
    cases job with
    | frame f => exact .inr ⟨f, hjob, rfl⟩
    | call function args => trivial
    | body a => trivial
  have hp : ∀ c ∈ (w.evaluator e).program.functions, Demanded (w.evaluator e).program ds c := fun c hc => .inl hc
  constructor
  · exact serves_iff_plain hids hp hw (w.equipped_install e .null) hsound hds
  · intro w' hw'
    exact hw'.guardFailures_eq hids hp hw hsound hds

namespace SmallCache

def program : Program :=
  .ofSources [⟨"outer", 0, 0, #[0x03, 0x32, 1, 0, 0, 0, 1, 0x33]⟩, ⟨"inner", 1, 1, #[0x10, 0, 0, 0x33]⟩]

def world : World Evaluation.host :=
  { slots := ⟨#[.active ⟨0⟩]⟩
    handlers := ⟨#[.dispatch ⟨⟨0⟩, ⟨0⟩, {}, ⟨0⟩⟩]⟩
    converters := ⟨#[.caching ⟨1⟩ { limit := 1 }, .eager [.call]]⟩
    compilers := ⟨#[.eager]⟩
    evaluators := ⟨#[{ program, slot := .thread, maxDepth := 3 }]⟩
    host := () }

def demands : List Demand :=
  [.evaluate (.call 0 #[]), .evaluate (.call 1 #[.null]), .evaluate (.call 1 #[.bool false]), .invalidate ⟨0⟩ ⟨2⟩,
    .evaluate (.call 0 #[])]

def answers : List (Except (Panic Evaluation.host) (Except EvalError Value) × Nat) :=
  [(.ok (.ok (.bool true)), 2), (.ok (.ok .null), 1), (.ok (.ok (.bool false)), 1), (.ok (.ok (.bool true)), 2)]

theorem eager_pipeline_invisible_smallCache :
    ∃ w', Serves Evaluation.behaviour Evaluation.evaluator world demands answers w' ∧
      (w'.evaluator Evaluation.evaluator).usage.guardFailures = 0 := by
  have hids : ∀ c c', Demanded program demands c → Demanded program demands c' → c.id = c'.id → c = c' := by
    have hcodes (c : Code) (hc : Demanded program demands c) : c ∈ program.functions := by
      rcases hc with hc | ⟨f, hf, -⟩
      · exact hc
      · simp [demands] at hf
    have hdistinct : ∀ c ∈ program.functions, ∀ c' ∈ program.functions, c.id = c'.id → c = c' := by decide
    exact fun c c' hc hc' => hdistinct c (hcodes c hc) c' (hcodes c' hc')
  have hpipe : world.EagerPipeline (·.entries = []) ⟨0⟩ ⟨⟨0⟩, ⟨0⟩, {}, ⟨0⟩⟩ := ⟨rfl, rfl, .caching rfl rfl rfl⟩
  have hinvisible := eager_pipeline_invisible Evaluation.behaviour world Evaluation.evaluator _ _ demands answers
    rfl hpipe hids
  have hplain : ∃ w',
      Serves Evaluation.behaviour Evaluation.evaluator (world.install .thread .null) demands answers w' := by
    apply Exists.intro
    refine .evaluate ⟨20, rfl⟩ ?_ (.evaluate ⟨20, rfl⟩ ?_ (.evaluate ⟨20, rfl⟩ ?_ (.invalidate
      (.evaluate ⟨20, rfl⟩ ?_ .nil))))
    all_goals rfl
  obtain ⟨w', hserves⟩ := hinvisible.1.mpr hplain
  exact ⟨w', hserves, hinvisible.2 w' hserves⟩

end SmallCache

end Interception
