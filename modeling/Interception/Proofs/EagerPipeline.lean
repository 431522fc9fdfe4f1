import Interception.Proofs.Cache
import Interception.Proofs.Calls
import Interception.Proofs.Computes

namespace Interception

open State

variable {H : Host} {β : Behaviour H} {e : EvaluatorId} {w w' w'' : World H} {job : Job} {f : Frame}
  {r : Except (Panic H) (Except EvalError Value)} {p : Program} {maxDepth n : Nat} {q : Ending} {c : ConverterId}
  {b : CompilerId}

namespace World

theorem converters_openGuard (w : World H) (s : SlotId) (h : Hook) :
    (w.openGuard s h).converters = w.converters := converters_log ..

theorem converters_closeGuard (w : World H) (s : SlotId) (h : Hook) :
    (w.closeGuard s h).converters = w.converters := converters_log ..

inductive EagerConverter (ok : Cache → Prop) (w : World H) (c : ConverterId) : Prop
  | eager {refused} (hc : w.converter c = .eager refused)
  | caching {inner refused cache} (hc : w.converter c = .caching inner cache)
    (hi : w.converter inner = .eager refused) (hok : ok cache)

structure EagerPipeline (ok : Cache → Prop) (w : World H) (h : HandlerId) (d : Dispatch) : Prop where
  handler : w.handler h = .dispatch d
  compiler : w.compiler d.compiler = .eager
  converter : w.EagerConverter ok d.converter

variable {ok : Cache → Prop} {h : HandlerId} {d : Dispatch}

theorem EagerConverter.of_converters (hw : w.EagerConverter ok c) (hc : w'.converters = w.converters) :
    w'.EagerConverter ok c := by
  have heq := converter_of_converters hc
  cases hw with
  | eager h => exact .eager ((heq c).trans h)
  | caching h hi hok => exact .caching ((heq c).trans h) ((heq _).trans hi) hok

theorem EagerPipeline.setUsage (hw : w.EagerPipeline ok h d) (e : EvaluatorId) (usage : Usage) :
    (w.setUsage e usage).EagerPipeline ok h d := ⟨hw.handler, hw.compiler, hw.converter.of_converters rfl⟩

theorem EagerPipeline.of_fixtures (hw : w.EagerPipeline ok h d) (hf : w'.fixtures = w.fixtures)
    (hc : w'.EagerConverter ok d.converter) : w'.EagerPipeline ok h d :=
  ⟨(handler_of_fixtures hf h).trans hw.handler, (compiler_of_fixtures hf _).trans hw.compiler, hc⟩

theorem EagerConverter.mono {ok' : Cache → Prop} (hw : w.EagerConverter ok c)
    (hok : ∀ cache, ok cache → ok' cache) : w.EagerConverter ok' c := by
  cases hw with
  | eager hc => exact .eager hc
  | caching hc hi h => exact .caching hc hi (hok _ h)

end World

open World

def Conversion.ofCompiled (ts : List Tag) : Except CompileError Code → Conversion
  | .ok code => .converted ⟨code, .argTags ts⟩
  | .error cause => .failed (.compilation cause)

theorem compile_eager (hb : w.compiler b = .eager) (code : Code) :
    Finishes β (ofRequest w (.compile b code))
      (w.log .debug (.compiled code.name code.instructionCount code.body.size)) (.ok (.ok code)) := by
  have hbegin : (ofRequest w (.compile b code)).step β =
      .running (returning (w.log .debug (.compiled code.name code.instructionCount code.body.size)) .nil
        (.ok (.ok code))) := by
    simp only [ofRequest, step, begin, hb]
    rfl
  exact (Reaches.step hbegin).finishes finishes_returning

theorem convert_refused {refused : List Opcode} {reason : String} (hc : w.converter c = .eager refused)
    (hr : f.code.refusal? refused = some reason) :
    Finishes β (ofRequest w (.convert c b f)) w (.ok (.declined reason)) := by
  have hbegin : (ofRequest w (.convert c b f)).step β =
      .running (returning w .nil (.ok (.declined reason))) := by
    simp only [ofRequest, step, begin, hc, hr]
    rfl
  exact (Reaches.step hbegin).finishes finishes_returning

theorem convert_compiled {refused : List Opcode} {compiled : Except CompileError Code}
    (hc : w.converter c = .eager refused) (hr : f.code.refusal? refused = none)
    (hf : Finishes β (ofRequest w (.compile b f.code)) w' (.ok compiled)) :
    Finishes β (ofRequest w (.convert c b f)) w' (.ok (.ofCompiled f.argTags compiled)) := by
  have hbegin : (ofRequest w (.convert c b f)).step β =
      .running ((ofRequest w (.compile b f.code)).under (.cons (.guarded f) .nil)) := by
    simp only [ofRequest, step, begin, hc, hr]
    rfl
  have hguarded := (Reaches.step hbegin).trans (hf.under _)
  refine hguarded.finishes ⟨2, ?_⟩
  cases compiled <;> rfl

theorem convert_eager {refused : List Opcode} (hc : w.converter c = .eager refused) (hb : w.compiler b = .eager)
    (f : Frame) : ∃ w' a, Finishes β (ofRequest w (.convert c b f)) w' (.ok a) ∧
      a.Own f ∧ w'.fixtures = w.fixtures ∧ w'.converters = w.converters := by
  cases hr : f.code.refusal? refused with
  | some reason => exact ⟨w, .declined reason, convert_refused hc hr, trivial, rfl, rfl⟩
  | none =>
    have happlies : Replacement.applies ⟨f.code, .argTags f.argTags⟩ f := by
      simp [Replacement.applies, Guard.holds]
    exact ⟨_, _, convert_compiled hc hr (compile_eager hb f.code), ⟨rfl, happlies⟩, fixtures_log ..,
      converters_log ..⟩

theorem convert_remembered {inner : ConverterId} {cache cache' : Cache} {a : Conversion}
    (hc : w.converter c = .caching inner cache) (hl : cache.lookup ⟨f.code.id, b⟩ f = (some a, cache')) :
    Finishes β (ofRequest w (.convert c b f)) (w.setConverter c (.caching inner cache')) (.ok a) := by
  have hbegin : (ofRequest w (.convert c b f)).step β =
      .running (returning (w.setConverter c (.caching inner cache')) .nil (.ok a)) := by
    simp only [ofRequest, step, begin, hc, hl]
    rfl
  exact (Reaches.step hbegin).finishes finishes_returning

theorem convert_asked {inner inner₁ : ConverterId} {cache cache' cache₁ : Cache} {a : Conversion} {w₁ : World H}
    (hc : w.converter c = .caching inner cache)
    (hl : cache.lookup ⟨f.code.id, b⟩ f = (none, cache'))
    (hi : Finishes β (ofRequest (w.setConverter c (.caching inner cache')) (.convert inner b f)) w₁ (.ok a))
    (hc₁ : w₁.converter c = .caching inner₁ cache₁) :
    Finishes β (ofRequest w (.convert c b f))
      (w₁.setConverter c (.caching inner₁ (cache₁.store ⟨f.code.id, b⟩ f a).2))
      (.ok (cache₁.store ⟨f.code.id, b⟩ f a).1) := by
  have hbegin : (ofRequest w (.convert c b f)).step β = .running
      ((ofRequest (w.setConverter c (.caching inner cache')) (.convert inner b f)).under
        (.cons (.remember c ⟨f.code.id, b⟩ f) .nil)) := by
    simp only [ofRequest, step, begin, hc, hl]
    rfl
  have hstore : (returning (k := .conversion) w₁ (.cons (.remember c ⟨f.code.id, b⟩ f) .nil) (.ok a)).step β =
      .running (returning (w₁.setConverter c (.caching inner₁ (cache₁.store ⟨f.code.id, b⟩ f a).2)) .nil
        (.ok (cache₁.store ⟨f.code.id, b⟩ f a).1)) := by
    simp only [returning, Task.ofResult, step, deliver, hc₁]
  exact (Reaches.step hbegin).finishes ((hi.under _).finishes ((Reaches.step hstore).finishes finishes_returning))

/-- The frame's own code in place of itself, under a guard that holds, or nothing. -/
def Decision.Own (f : Frame) : Decision → Prop
  | replace r => r.code = f.code ∧ r.applies f
  | fallback => True

section

variable {known : Code → Prop} (hids : ∀ c c', known c → known c' → c.id = c'.id → c = c') (hf : known f.code)

include hids hf

theorem World.EagerConverter.converts (hw : w.EagerConverter (Cache.Sound known) c) (hb : w.compiler b = .eager) :
    ∃ w' a, Finishes β (ofRequest w (.convert c b f)) w' (.ok a) ∧ a.Own f ∧
      w'.fixtures = w.fixtures ∧ w'.EagerConverter (Cache.Sound known) c := by
  cases hw with
  | eager hc =>
    obtain ⟨w', a, hfin, ha, hu, hconverters⟩ := convert_eager (β := β) hc hb f
    exact ⟨w', a, hfin, ha, hu, (World.EagerConverter.eager hc).of_converters hconverters⟩
  | @caching inner refused cache hc hi hok =>
    have hne : c ≠ inner := by
      rintro rfl
      cases hc.symm.trans hi
    have hlookup := hok.lookup ⟨f.code.id, b⟩ f
    have hown (a : Conversion) (ha : (cache.lookup ⟨f.code.id, b⟩ f).1 = some a) : a.Own f :=
      Cache.lookup_own hok hids hf rfl ha
    generalize hl : cache.lookup ⟨f.code.id, b⟩ f = looked at hlookup hown
    obtain ⟨found, cache'⟩ := looked
    have hself := converter_setConverter_self w c (.caching inner cache')
    have hinner := (converter_setConverter_ne w (.caching inner cache') hne).trans hi
    cases found with
    | some a => exact ⟨_, a, convert_remembered hc hl, hown a rfl, rfl, .caching hself hinner hlookup⟩
    | none =>
      obtain ⟨w₁, a, hfin, ha, hu, hconverters⟩ := convert_eager (β := β) hinner hb f
      have hinner₁ := (converter_of_converters hconverters inner).trans hinner
      have hself₁ := (converter_of_converters hconverters c).trans hself
      refine ⟨_, _, convert_asked hc hl hfin hself₁, Cache.store_own _ _ ha, hu, ?_⟩
      rw [← converter_setConverter_ne w₁ (.caching inner (cache'.store ⟨f.code.id, b⟩ f a).2) hne] at hinner₁
      exact .caching (converter_setConverter_self ..) hinner₁ (hlookup.store hf rfl ha)

theorem World.EagerPipeline.decides {h : HandlerId} {d : Dispatch} (hw : w.EagerPipeline (Cache.Sound known) h d) :
    ∃ w' decision, Finishes β (ofRequest w (.decide (.active h) f)) w' (.ok (.ok decision)) ∧ decision.Own f ∧
      w'.fixtures = w.fixtures ∧ w'.EagerPipeline (Cache.Sound known) h d := by
  have htally := fixtures_recordTally w d .intercepted
  have hconverter := hw.converter.of_converters (converters_recordTally w d .intercepted)
  have hcompiler := (compiler_of_fixtures htally d.compiler).trans hw.compiler
  obtain ⟨w₁, a, hfin, ha, hu, hconverter₁⟩ := EagerConverter.converts (β := β) hids hf hconverter hcompiler
  have hdispatch : Reaches β (ofRequest w (.dispatch d f))
      ((ofRequest (w.recordTally d .intercepted) (.convert d.converter d.compiler f)).under
        (.cons (.classify d f) .nil)) := .step rfl
  have hclassify := (reaches_dispatch hw.handler f).trans (hdispatch.trans (hfin.under _))
  cases a with
  | converted r =>
    have hfixtures := ((fixtures_recordTally w₁ d .replaced).trans hu).trans htally
    refine ⟨_, .replace r, hclassify.finishes ⟨2, rfl⟩, ha, hfixtures, hw.of_fixtures hfixtures ?_⟩
    exact hconverter₁.of_converters (converters_recordTally ..)
  | declined reason =>
    have hlog := (fixtures_log w₁ d.config.declinedLevel (.notConverted f.name reason)).trans (hu.trans htally)
    have hfixtures := (fixtures_recordTally _ d .declined).trans hlog
    refine ⟨_, .fallback, hclassify.finishes ⟨2, rfl⟩, trivial, hfixtures, hw.of_fixtures hfixtures ?_⟩
    exact hconverter₁.of_converters ((converters_recordTally ..).trans (converters_log ..))
  | failed cause => exact ha.elim

end

theorem Activation.replace?_own (f : Frame) : replace? f.code f = some (.start f) := by
  have hroom : f.code.locals ≤ maxLocals := Nat.le_trans f.code_locals_le f.size_locals_le
  have hpad : padLocals f.locals f.code.locals = f.locals := by
    rw [padLocals, Nat.sub_eq_zero_of_le f.code_locals_le, Array.replicate_zero, Array.append_empty]
  rw [replace?, if_pos hroom, hpad, start]

def World.Counts (e : EvaluatorId) (n : Nat) (w w' : World H) : Prop :=
  (w'.evaluator e).usage.frames = (w.evaluator e).usage.frames + n ∧
    (w'.evaluator e).usage.guardFailures = (w.evaluator e).usage.guardFailures

namespace World

theorem Counts.refl (w : World H) (e : EvaluatorId) : w.Counts e 0 w := ⟨rfl, rfl⟩

theorem Counts.trans {m : Nat} (h : w.Counts e m w') (h' : w'.Counts e n w'') : w.Counts e (m + n) w'' := by
  refine ⟨?_, h'.2.trans h.2⟩
  rw [h'.1, h.1, Nat.add_assoc]

theorem Counts.of_eq (h : w.Counts e n w') (hw : w''.evaluator e = w'.evaluator e) : w.Counts e n w'' := by
  rw [Counts, hw]
  exact h

theorem counts_countFrame (w : World H) (e : EvaluatorId) : w.Counts e 1 (w.countFrame e) := by
  rw [Counts, evaluator_countFrame]
  exact ⟨rfl, rfl⟩

theorem counts_countReplaced (w : World H) (e : EvaluatorId) : w.Counts e 0 (w.countReplaced e) := by
  rw [Counts, countReplaced, evaluator_setUsage_self]
  exact ⟨rfl, rfl⟩

theorem counts_countFrames (w : World H) (e : EvaluatorId) (n : Nat) : w.Counts e n (w.countFrames e n) := by
  induction n generalizing w with
  | zero => exact .refl w e
  | succ n ih =>
    have h := (counts_countFrame w e).trans (ih _)
    rw [Nat.add_comm] at h
    exact h

theorem settle_own {d : Decision} (w : World H) (e : EvaluatorId) (hd : d.Own f) :
    w.settle e f (.ok (.ok d)) = .runs w (.start f) ∨
      w.settle e f (.ok (.ok d)) = .runs (w.countReplaced e) (.start f) := by
  cases d with
  | fallback => exact .inl rfl
  | replace r =>
    obtain ⟨hcode, happlies⟩ := hd
    refine .inr ?_
    rw [settle, if_pos happlies, hcode, Activation.replace?_own]

end World

def Job.Known (known : Code → Prop) : Job → Prop
  | .frame f => known f.code
  | _ => True

theorem Job.Known.of_becomes {known : Code → Prop} {job' : Job} (hp : ∀ c ∈ p.functions, known c)
    (hm : job.move p maxDepth = .becomes job') : job'.Known known := by
  cases job with
  | call function args =>
    rw [Job.move] at hm
    split at hm
    · cases hm
    · next code hcode =>
      split at hm
      · split at hm
        · next f hframe =>
          cases hm
          rw [Known, (Frame.of_make? hframe).1]
          exact hp code (Program.mem_of_function? hcode)
        · cases hm
      · cases hm
  | frame f => exact absurd hm Job.frame_becomes
  | body a =>
    obtain ⟨b, rfl, -⟩ := Job.of_body_becomes hm
    trivial

theorem Job.Known.of_calls {known : Code → Prop} {caller : Activation} {callee : Frame}
    (hp : ∀ c ∈ p.functions, known c) (hm : job.move p maxDepth = .calls caller callee) :
    (Job.frame callee).Known known := by
  obtain ⟨a, rfl, -⟩ := Job.calls_iff.mp hm
  exact hp _ (Job.of_body_calls hm).2.1

section

variable {known : Code → Prop} (hids : ∀ c c', known c → known c' → c.id = c'.id → c = c')
  {h : HandlerId} {d : Dispatch}

include hids

theorem World.EagerPipeline.settles (hw : w.EagerPipeline (Cache.Sound known) h d) (hf : known f.code)
    (e : EvaluatorId) : ∃ w₁ decision w₂,
      Finishes β (ofRequest (w.offering e) (.decide (.active h) f)) w₁ (.ok (.ok decision)) ∧
      (w₁.closeGuard (w.evaluator e).slot (.active h)).settle e f (.ok (.ok decision)) = .runs w₂ (.start f) ∧
      w₂.EagerPipeline (Cache.Sound known) h d ∧ w.Counts e 1 w₂ := by
  have hcounted := hw.setUsage e { (w.evaluator e).usage with frames := (w.evaluator e).usage.frames + 1 }
  have hoffering : (w.offering e).EagerPipeline (Cache.Sound known) h d :=
    hcounted.of_fixtures (fixtures_openGuard ..) (hcounted.converter.of_converters (converters_openGuard ..))
  obtain ⟨w₁, decision, hfin, hd, hfixtures, hw₁⟩ := hoffering.decides (β := β) hids hf
  have hclosed : (w₁.closeGuard (w.evaluator e).slot (.active h)).EagerPipeline (Cache.Sound known) h d :=
    hw₁.of_fixtures (fixtures_closeGuard ..) (hw₁.converter.of_converters (converters_closeGuard ..))
  have hone : w.Counts e 1 (w₁.closeGuard (w.evaluator e).slot (.active h)) := by
    apply (counts_countFrame w e).of_eq
    rw [evaluator_closeGuard, evaluator_of_fixtures hfixtures, evaluator_offering]
  rcases settle_own (w₁.closeGuard (w.evaluator e).slot (.active h)) e hd with hs | hs
  · exact ⟨w₁, decision, _, hfin, hs, hclosed, hone⟩
  · exact ⟨w₁, decision, _, hfin, hs, hclosed.setUsage .., hone.trans (counts_countReplaced ..)⟩

variable (hp : ∀ c ∈ p.functions, known c)

include hp

theorem Evaluates.computes_counted (he : Evaluates β e w job w' r) (hw : w.Equipped e p maxDepth (.active h))
    (hpipe : w.EagerPipeline (Cache.Sound known) h d) (hj : job.Known known) :
    ∃ n q, Computes p maxDepth job n q ∧ r = q.lift ∧ w'.EagerPipeline (Cache.Sound known) h d ∧
      w.Counts e n w' := by
  induction he with
  | ends hm => exact ⟨0, _, .ends (hw.move _ ▸ hm), rfl, hpipe, .refl ..⟩
  | becomes hm _ ih =>
    rw [hw.move] at hm
    obtain ⟨n, q, hq, rfl, hpipe', hn⟩ := ih hw hpipe (.of_becomes hp hm)
    exact ⟨n, q, .becomes hm hq, rfl, hpipe', hn⟩
  | plain _ hs => exact absurd (hs.symm.trans hw.slot) (by simp)
  | @decided w job f h' w₁ _ w₂ a _ _ hm hs hd ht _ ih =>
    obtain rfl := hw.hook_eq hs
    have hrestores := settled_restores hm hs hd
    obtain ⟨rfl, -⟩ := Job.enters_iff.mp hm
    obtain ⟨_, decision, w₃, hd', ht', hpipe₁, hone⟩ := hpipe.settles (β := β) hids hj e
    obtain ⟨rfl, rfl⟩ := hd.unique hd'
    rw [ht] at hrestores
    obtain ⟨rfl, rfl⟩ := Settled.runs.inj (ht.symm.trans ht')
    obtain ⟨n, q, hq, rfl, hpipe', hn⟩ := ih (hw.of_restores hrestores) hpipe₁ trivial
    refine ⟨n + 1, q, .enters (hw.move _ ▸ hm) hq, rfl, hpipe', ?_⟩
    rw [Nat.add_comm]
    exact hone.trans hn
  | @dropped w job f h' w₁ d _ _ hm hs hd ht =>
    obtain rfl := hw.hook_eq hs
    obtain ⟨rfl, -⟩ := Job.enters_iff.mp hm
    obtain ⟨_, decision, w₃, hd', ht', -, -⟩ := hpipe.settles (β := β) hids hj e
    obtain ⟨rfl, rfl⟩ := hd.unique hd'
    cases ht.symm.trans ht'
  | returns hm hc _ ihc ihb =>
    rw [hw.move] at hm
    obtain ⟨m, q, hq, hlift, hpipe₁, hm'⟩ := ihc hw hpipe (.of_calls hp hm)
    obtain rfl := Ending.lift_eq_ok_iff.mp hlift.symm
    obtain ⟨n, q, hb, rfl, hpipe', hn⟩ := ihb (hw.of_restores hc.restores) hpipe₁ trivial
    exact ⟨m + n, q, .returns hm hq hb, rfl, hpipe', hm'.trans hn⟩
  | aborts hm _ hr ih =>
    rw [hw.move] at hm
    obtain ⟨n, q, hq, rfl, hpipe', hn⟩ := ih hw hpipe (.of_calls hp hm)
    exact ⟨n, q, .aborts hm hq fun v hv => hr v (Ending.lift_eq_ok_iff.mpr hv), rfl, hpipe', hn⟩

theorem Computes.evaluates_eagerly (hc : Computes p maxDepth job n q) (hw : w.Equipped e p maxDepth (.active h))
    (hpipe : w.EagerPipeline (Cache.Sound known) h d) (hj : job.Known known) :
    ∃ w', Evaluates β e w job w' q.lift := by
  induction hc generalizing w with
  | ends hm => exact ⟨w, .ends (hw.move _ ▸ hm)⟩
  | becomes hm _ ih =>
    obtain ⟨w', hw'⟩ := ih hw hpipe (.of_becomes hp hm)
    exact ⟨w', .becomes (hw.move _ ▸ hm) hw'⟩
  | enters hm _ ih =>
    rw [← hw.move] at hm
    obtain ⟨rfl, -⟩ := Job.enters_iff.mp hm
    obtain ⟨w₁, decision, w₂, hd, ht, hpipe₁, -⟩ := hpipe.settles (β := β) hids hj e
    have hrestores := settled_restores hm hw.slot hd
    rw [ht] at hrestores
    obtain ⟨w', hw'⟩ := ih (hw.of_restores hrestores) hpipe₁ trivial
    exact ⟨w', .decided hm hw.slot hd ht hw'⟩
  | returns hm _ _ ihc ihb =>
    obtain ⟨w₁, hw₁⟩ := ihc hw hpipe (.of_calls hp hm)
    obtain ⟨-, -, -, -, hpipe₁, -⟩ := hw₁.computes_counted hids hp hw hpipe (.of_calls hp hm)
    obtain ⟨w', hw'⟩ := ihb (hw.of_restores hw₁.restores) hpipe₁ trivial
    exact ⟨w', .returns (hw.move _ ▸ hm) hw₁ hw'⟩
  | aborts hm _ hq ih =>
    obtain ⟨w₁, hw₁⟩ := ih hw hpipe (.of_calls hp hm)
    exact ⟨w₁, .aborts (hw.move _ ▸ hm) hw₁ fun v hv => hq v (Ending.lift_eq_ok_iff.mp hv)⟩

end

end Interception
