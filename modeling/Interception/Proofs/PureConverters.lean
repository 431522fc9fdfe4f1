import Interception.Proofs.EagerPipeline
import Interception.Proofs.Signatures

namespace Interception

variable {H : Host} {β : Behaviour H} {limit : Nat}

namespace Cache

inductive Answers (β : Behaviour H) (c : ConverterId) :
    World H → List Inquiry → List Conversion → World H → Prop
  | nil {w} : Answers β c w [] [] w
  | convert {w w₁ w' b f a is as} (hf : State.Finishes β (.ofRequest w (.convert c b f)) w₁ (.ok a))
    (hs : Answers β c w₁ is as w') : Answers β c w (.convert b f :: is) (a :: as) w'
  | invalidate {w code is as w'} (hs : Answers β c ((Command.invalidate c code).run w).2 is as w') :
    Answers β c w (.invalidate code :: is) as w'

end Cache

open State Cache

structure Converter.Pure (β : Behaviour H) (ok : World H → Prop) (c inner : ConverterId)
    (ask : Key → List Tag → Conversion) (asked : CompilerId → Frame → Prop) : Prop where
  answers : ∀ w b f, ok w → asked b f → ∃ w', Finishes β (.ofRequest w (.convert inner b f)) w'
    (.ok (ask ⟨f.code.id, b⟩ f.argTags)) ∧ ok w' ∧ w'.converter c = w.converter c
  stable : ∀ w cache, ok w → ok (w.setConverter c (.caching inner cache))
  guards : ∀ k, Guarding (ask k)

section

variable {ok : World H → Prop} {c inner : ConverterId} {ask : Key → List Tag → Conversion}
  {asked : CompilerId → Frame → Prop} {past is : List Inquiry} {b : CompilerId} {f : Frame} {w w' : World H}
  {cache : Cache} {as : List Conversion}

theorem Converter.Pure.converts (hp : Converter.Pure β ok c inner ask asked) (hw : ok w) (hf : asked b f)
    (hc : w.converter c = .caching inner cache) (hr : cache.Remembers limit ask past) :
    ∃ w' cache', Finishes β (.ofRequest w (.convert c b f)) w'
        (.ok (reply limit (ask ⟨f.code.id, b⟩) (signatures ask ⟨f.code.id, b⟩ (past ++ [.convert b f])) f)) ∧
      ok w' ∧ w'.converter c = .caching inner cache' ∧ cache'.Remembers limit ask (past ++ [.convert b f]) := by
  have hanswered (a : Conversion) := hr.answered (b := b) (f := f) (a := a) hp.guards
  have hstored := hr.stored (b := b) (f := f) hp.guards
  generalize hl : cache.lookup ⟨f.code.id, b⟩ f = looked at hanswered hstored
  obtain ⟨found, cache'⟩ := looked
  have hself := World.converter_setConverter_self w c (.caching inner cache')
  cases found with
  | some a =>
    obtain ⟨rfl, hr'⟩ := hanswered a rfl
    exact ⟨_, cache', convert_remembered hc hl, hp.stable _ _ hw, hself, hr'⟩
  | none =>
    obtain ⟨ha, hr'⟩ := hstored rfl
    obtain ⟨w₁, hfin, hok, hkept⟩ := hp.answers _ b f (hp.stable w cache' hw) hf
    have hasked := convert_asked hc hl hfin (hkept.trans hself)
    rw [ha] at hasked
    exact ⟨_, _, hasked, hp.stable _ _ hok, World.converter_setConverter_self .., hr'⟩

theorem Converter.Pure.serves (hp : Converter.Pure β ok c inner ask asked) (hw : ok w)
    (his : ∀ b f, .convert b f ∈ is → asked b f) (hc : w.converter c = .caching inner cache)
    (hr : cache.Remembers limit ask past) :
    (∃ w', Answers β c w is (replies limit ask past is) w') ∧
      ∀ as w', Answers β c w is as w' → as = replies limit ask past is ∧
        ∃ cache', w'.converter c = .caching inner cache' ∧ cache'.Remembers limit ask (past ++ is) := by
  induction is generalizing w cache past with
  | nil =>
    refine ⟨⟨w, .nil⟩, ?_⟩
    rintro as w' ⟨⟩
    exact ⟨rfl, cache, hc, by rwa [List.append_nil]⟩
  | cons i is ih =>
    have hrest : ∀ b f, .convert b f ∈ is → asked b f := fun b f h => his b f (List.mem_cons_of_mem _ h)
    rw [List.append_cons]
    cases i with
    | convert b f =>
      obtain ⟨w₁, cache₁, hfin, hok, hc₁, hr₁⟩ := hp.converts hw (his b f List.mem_cons_self) hc hr
      obtain ⟨⟨w', hanswers⟩, hunique⟩ := ih hok hrest hc₁ hr₁
      refine ⟨⟨w', .convert hfin hanswers⟩, ?_⟩
      intro as w' h
      cases h with | convert hf hs
      obtain ⟨rfl, ha⟩ := hf.unique hfin
      obtain ⟨rfl, hcache⟩ := hunique _ _ hs
      exact ⟨by rw [Except.ok.inj ha]; rfl, hcache⟩
    | invalidate code =>
      have hrun : ((Command.invalidate c code).run w).2 =
          w.setConverter c (.caching inner (cache.invalidate code)) := by
        simp only [Command.run, hc]
      have hok := hp.stable w (cache.invalidate code) hw
      have hself := World.converter_setConverter_self w c (.caching inner (cache.invalidate code))
      obtain ⟨⟨w', hanswers⟩, hunique⟩ := ih hok hrest hself (hr.invalidated code)
      rw [← hrun] at hanswers hunique
      refine ⟨⟨w', .invalidate hanswers⟩, ?_⟩
      intro as w' h
      cases h with | invalidate hs
      exact hunique _ _ hs

end

def eagerAnswer (refused : List Opcode) (code : CodeId → Code) (compiled : CompilerId → Code → Except CompileError Code)
    (k : Key) (ts : List Tag) : Conversion :=
  match (code k.code).refusal? refused with
  | some reason => .declined reason
  | none => .ofCompiled ts (compiled k.compiler (code k.code))

theorem guarding_eagerAnswer (refused : List Opcode) (code : CodeId → Code)
    (compiled : CompilerId → Code → Except CompileError Code) (k : Key) :
    Guarding (eagerAnswer refused code compiled k) := by
  intro ts r hr
  rw [eagerAnswer] at hr
  split at hr
  · cases hr
  · cases hcompiled : compiled k.compiler (code k.code) with
    | ok replacement =>
      rw [hcompiled] at hr
      cases hr
      rfl
    | error cause =>
      rw [hcompiled] at hr
      cases hr

section

variable {ok : World H → Prop} {c inner : ConverterId} {asked : CompilerId → Frame → Prop} {refused : List Opcode}
  {code : CodeId → Code} {compiled : CompilerId → Code → Except CompileError Code}

theorem pure_eager (hinner : ∀ w, ok w → w.converter inner = .eager refused)
    (hcode : ∀ b f, asked b f → code f.code.id = f.code)
    (hcompile : ∀ w b f, ok w → asked b f → ∃ w', Finishes β (.ofRequest w (.compile b f.code)) w'
      (.ok (compiled b f.code)) ∧ ok w' ∧ w'.converter c = w.converter c)
    (hstable : ∀ w cache, ok w → ok (w.setConverter c (.caching inner cache))) :
    Converter.Pure β ok c inner (eagerAnswer refused code compiled) asked := by
  refine ⟨fun w b f hw hf => ?_, hstable, guarding_eagerAnswer refused code compiled⟩
  simp only [eagerAnswer, hcode b f hf]
  cases hr : f.code.refusal? refused with
  | some reason => exact ⟨w, convert_refused (hinner w hw) hr, hw, rfl⟩
  | none =>
    obtain ⟨w', hfin, hkept⟩ := hcompile w b f hw hf
    exact ⟨w', convert_compiled (hinner w hw) hr hfin, hkept⟩

end

/-- A fresh cache answers each frame as the converter behind it does, except that a code object is declined from the
frame on that brings one more convertible signature than the limit allows, until it is forgotten. -/
theorem cache_refines_converter {ok : World H → Prop} {c inner : ConverterId} {ask : Key → List Tag → Conversion}
    {asked : CompilerId → Frame → Prop} {is : List Inquiry} {w : World H} {cache : Cache}
    (hp : Converter.Pure β ok c inner ask asked) (hw : ok w) (his : ∀ b f, .convert b f ∈ is → asked b f)
    (hc : w.converter c = .caching inner cache) (hfresh : cache.entries = []) :
    (∃ w', Answers β c w is (replies cache.limit ask [] is) w') ∧
      ∀ as w', Answers β c w is as w' → as = replies cache.limit ask [] is ∧
        ∃ cache', w'.converter c = .caching inner cache' ∧
          ∀ k, (cache'.entry k).exhausted.isSome ↔ cache.limit < (signatures ask k is).length := by
  obtain ⟨hanswers, hunique⟩ := hp.serves hw his hc (.nil hfresh)
  refine ⟨hanswers, fun as w' h => ?_⟩
  obtain ⟨has, cache', hc', hr⟩ := hunique as w' h
  exact ⟨has, cache', hc', fun k => (hr.entries k).exhausted_iff⟩

namespace OneVariant

def code : Code := .make ⟨1⟩ ⟨"id", 1, 1, #[0x10, 0, 0, 0x33]⟩

def frame (v : Value) : Frame := ⟨code, #[v], 0, Nat.le_refl 1, (by decide : 1 ≤ maxLocals)⟩

def world : World Evaluation.host :=
  { converters := ⟨#[.caching ⟨1⟩ { limit := 1 }, .eager [.call]]⟩
    compilers := ⟨#[.eager]⟩
    host := () }

def inquiries : List Inquiry :=
  [.convert ⟨0⟩ (frame .null), .convert ⟨0⟩ (frame (.bool true)), .convert ⟨0⟩ (frame .null), .invalidate ⟨1⟩,
    .convert ⟨0⟩ (frame (.bool false))]

def exceeded : Conversion := .declined "'id' exceeded 1 cached variants"

theorem cache_refines_converter_oneVariant :
    ∃ w', Answers Evaluation.behaviour ⟨0⟩ world inquiries [.converted ⟨code, .argTags [.null]⟩, exceeded, exceeded,
      .converted ⟨code, .argTags [.bool]⟩] w' := by
  have hp : Converter.Pure Evaluation.behaviour
      (fun w => w.converter ⟨1⟩ = .eager [.call] ∧ w.compiler ⟨0⟩ = .eager) ⟨0⟩ ⟨1⟩
      (eagerAnswer [.call] (fun _ => code) fun _ => .ok) (fun b f => b = ⟨0⟩ ∧ f.code = code) := by
    apply pure_eager
    · exact fun w hw => hw.1
    · exact fun b f hf => hf.2.symm
    · rintro w b f hw ⟨rfl, -⟩
      have hlog (i : ConverterId) := World.converter_of_converters
        (World.converters_log w .debug (.compiled f.code.name f.code.instructionCount f.code.body.size)) i
      exact ⟨_, compile_eager hw.2 f.code, ⟨(hlog _).trans hw.1, World.compiler_of_fixtures
        (World.fixtures_log ..) _ |>.trans hw.2⟩, hlog _⟩
    · intro w cache hw
      exact ⟨(World.converter_setConverter_ne w _ (by decide)).trans hw.1, hw.2⟩
  have hasked : ∀ b f, .convert b f ∈ inquiries → b = ⟨0⟩ ∧ f.code = code := by
    intro b f hf
    simp only [inquiries, List.mem_cons, List.not_mem_nil, or_false, Inquiry.convert.injEq, reduceCtorEq] at hf
    rcases hf with ⟨rfl, rfl⟩ | ⟨rfl, rfl⟩ | ⟨rfl, rfl⟩ | ⟨⟨⟩⟩ | ⟨rfl, rfl⟩ <;> exact ⟨rfl, rfl⟩
  have hanswers := cache_refines_converter (w := world) hp ⟨rfl, rfl⟩ hasked rfl rfl
  have hreplies : replies 1 (eagerAnswer [.call] (fun _ => code) fun _ => .ok) [] inquiries =
      [.converted ⟨code, .argTags [.null]⟩, exceeded, exceeded, .converted ⟨code, .argTags [.bool]⟩] := by
    decide +kernel
  rw [← hreplies]
  exact hanswers.1

end OneVariant

end Interception
