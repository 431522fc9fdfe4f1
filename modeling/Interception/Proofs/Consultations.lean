import Interception.Proofs.Effects
import Interception.Proofs.Signatures
import Interception.Proofs.Visits

/-!
Consultations of the converter behind a cache. Between the lookup that finds nothing and the answer that is stored, a
consultation is open; meanwhile the cache can be asked again, even about the same frame, and can be made to forget.
-/

namespace Interception

variable {H : Host} {k l final : Kind} {β : Behaviour H}

inductive Cache.News
  | settled (key : Cache.Key) (f : Frame) (a : Conversion)
  | forgotten (code : CodeId)

def Pending.consults? (c : ConverterId) (key : Cache.Key) (p : Pending H k l) : Option Frame :=
  match p with
  | .remember c' key' f => if c' = c ∧ key' = key then some f else none
  | _ => none

/-- The frames that the converter behind the cache is being asked about, the innermost first. -/
def Stack.consulting (c : ConverterId) (key : Cache.Key) : {k : Kind} → Stack H k final → List Frame
  | _, .nil => []
  | _, .cons p stack => (p.consults? c key).toList ++ stack.consulting c key

def Stack.settles? (c : ConverterId) : {k : Kind} → Stack H k final → k.Result H → Option Cache.News
  | _, .cons (.remember c' key f) _, a => if c' = c then some (.settled key f a) else none
  | _, _, _ => none

namespace State

def news? (c : ConverterId) (s : State H final) : Option Cache.News :=
  match s with
  | ⟨_, _, stack, .answer a⟩ => stack.settles? c a
  | ⟨_, _, _, .script (.act (.invalidate c' code) _)⟩ => if c' = c then some (.forgotten code) else none
  | _ => none

def news (β : Behaviour H) (c : ConverterId) (n : Nat) (s : State H final) : List Cache.News :=
  (s.visited β n).filterMap (·.news? c)

end State

theorem Stack.consulting_cons {p : Pending H k l} (hp : ¬ p.Accounts) (c : ConverterId) (key : Cache.Key)
    (stack : Stack H l final) : (Stack.cons p stack).consulting c key = stack.consulting c key := by
  cases p with
  | settle e f => exact absurd trivial hp
  | classify d f => exact absurd trivial hp
  | remember c' key' f => exact absurd trivial hp
  | _ => rfl

theorem Stack.consulting_remember_self (c : ConverterId) (key : Cache.Key) (f : Frame)
    (stack : Stack H .conversion final) :
    (Stack.cons (.remember c key f) stack).consulting c key = f :: stack.consulting c key := by
  simp [consulting, Pending.consults?]

theorem Stack.consulting_remember_ne {c c' : ConverterId} {key key' : Cache.Key} (h : c' ≠ c ∨ key' ≠ key)
    (f : Frame) (stack : Stack H .conversion final) :
    (Stack.cons (.remember c' key' f) stack).consulting c key = stack.consulting c key := by
  have hne : ¬ (c' = c ∧ key' = key) := fun he => h.elim (· he.1) (· he.2)
  simp [consulting, Pending.consults?, hne]

namespace World

theorem converter_run {w : World H} {c inner : ConverterId} {cache : Cache} {command : Command H}
    (hc : w.converter c = .caching inner cache) (hcommand : ∀ code, command ≠ .invalidate c code) :
    (command.run w).2.converter c = w.converter c := by
  cases command with
  | invalidate c' code =>
    have hne : c' ≠ c := fun he => hcommand code (he ▸ rfl)
    simp only [Command.run]
    cases w.converter c' with
    | caching inner' cache' => exact converter_setConverter_ne w _ hne
    | _ => rfl
  | newConverter converter =>
    apply Table.get_add_old
    intro hnew
    -- the default converter is no cache
    have hdefault : w.converter c = default := by
      simp only [World.converter, Table.get, hnew]
      simp [Table.add]
    rw [hdefault] at hc
    cases hc
  | resetTally _ | newTally | newEvaluator _ _ _ => rfl
  | _ => exact converter_of_converters (congrArg Prod.fst (Command.books_run w id)) c

end World

namespace State

theorem news?_of_works {w : World H} {stack : Stack H k final} {task : Task H k} (h : task.Works)
    (c : ConverterId) : news? c ⟨w, k, stack, task⟩ = none := by
  cases task with
  | request q => rfl
  | script p =>
    cases p with
    | act command next => exact h.elim
    | _ => rfl
  | run e a => rfl
  | answer a => exact h.elim
  | unwind panic => exact h.elim

inductive Upkeep (c : ConverterId) (s t : State H final) (cache cache' : Cache) : Prop
  | idle (hnews : s.news? c = none) (hentry : ∀ key, cache'.entry key = cache.entry key)
    (hstack : ∀ key, t.stack.consulting c key <:+ s.stack.consulting c key)
  | consulted {key : Cache.Key} {f : Frame} (hnews : s.news? c = none)
    (hentry : ∀ key, cache'.entry key = cache.entry key) (hlookup : (cache.entry key).lookup? f = none)
    (hself : t.stack.consulting c key = f :: s.stack.consulting c key)
    (hstack : ∀ key', key' ≠ key → t.stack.consulting c key' = s.stack.consulting c key')
  | settled {key : Cache.Key} {f : Frame} {a : Conversion} (hnews : s.news? c = some (.settled key f a))
    (hcache : cache' = (cache.store key f a).2)
    (hself : s.stack.consulting c key = f :: t.stack.consulting c key)
    (hstack : ∀ key', key' ≠ key → t.stack.consulting c key' = s.stack.consulting c key')
  | forgotten {code : CodeId} (hnews : s.news? c = some (.forgotten code)) (hcache : cache' = cache.invalidate code)
    (hstack : ∀ key, t.stack.consulting c key = s.stack.consulting c key)

theorem news?_returning {w : World H} {p : Pending H k l} {stack : Stack H l final}
    {r : Except (Panic H) (k.Result H)} (hp : ¬ p.Accounts) (c : ConverterId) :
    news? c (returning w (.cons p stack) r) = none := by
  cases r with
  | error panic => rfl
  | ok a =>
    cases p with
    | remember c' key f => exact absurd trivial hp
    | restore s displaced => cases k <;> rfl
    | proceed next => cases k <;> cases l <;> rfl
    | _ => rfl

def Maintains (c inner : ConverterId) (cache : Cache) (s t : State H final) : Prop :=
  ∃ cache', t.world.converter c = .caching inner cache' ∧ cache'.limit = cache.limit ∧ Upkeep c s t cache cache'

namespace Maintains

variable {s t : State H final} {c inner : ConverterId} {cache : Cache}

theorem of_same (hc : s.world.converter c = .caching inner cache)
    (hw : t.world.converter c = s.world.converter c) (hnews : s.news? c = none)
    (hstack : ∀ key, t.stack.consulting c key = s.stack.consulting c key) : Maintains c inner cache s t := by
  refine ⟨cache, hw.trans hc, rfl, .idle hnews (fun _ => rfl) fun key => ?_⟩
  simp only [hstack key, List.suffix_refl]

theorem command {w : World H} {stack : Stack H k final} {command : Command H}
    {next : command.Answer → Script H (k.Result H)} (hc : w.converter c = .caching inner cache) :
    Maintains c inner cache (⟨w, k, stack, .script (.act command next)⟩ : State H final)
      ⟨(command.run w).2, k, stack, .script (next (command.run w).1)⟩ := by
  by_cases hforgets : ∃ code, command = .invalidate c code
  · obtain ⟨code, rfl⟩ := hforgets
    have hrun : ((Command.invalidate c code).run w).2 =
        w.setConverter c (.caching inner (cache.invalidate code)) := by
      simp only [Command.run, hc]
    refine ⟨cache.invalidate code, ?_, rfl, .forgotten ?_ rfl fun _ => rfl⟩
    · rw [hrun, World.converter_setConverter_self]
    · exact if_pos rfl
  · have hkept := World.converter_run hc fun code hcode => hforgets ⟨code, hcode⟩
    refine of_same hc hkept ?_ fun _ => rfl
    cases command with
    | invalidate c' code =>
      have hne : c' ≠ c := fun he => hforgets ⟨code, he ▸ rfl⟩
      exact if_neg hne
    | _ => rfl

end Maintains

theorem Effect.maintains {s t : State H final} {c inner : ConverterId} {cache : Cache} (h : Effect s t)
    (hc : s.world.converter c = .caching inner cache) : Maintains c inner cache s t := by
  cases h with
  | turn hw ht =>
    exact .of_same hc (World.converter_of_converters (congrArg Prod.fst hw) c) (news?_of_works ht c) fun _ => rfl
  | push hw hp ht =>
    exact .of_same hc (World.converter_of_converters (congrArg Prod.fst hw) c) (news?_of_works ht c)
      fun key => Stack.consulting_cons hp c key _
  | pop hw hp =>
    exact .of_same hc (World.converter_of_converters (congrArg Prod.fst hw) c) (news?_returning hp c)
      fun key => (Stack.consulting_cons hp c key _).symm
  | command => exact .command hc
  | entered => exact .of_same hc rfl rfl fun _ => rfl
  | @offered w e f h stack =>
    have hopened := congrArg Prod.fst (World.books_openGuard (w.countFrame e) (w.evaluator e).slot .null)
    exact .of_same hc (World.converter_of_converters hopened c) rfl fun _ => rfl
  | @settled w e f d stack =>
    have hw := World.converter_of_converters (congrArg Prod.fst (World.books_settle w e f d)) c
    have hnews : news? c (returning (k := .decision) w (.cons (.settle e f) stack) d) = none := by cases d <;> rfl
    cases hs : w.settle e f d <;> rw [hs] at hw <;> exact .of_same hc hw hnews fun _ => rfl
  | dispatched =>
    exact .of_same hc (World.converter_of_converters (World.converters_recordTally ..) c) rfl fun _ => rfl
  | @classified w d f a stack =>
    have hrecorded (w' : World H) (event : Tally.Event) (hw : w'.converters = w.converters) :
        (w'.recordTally d event).converter c = w.converter c :=
      World.converter_of_converters ((World.converters_recordTally ..).trans hw) c
    cases a with
    | converted r => exact .of_same hc (hrecorded w _ rfl) rfl fun _ => rfl
    | declined reason => exact .of_same hc (hrecorded _ _ (World.converters_log ..)) rfl fun _ => rfl
    | failed cause => exact .of_same hc (hrecorded w _ rfl) rfl fun _ => rfl
  | @recalled w c' inner' cache' b f a stack hc' hl =>
    by_cases he : c' = c
    · subst he
      cases hc.symm.trans hc'
      exact ⟨_, World.converter_setConverter_self .., Cache.limit_lookup .., .idle rfl
        (fun key => Cache.entry_lookup ..) fun _ => List.suffix_refl _⟩
    · exact .of_same hc (World.converter_setConverter_ne w _ he) rfl fun _ => rfl
  | @consulted w c' inner' cache' b f stack hc' hl =>
    by_cases he : c' = c
    · subst he
      cases hc.symm.trans hc'
      refine ⟨_, World.converter_setConverter_self .., Cache.limit_lookup .., .consulted rfl
        (fun key => Cache.entry_lookup ..) ?_ (Stack.consulting_remember_self ..) fun key hkey => ?_⟩
      · rw [← Cache.lookup_fst, hl]
      · exact Stack.consulting_remember_ne (.inr hkey.symm) ..
    · exact .of_same hc (World.converter_setConverter_ne w _ he) rfl
        fun key => Stack.consulting_remember_ne (.inl he) ..
  | @remembered w c' inner' cache' key f a stack hc' =>
    by_cases he : c' = c
    · subst he
      cases hc.symm.trans hc'
      exact ⟨_, World.converter_setConverter_self .., Cache.limit_store .., .settled (if_pos rfl) rfl
        (Stack.consulting_remember_self ..) fun key' hkey => (Stack.consulting_remember_ne (.inr hkey.symm) ..).symm⟩
    · exact .of_same hc (World.converter_setConverter_ne w _ he) (if_neg he)
        fun key' => (Stack.consulting_remember_ne (.inl he) ..).symm
  | @strayed w c' key f a stack hc' =>
    have he : c' ≠ c := by
      rintro rfl
      exact hc' inner cache hc
    exact .of_same hc rfl (if_neg he) fun key' => (Stack.consulting_remember_ne (.inl he) ..).symm
  | abandoned =>
    exact ⟨cache, hc, rfl, .idle rfl (fun _ => rfl) fun _ => List.suffix_append ..⟩

section

variable {s t : State H final} {n : Nat} {c inner : ConverterId} {cache : Cache}

theorem maintained {P : List (State H final) → State H final → Cache → Prop} {Q : State H final → Prop}
    (hP : ∀ past s t cache cache', Q s → Upkeep c s t cache cache' → cache'.limit = cache.limit →
      P past s cache → P (past ++ [s]) t cache')
    (hQ : ∀ u ∈ s.visited β n, Q u) (hn : s.run β n = .running t)
    (hc : s.world.converter c = .caching inner cache) (hs : P [] s cache) :
    ∃ cache', t.world.converter c = .caching inner cache' ∧ cache'.limit = cache.limit ∧
      P (s.visited β n) t cache' := by
  refine visited_induct (I := fun past t => ∃ cache', t.world.converter c = .caching inner cache' ∧
    cache'.limit = cache.limit ∧ P past t cache') ?_ hQ hn ⟨cache, hc, rfl, hs⟩
  rintro past s t hoks hst ⟨cache₁, hc₁, hlimit₁, hP₁⟩
  obtain ⟨cache₂, hc₂, hlimit₂, hupkeep⟩ := (effect_of_step hst).maintains hc₁
  exact ⟨cache₂, hc₂, hlimit₂.trans hlimit₁, hP past s t cache₁ cache₂ hoks hupkeep hlimit₂ hP₁⟩

theorem mem_news {news : Cache.News} : news ∈ s.news β c n ↔ ∃ u ∈ s.visited β n, u.news? c = some news :=
  List.mem_filterMap

end

end State

end Interception
