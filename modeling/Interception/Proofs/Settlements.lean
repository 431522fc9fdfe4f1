import Interception.Proofs.Exhaustion
import Interception.Proofs.Slots
import Interception.Proofs.Tallies

namespace Interception

variable {H : Host} {k l final : Kind} {β : Behaviour H}

section

variable {f g : Frame} {a : Conversion} {limit : Nat} {e : Cache.Entry}

/-- The answer, given for `g`, is an answer for `f` as well. -/
def Conversion.Settles (f g : Frame) : Conversion → Prop
  | converted r => r.applies f
  | declined _ => g.argTags = f.argTags
  | failed _ => False

theorem Replacement.applies_congr (r : Replacement) (h : g.argTags = f.argTags) : r.applies g = r.applies f := by
  unfold applies Guard.holds
  split
  · rfl
  · rw [h]

namespace Cache.Entry

theorem lookup?_congr (e : Entry) (h : g.argTags = f.argTags) : e.lookup? g = e.lookup? f := by
  have happlies : (fun r : Replacement => r.applies g) = fun r => r.applies f := by
    funext r
    exact r.applies_congr h
  simp only [lookup?, happlies, h]

theorem lookup?_eq_none_iff : e.lookup? f = none ↔
    e.exhausted = none ∧ (∀ r ∈ e.variants, ¬ r.applies f) ∧ e.declined.lookup f.argTags = none := by
  constructor
  · intro h
    have hx := exhausted_of_lookup? h
    rw [lookup?, hx] at h
    cases hfind : e.variants.find? (·.applies f) with
    | some r => simp [hfind] at h
    | none =>
      simp only [hfind, Option.map_eq_none_iff] at h
      exact ⟨hx, List.find?_eq_none.mp hfind, h⟩
  · rintro ⟨hx, hvariants, hdeclined⟩
    have hfind : e.variants.find? (·.applies f) = none := List.find?_eq_none.mpr hvariants
    simp only [lookup?, hx, hfind, hdeclined, Option.map_none]

theorem lookup?_store_ne_none (h : e.lookup? f ≠ none ∨ a.Settles f g) : (e.store limit g a).2.lookup? f ≠ none := by
  intro hnone
  obtain ⟨hx, hvariants, hdeclined⟩ := lookup?_eq_none_iff.mp hnone
  cases a with
  | converted r =>
    rw [store] at hx hvariants hdeclined
    split at hx
    · cases hx
    · next hfull =>
      rw [if_neg hfull] at hvariants hdeclined
      obtain ⟨hr, hrest⟩ := List.forall_mem_cons.mp hvariants
      exact h.elim (· (lookup?_eq_none_iff.mpr ⟨hx, hrest, hdeclined⟩)) hr
  | declined reason =>
    have hne : f.argTags ≠ g.argTags := by
      intro htags
      simp [store, htags] at hdeclined
    have hbefore : e.declined.lookup f.argTags = none := by
      rwa [store, List.lookup_cons, beq_eq_false_iff_ne.mpr hne] at hdeclined
    exact h.elim (· (lookup?_eq_none_iff.mpr ⟨hx, hvariants, hbefore⟩)) (hne ·.symm)
  | failed cause => exact h.elim (· hnone) id

theorem lookup?_store_eq_none (h : e.lookup? f = none) (ha : ¬ a.Settles f g) :
    (e.store limit g a).2.lookup? f = none ∨ (e.store limit g a).2.exhausted.isSome ∧ ∃ r, a = .converted r := by
  obtain ⟨hx, hvariants, hdeclined⟩ := lookup?_eq_none_iff.mp h
  cases a with
  | converted r =>
    rw [store]
    split
    · exact .inr ⟨rfl, r, rfl⟩
    · exact .inl (lookup?_eq_none_iff.mpr ⟨hx, List.forall_mem_cons.mpr ⟨ha, hvariants⟩, hdeclined⟩)
  | declined reason =>
    have hne : f.argTags ≠ g.argTags := fun htags => ha htags.symm
    refine .inl (lookup?_eq_none_iff.mpr ⟨hx, hvariants, ?_⟩)
    rwa [store, List.lookup_cons, beq_eq_false_iff_ne.mpr hne]
  | failed cause => exact .inl h

end Cache.Entry

namespace Cache

def lookups (cache : Cache) : Nat × Nat := (cache.hits, cache.misses)

theorem lookups_store (cache : Cache) (key : Key) (f : Frame) (a : Conversion) :
    (cache.store key f a).2.lookups = cache.lookups := by
  cases a <;> rfl

theorem lookups_recalled (cache : Cache) {key : Key} (h : (cache.entry key).lookup? f = some a) :
    (cache.lookup key f).2.lookups = (cache.hits + 1, cache.misses) := by
  rw [lookup, h]
  rfl

theorem lookups_missed (cache : Cache) {key : Key} (h : (cache.entry key).lookup? f = none) :
    (cache.lookup key f).2.lookups = (cache.hits, cache.misses + 1) := by
  rw [lookup, h]
  rfl

end Cache

end

theorem World.converter_classify (w : World H) (d : Dispatch) (f : Frame) (a : Conversion) (c : ConverterId) :
    (w.classify d f a).converter c = w.converter c := by
  cases a with
  | declined reason => exact converter_of_converters ((converters_recordTally ..).trans (converters_log ..)) c
  | _ => exact converter_of_converters (converters_recordTally ..) c

open Cache

namespace State

variable {s t u : State H final} {c inner : ConverterId} {cache cache' : Cache} {key : Key} {f g : Frame} {n : Nat}
  {w : World H} {a : Conversion}

def converts? (c : ConverterId) : State H final → Option (Key × Frame)
  | ⟨_, _, _, .request (.convert c' b f)⟩ => if c' = c then some (⟨f.code.id, b⟩, f) else none
  | _ => none

def consults? (c : ConverterId) (s : State H final) : Option (Key × Frame) :=
  match s.world.converter c with
  | .caching _ cache => (s.converts? c).filter fun i => ((cache.entry i.1).lookup? i.2).isNone
  | _ => none

theorem converts?_eq_some (h : s.converts? c = some (key, f)) :
    ∃ w stack, s = ⟨w, .conversion, stack, .request (.convert c key.compiler f)⟩ ∧ key = ⟨f.code.id, key.compiler⟩ := by
  obtain ⟨w, j, stack, task⟩ := s
  cases task with
  | request q =>
    cases q with
    | convert c' b f' =>
      simp only [converts?] at h
      split at h
      · next he =>
        cases h
        exact ⟨w, stack, he ▸ rfl, rfl⟩
      · cases h
    | _ => cases h
  | _ => cases h

theorem consults?_eq_some_iff (hc : s.world.converter c = .caching inner cache) :
    s.consults? c = some (key, f) ↔ s.converts? c = some (key, f) ∧ (cache.entry key).lookup? f = none := by
  rw [consults?, hc]
  simp only [Option.filter_eq_some_iff, Option.isNone_iff_eq_none]

theorem step_recalls (hc : s.world.converter c = .caching inner cache) (h : s.converts? c = some (key, f))
    (hl : (cache.entry key).lookup? f = some a) :
    ∃ stack : Stack H .conversion final, s.step β = .running
      (returning (s.world.setConverter c (.caching inner (cache.lookup key f).2)) stack (.ok a)) := by
  obtain ⟨w, stack, rfl, hkey⟩ := converts?_eq_some h
  have hfound : cache.lookup ⟨f.code.id, key.compiler⟩ f = (some a, (cache.lookup key f).2) := by
    rw [← hkey, ← hl, ← lookup_fst]
  refine ⟨stack, ?_⟩
  simp only [step, begin, hc, hfound]
  rfl

theorem step_consults (hc : s.world.converter c = .caching inner cache) (h : s.consults? c = some (key, f)) :
    ∃ stack : Stack H .conversion final, s.step β = .running
      ⟨s.world.setConverter c (.caching inner (cache.lookup key f).2), _, .cons (.remember c key f) stack,
        .request (.convert inner key.compiler f)⟩ := by
  obtain ⟨hconverts, hl⟩ := (consults?_eq_some_iff hc).mp h
  obtain ⟨w, stack, rfl, hkey⟩ := converts?_eq_some hconverts
  have hmissed : cache.lookup ⟨f.code.id, key.compiler⟩ f = (none, (cache.lookup key f).2) := by
    rw [← hkey, ← hl, ← lookup_fst]
  refine ⟨stack, ?_⟩
  simp only [step, begin, hc, hmissed]
  rw [← hkey]

theorem lookup?_ne_none_of_run (hu : s.run β n = .running u) (hc : s.world.converter c = .caching inner cache)
    (hl : (cache.entry key).lookup? f ≠ none) (hkept : .forgotten key.code ∉ s.news β c n) :
    ∃ cache', u.world.converter c = .caching inner cache' ∧ (cache'.entry key).lookup? f ≠ none := by
  have hok : ∀ x ∈ s.visited β n, x.news? c ≠ some (.forgotten key.code) :=
    fun x hx hforgot => hkept (mem_news.mpr ⟨x, hx, hforgot⟩)
  suffices hlast : ∃ cache', u.world.converter c = .caching inner cache' ∧ cache'.limit = cache.limit ∧
      (cache'.entry key).lookup? f ≠ none by
    obtain ⟨cache', hc', -, hl'⟩ := hlast
    exact ⟨cache', hc', hl'⟩
  refine maintained (P := fun _ _ cache => (cache.entry key).lookup? f ≠ none) ?_ hok hu hc hl
  intro past s t cache cache' hforgot hupkeep _ hl
  cases hupkeep with
  | idle _ hentry | consulted _ hentry => rwa [hentry]
  | @settled key' g a _ hcache =>
    rw [hcache, entry_store]
    split
    · next he =>
      subst he
      exact Entry.lookup?_store_ne_none (.inl hl)
    · exact hl
  | @forgotten code hnews hcache =>
    have hne : key.code ≠ code := by
      rintro rfl
      exact hforgot hnews
    rwa [hcache, entry_invalidate, if_neg hne]

def Unsettled (β : Behaviour H) (c : ConverterId) (key : Key) (f : Frame) (n : Nat) (s : State H final) : Prop :=
  ∀ g a, .settled key g a ∈ s.news β c n → ¬ a.Settles f g

theorem lookup?_eq_none_of_run (hu : s.run β n = .running u) (hc : s.world.converter c = .caching inner cache)
    (hl : (cache.entry key).lookup? f = none) (hopen : s.Unsettled β c key f n) :
    ∃ cache', u.world.converter c = .caching inner cache' ∧ ((cache'.entry key).lookup? f = none ∨
      (cache'.entry key).exhausted.isSome ∧ ∃ g r, .settled key g (.converted r) ∈ s.news β c n) := by
  have hok : ∀ x ∈ s.visited β n, ∀ g a, x.news? c = some (.settled key g a) → ¬ a.Settles f g :=
    fun x hx g a hsettled => hopen g a (mem_news.mpr ⟨x, hx, hsettled⟩)
  suffices hlast : ∃ cache', u.world.converter c = .caching inner cache' ∧ cache'.limit = cache.limit ∧
      ((cache'.entry key).lookup? f = none ∨ (cache'.entry key).exhausted.isSome ∧
        ∃ g r, .settled key g (.converted r) ∈ (s.visited β n).filterMap (·.news? c)) by
    obtain ⟨cache', hc', -, hl'⟩ := hlast
    exact ⟨cache', hc', hl'⟩
  refine maintained (P := fun past _ cache => (cache.entry key).lookup? f = none ∨
    (cache.entry key).exhausted.isSome ∧ ∃ g r, .settled key g (.converted r) ∈ past.filterMap (·.news? c))
    ?_ hok hu hc (.inl hl)
  intro past s t cache cache' hopen hupkeep _ hl
  rw [filterMap_concat]
  rcases hl with hl | ⟨hx, g₀, r₀, hmem⟩
  · cases hupkeep with
    | idle _ hentry | consulted _ hentry =>
      left
      rwa [hentry]
    | @settled key' g a hnews hcache =>
      rw [hcache, entry_store, hnews]
      split
      · next he =>
        subst he
        rcases Entry.lookup?_store_eq_none hl (hopen g a hnews) with hnone | ⟨hx, r, rfl⟩
        · exact .inl hnone
        · exact .inr ⟨hx, g, r, List.mem_append_right _ (List.mem_singleton.mpr rfl)⟩
      · exact .inl hl
    | forgotten _ hcache =>
      left
      rw [hcache, entry_invalidate]
      split
      · rfl
      · exact hl
  · -- once the limit is exceeded, only forgetting the code object undoes it
    have hbefore := List.mem_append_left (s.news? c).toList hmem
    cases hupkeep with
    | idle _ hentry | consulted _ hentry =>
      right
      rw [hentry]
      exact ⟨hx, g₀, r₀, hbefore⟩
    | settled _ hcache =>
      right
      rw [hcache, entry_store]
      split
      · next he =>
        subst he
        exact ⟨Entry.exhausted_store hx, g₀, r₀, hbefore⟩
      · exact ⟨hx, g₀, r₀, hbefore⟩
    | forgotten _ hcache =>
      rw [hcache, entry_invalidate]
      split
      · exact .inl rfl
      · exact .inr ⟨hx, g₀, r₀, hbefore⟩

theorem Effect.lookups (h : Effect s t) (hc : s.world.converter c = .caching inner cache)
    (hs : s.converts? c = none) :
    ∃ cache', t.world.converter c = .caching inner cache' ∧ cache'.lookups = cache.lookups := by
  have hsame (hw : t.world.converter c = s.world.converter c) :
      ∃ cache', t.world.converter c = .caching inner cache' ∧ cache'.lookups = cache.lookups :=
    ⟨cache, hw.trans hc, rfl⟩
  cases h with
  | turn hw | push hw | pop hw => exact hsame (World.converter_of_converters (congrArg Prod.fst hw) c)
  | @command k w stack command next =>
    by_cases hforgets : ∃ code, command = .invalidate c code
    · obtain ⟨code, rfl⟩ := hforgets
      refine ⟨cache.invalidate code, ?_, rfl⟩
      simp only [Command.run, hc, World.converter_setConverter_self]
    · exact hsame (World.converter_run hc fun code hcode => hforgets ⟨code, hcode⟩)
  | entered | abandoned | strayed => exact hsame rfl
  | @offered w e f h stack =>
    have hopened := congrArg Prod.fst (World.books_openGuard (w.countFrame e) (w.evaluator e).slot .null)
    exact hsame (World.converter_of_converters hopened c)
  | @settled w e f d stack =>
    have hw := World.converter_of_converters (congrArg Prod.fst (World.books_settle w e f d)) c
    rw [← world_settled e stack] at hw
    exact hsame hw
  | dispatched => exact hsame (World.converter_of_converters (World.converters_recordTally ..) c)
  | @classified w d f a stack =>
    rw [deliver_classify]
    rw [deliver_classify] at hsame
    exact hsame (World.converter_classify w d f a c)
  | @recalled w c' inner' cache' b f a stack | @consulted w c' inner' cache' b f stack =>
    have he : c' ≠ c := by
      rintro rfl
      simp [converts?] at hs
    exact hsame (World.converter_setConverter_ne w _ he)
  | @remembered w c' inner' cache' key f a stack hc' =>
    by_cases he : c' = c
    · subst he
      cases hc.symm.trans hc'
      exact ⟨_, World.converter_setConverter_self .., lookups_store ..⟩
    · exact hsame (World.converter_setConverter_ne w _ he)

theorem lookups_of_step (hst : s.step β = .running t) (hc : s.world.converter c = .caching inner cache) :
    ∃ cache', t.world.converter c = .caching inner cache' ∧
      cache'.hits + cache'.misses = cache.hits + cache.misses + (s.converts? c).toList.length ∧
      cache'.misses = cache.misses + (s.consults? c).toList.length := by
  cases hconverts : s.converts? c with
  | none =>
    have hconsults : s.consults? c = none := by
      rw [consults?, hc, hconverts]
      rfl
    obtain ⟨cache', hc', hlookups⟩ := (effect_of_step hst).lookups hc hconverts
    obtain ⟨hhits, hmisses⟩ := Prod.mk.inj hlookups
    rw [hconsults]
    exact ⟨cache', hc', by rw [hhits, hmisses]; rfl, hmisses⟩
  | some i =>
    obtain ⟨key, f⟩ := i
    cases hl : (cache.entry key).lookup? f with
    | some a =>
      have hconsults : s.consults? c = none := by
        rw [consults?, hc, hconverts]
        simp [hl]
      obtain ⟨stack, hstep⟩ := step_recalls (β := β) hc hconverts hl
      obtain rfl := Outcome.running.inj (hstep.symm.trans hst)
      obtain ⟨hhits, hmisses⟩ := Prod.mk.inj (cache.lookups_recalled hl)
      refine ⟨_, World.converter_setConverter_self .., ?_, ?_⟩
      · rw [hhits, hmisses, Option.toList_some, List.length_singleton]
        omega
      · rw [hmisses, hconsults]
        rfl
    | none =>
      have hconsults := (consults?_eq_some_iff hc).mpr ⟨hconverts, hl⟩
      obtain ⟨stack, hstep⟩ := step_consults (β := β) hc hconsults
      obtain rfl := Outcome.running.inj (hstep.symm.trans hst)
      obtain ⟨hhits, hmisses⟩ := Prod.mk.inj (cache.lookups_missed hl)
      refine ⟨_, World.converter_setConverter_self .., ?_, ?_⟩
      · rw [hhits, hmisses, Option.toList_some, List.length_singleton]
        omega
      · rw [hmisses, hconsults]
        rfl

def conversions (β : Behaviour H) (c : ConverterId) (n : Nat) (s : State H final) : List (Key × Frame) :=
  (s.visited β n).filterMap (·.converts? c)

def consultations (β : Behaviour H) (c : ConverterId) (n : Nat) (s : State H final) : List (Key × Frame) :=
  (s.visited β n).filterMap (·.consults? c)

theorem lookups_of_run (hn : s.run β n = .running t) (hc : s.world.converter c = .caching inner cache) :
    ∃ cache', t.world.converter c = .caching inner cache' ∧
      cache'.hits + cache'.misses = cache.hits + cache.misses + (s.conversions β c n).length ∧
      cache'.misses = cache.misses + (s.consultations β c n).length := by
  refine visited_induct (I := fun past t => ∃ cache', t.world.converter c = .caching inner cache' ∧
    cache'.hits + cache'.misses = cache.hits + cache.misses + (past.filterMap (·.converts? c)).length ∧
    cache'.misses = cache.misses + (past.filterMap (·.consults? c)).length) (P := fun _ => True) ?_
    (fun _ _ => trivial) hn ⟨cache, hc, rfl, rfl⟩
  rintro past u v - huv ⟨cache₁, hc₁, htotal, hmisses⟩
  obtain ⟨cache₂, hc₂, htotal', hmisses'⟩ := lookups_of_step huv hc₁
  refine ⟨cache₂, hc₂, ?_, ?_⟩
  · rw [filterMap_concat, List.length_append, htotal', htotal, Nat.add_assoc]
  · rw [filterMap_concat, List.length_append, hmisses', hmisses, Nat.add_assoc]

theorem step_unsettling {r : Except (Panic H) Conversion} {stack : Stack H .conversion final}
    (hr : ∀ a, r = .ok a → ∃ cause, a = .failed cause) :
    ∃ w', (returning (k := .conversion) w (.cons (.remember c key f) stack) r).step β =
        .running (returning (k := .conversion) w' stack r) ∧ ∀ c', w'.converter c' = w.converter c' := by
  cases r with
  | error panic => exact ⟨w, rfl, fun _ => rfl⟩
  | ok a =>
    obtain ⟨cause, rfl⟩ := hr a rfl
    cases hc : w.converter c with
    | caching inner cache =>
      refine ⟨w.setConverter c (.caching inner cache), ?_, fun c' => ?_⟩
      · simp only [returning, Task.ofResult, step, deliver, hc]
        rfl
      · by_cases he : c = c'
        · subst he
          rw [World.converter_setConverter_self, hc]
        · exact World.converter_setConverter_ne w _ he
    | _ =>
      refine ⟨w, ?_, fun _ => rfl⟩
      simp only [returning, Task.ofResult, step, deliver, hc]

structure ConsultsOnce (β : Behaviour H) (c inner : ConverterId) (cache : Cache) (s : State H final) : Prop where
  settled : ∀ {u t v key f a n}, Reaches β s u → u.news? c = some (.settled key f a) → a.Settles f f →
    u.step β = .running t → t.run β n = .running v → .forgotten key.code ∉ t.news β c n →
    ∀ g, v.consults? c = some (key, g) → g.argTags ≠ f.argTags
  unsettling : ∀ {w key f} {r : Except (Panic H) Conversion} {stack : Stack H .conversion final},
    (∀ a, r = .ok a → ∃ cause, a = .failed cause) →
    ∃ w', (returning (k := .conversion) w (.cons (.remember c key f) stack) r).step β =
      .running (returning (k := .conversion) w' stack r) ∧ ∀ c', w'.converter c' = w.converter c'
  unsettled : ∀ {u v key f g n}, Reaches β s u → u.consults? c = some (key, f) → u.run β n = .running v →
    u.Unsettled β c key f n → v.converts? c = some (key, g) → g.argTags = f.argTags →
    v.consults? c = some (key, g) ∨ ∃ cache', v.world.converter c = .caching inner cache' ∧
      (cache'.entry key).exhausted.isSome ∧ ∃ g r, .settled key g (.converted r) ∈ u.news β c n
  consults : ∀ {u key f}, Reaches β s u → u.converts? c = some (key, f) → ∃ w stack,
    if u.consults? c = some (key, f) then
      u.step β = .running ⟨w, _, .cons (.remember c key f) stack, .request (.convert inner key.compiler f)⟩
    else ∃ a, u.step β = .running ⟨w, .conversion, stack, .answer a⟩
  counts : ∀ {t n}, s.run β n = .running t → ∃ cache', t.world.converter c = .caching inner cache' ∧
    cache'.hits + cache'.misses = cache.hits + cache.misses + (s.conversions β c n).length ∧
    cache'.misses = cache.misses + (s.consultations β c n).length

/-- Once the converter behind a cache has converted a frame under a guard that holds of it, or has declined it, it is
not asked about these types of arguments again before the code object is forgotten. A failure or a panic settles
nothing. -/
theorem settled_signature_consulted_once (hc : s.world.converter c = .caching inner cache) :
    ConsultsOnce β c inner cache s := by
  have hcaching {u : State H final} (hu : Reaches β s u) : ∃ cache', u.world.converter c = .caching inner cache' := by
    obtain ⟨m, hm⟩ := hu
    obtain ⟨cache', hc', -⟩ := lookups_of_run hm hc
    exact ⟨cache', hc'⟩
  refine ⟨?_, step_unsettling, ?_, ?_, fun hn => lookups_of_run hn hc⟩
  · intro u t v key f a n hu hnews ha hut hn hkept g hg htags
    obtain ⟨cache₁, hc₁⟩ := hcaching hu
    obtain ⟨cache₂, hc₂, -, hupkeep⟩ := (effect_of_step hut).maintains hc₁
    have hremembered : (cache₂.entry key).lookup? f ≠ none := by
      cases hupkeep with
      | settled hnews' hcache =>
        cases hnews.symm.trans hnews'
        rw [hcache, entry_store, if_pos rfl]
        exact Entry.lookup?_store_ne_none (.inr ha)
      | idle hnews' | consulted hnews' | forgotten hnews' => cases hnews.symm.trans hnews'
    obtain ⟨cache₃, hc₃, hstill⟩ := lookup?_ne_none_of_run hn hc₂ hremembered hkept
    have hnone := ((consults?_eq_some_iff hc₃).mp hg).2
    rw [Entry.lookup?_congr _ htags] at hnone
    exact hstill hnone
  · intro u v key f g n hu hconsults hn hopen hconverts htags
    obtain ⟨cache₁, hc₁⟩ := hcaching hu
    have hmissed := ((consults?_eq_some_iff hc₁).mp hconsults).2
    obtain ⟨cache₂, hc₂, hnone | hexceeded⟩ := lookup?_eq_none_of_run hn hc₁ hmissed hopen
    · left
      rw [← Entry.lookup?_congr _ htags] at hnone
      exact (consults?_eq_some_iff hc₂).mpr ⟨hconverts, hnone⟩
    · exact .inr ⟨cache₂, hc₂, hexceeded⟩
  · intro u key f hu hconverts
    obtain ⟨cache₁, hc₁⟩ := hcaching hu
    by_cases hconsults : u.consults? c = some (key, f)
    · obtain ⟨stack, hstep⟩ := step_consults (β := β) hc₁ hconsults
      refine ⟨u.world.setConverter c (.caching inner (cache₁.lookup key f).2), stack, ?_⟩
      rw [if_pos hconsults]
      exact hstep
    · obtain ⟨a, ha⟩ : ∃ a, (cache₁.entry key).lookup? f = some a := by
        apply Option.ne_none_iff_exists'.mp
        intro hnone
        exact hconsults ((consults?_eq_some_iff hc₁).mpr ⟨hconverts, hnone⟩)
      obtain ⟨stack, hstep⟩ := step_recalls (β := β) hc₁ hconverts ha
      refine ⟨u.world.setConverter c (.caching inner (cache₁.lookup key f).2), stack, ?_⟩
      rw [if_neg hconsults]
      exact ⟨a, hstep⟩

end State

open State

namespace NullFails

open OneVariant (frame)
open Overtaken (host key)

def behaviour : Behaviour host :=
  ⟨nofun, fun _ f _ => .done (if f.argTags = [.null] then .failed (.internal "null") else Overtaken.unit f), nofun,
    nofun⟩

def convert (v : Value) (next : Script host Conversion) : Script host Conversion :=
  .ask (.convert ⟨0⟩ ⟨0⟩ (frame v)) fun _ => next

def start : State host .conversion :=
  ⟨{ Overtaken.world with converters := ⟨#[.caching ⟨1⟩ { limit := 1 }, .custom ()]⟩ }, _, .nil,
    .script (convert .null (convert .null (convert (.int 1) (.ask (.convert ⟨0⟩ ⟨0⟩ (frame (.int 2))) .done))))⟩

theorem settled_signature_consulted_once_nullFails :
    (start.after behaviour 7).consults? ⟨0⟩ = some (key, frame .null) ∧
    ((start.after behaviour 19).converts? ⟨0⟩ = some (key, frame (.int 2)) ∧
      (start.after behaviour 19).consults? ⟨0⟩ ≠ some (key, frame (.int 2))) ∧
    ∃ cache, (start.after behaviour 22).world.converter ⟨0⟩ = .caching ⟨1⟩ cache ∧ cache.hits + cache.misses = 4 ∧
      cache.misses = 3 := by
  have honce := settled_signature_consulted_once (β := behaviour) (s := start) (c := ⟨0⟩) rfl
  have hnews : (start.after behaviour 1).news behaviour ⟨0⟩ 6 =
      [.settled key (frame .null) (.failed (.internal "null"))] := rfl
  have hunsettled : (start.after behaviour 1).Unsettled behaviour ⟨0⟩ key (frame .null) 6 := by
    intro g a hmem
    rw [hnews, List.mem_singleton] at hmem
    cases hmem
    exact id
  refine ⟨?_, ⟨rfl, ?_⟩, honce.counts (n := 22) rfl⟩
  · rcases honce.unsettled (u := start.after behaviour 1) (n := 6) ⟨1, rfl⟩ rfl rfl hunsettled rfl rfl with
      hagain | ⟨-, -, -, g, r, hmem⟩
    · exact hagain
    · rw [hnews, List.mem_singleton] at hmem
      cases hmem
  · intro hagain
    have hkept : .forgotten key.code ∉ (start.after behaviour 17).news behaviour ⟨0⟩ 2 := List.not_mem_nil
    exact honce.settled (u := start.after behaviour 16) (n := 2) ⟨16, rfl⟩ rfl (by rfl) rfl rfl hkept _ hagain rfl

end NullFails

end Interception
