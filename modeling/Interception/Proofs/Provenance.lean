import Interception.Proofs.Settlements

namespace Interception

variable {H : Host} {k final : Kind} {β : Behaviour H}

namespace Conversion

def unit? : Conversion → Option Replacement
  | converted r => some r
  | _ => none

def reason? : Conversion → Option String
  | declined reason => some reason
  | _ => none

theorem eq_converted (a : Conversion) {r : Replacement} (h : a.unit? = some r) : a = .converted r := by
  cases a with
  | converted r' => exact congrArg converted (Option.some.inj h)
  | _ => cases h

theorem eq_declined (a : Conversion) {reason : String} (h : a.reason? = some reason) : a = .declined reason := by
  cases a with
  | declined reason' => exact congrArg declined (Option.some.inj h)
  | _ => cases h

end Conversion

theorem Cache.Entry.lookup?_ne_failed {e : Entry} {f : Frame} {cause : ConvertError} :
    e.lookup? f ≠ some (.failed cause) := by
  intro h
  rw [lookup?] at h
  split at h
  · cases h
  · split at h
    · cases h
    · obtain ⟨reason, -, hreason⟩ := Option.map_eq_some_iff.mp h
      cases hreason

open Cache

namespace State

variable {s t u : State H final} {c inner : ConverterId} {cache cache' : Cache} {key : Key} {f g : Frame} {n : Nat}
  {limit : Nat} {code : CodeId} {past l newer : List (State H final)} {a : Conversion} {e : Cache.Entry}

def forgets (c : ConverterId) (code : CodeId) (s : State H final) : Bool :=
  match s.news? c with
  | some (.forgotten code') => code' = code
  | _ => false

theorem forgets_iff : s.forgets c code ↔ s.news? c = some (.forgotten code) := by
  constructor
  · intro h
    rw [forgets] at h
    split at h
    · next code' hnews => exact of_decide_eq_true h ▸ hnews
    · cases h
  · intro h
    rw [forgets, h]
    exact decide_eq_true rfl

def since (c : ConverterId) (code : CodeId) (past : List (State H final)) : List (State H final) :=
  past.reverse.takeWhile fun s => !s.forgets c code

theorem since_concat (c : ConverterId) (code : CodeId) (past : List (State H final)) (s : State H final) :
    since c code (past ++ [s]) = if s.forgets c code then [] else s :: since c code past := by
  rw [since, List.reverse_append, List.reverse_singleton, List.singleton_append, List.takeWhile_cons]
  cases s.forgets c code <;> rfl

def unit? (c : ConverterId) (key : Key) (s : State H final) : Option Replacement :=
  match s.news? c with
  | some (.settled key' _ a) => if key' = key then a.unit? else none
  | _ => none

def decline? (c : ConverterId) (key : Key) (s : State H final) : Option (List Tag × String) :=
  match s.news? c with
  | some (.settled key' g a) => if key' = key then a.reason?.map (g.argTags, ·) else none
  | _ => none

theorem split_of_filterMap {α : Type} {p : State H final → Option α} {before after : List α} {x : α}
    (h : l.filterMap p = before ++ x :: after) :
    ∃ newer u older, l = newer ++ u :: older ∧ p u = some x ∧ newer.filterMap p = before := by
  obtain ⟨newer, rest, rfl, hnewer, hrest⟩ := List.filterMap_eq_append_iff.mp h
  obtain ⟨skipped, u, older, rfl, hskipped, hu, -⟩ := List.filterMap_eq_cons_iff.mp hrest
  refine ⟨newer ++ skipped, u, older, by rw [List.append_assoc], hu, ?_⟩
  rw [List.filterMap_append, List.filterMap_eq_nil_iff.mpr hskipped, hnewer, List.append_nil]

theorem unit?_of_settled (h : s.news? c = some (.settled key g a)) : s.unit? c key = a.unit? := by
  rw [unit?, h]
  exact if_pos rfl

theorem decline?_of_settled (h : s.news? c = some (.settled key g a)) :
    s.decline? c key = a.reason?.map (g.argTags, ·) := by
  rw [decline?, h]
  exact if_pos rfl

theorem unit?_eq_some_iff {r : Replacement} :
    s.unit? c key = some r ↔ ∃ g, s.news? c = some (.settled key g (.converted r)) := by
  constructor
  · intro h
    rw [unit?] at h
    split at h
    · next key' g a hnews =>
      split at h
      · next he => exact ⟨g, he ▸ a.eq_converted h ▸ hnews⟩
      · cases h
    · cases h
  · rintro ⟨g, hnews⟩
    exact unit?_of_settled hnews

theorem decline?_eq_some_iff {ts : List Tag} {reason : String} :
    s.decline? c key = some (ts, reason) ↔
      ∃ g, s.news? c = some (.settled key g (.declined reason)) ∧ g.argTags = ts := by
  constructor
  · intro h
    rw [decline?] at h
    split at h
    · next key' g a hnews =>
      split at h
      · next he =>
        obtain ⟨reason', hreason, hpair⟩ := Option.map_eq_some_iff.mp h
        obtain ⟨htags, rfl⟩ := Prod.mk.inj hpair
        exact ⟨g, he ▸ a.eq_declined hreason ▸ hnews, htags⟩
      · cases h
    · cases h
  · rintro ⟨g, hnews, rfl⟩
    exact decline?_of_settled hnews

def Spares (c : ConverterId) (key : Key) (s : State H final) : Prop :=
  ∀ g a, s.news? c ≠ some (.settled key g a)

theorem Spares.unit?_eq_none (h : s.Spares c key) : s.unit? c key = none := by
  cases hunit : s.unit? c key with
  | none => rfl
  | some r =>
    obtain ⟨g, hnews⟩ := unit?_eq_some_iff.mp hunit
    exact absurd hnews (h g _)

theorem Spares.decline?_eq_none (h : s.Spares c key) : s.decline? c key = none := by
  cases hdecline : s.decline? c key with
  | none => rfl
  | some d =>
    obtain ⟨g, hnews, -⟩ := decline?_eq_some_iff.mp hdecline
    exact absurd hnews (h g _)

structure Traced (c : ConverterId) (key : Key) (limit : Nat) (l : List (State H final)) (e : Cache.Entry) : Prop where
  variants : e.exhausted = none → e.variants = l.filterMap (·.unit? c key)
  declined : e.declined = l.filterMap (·.decline? c key)
  exhausted : ∀ reason, e.exhausted = some reason →
    ∃ u ∈ l, ∃ g r, u.news? c = some (.settled key g (.converted r)) ∧ reason = excess limit g

namespace Traced

theorem empty (c : ConverterId) (key : Key) (limit : Nat) : Traced c key limit ([] : List (State H final)) {} :=
  ⟨fun _ => rfl, rfl, nofun⟩

theorem spared (h : Traced c key limit l e) (hs : s.Spares c key) : Traced c key limit (s :: l) e := by
  refine ⟨fun hx => ?_, ?_, fun reason hx => ?_⟩
  · rw [List.filterMap_cons_none hs.unit?_eq_none, h.variants hx]
  · rw [List.filterMap_cons_none hs.decline?_eq_none, h.declined]
  · obtain ⟨u, hu, hstored⟩ := h.exhausted reason hx
    exact ⟨u, List.mem_cons_of_mem s hu, hstored⟩

theorem stored (h : Traced c key limit l e) (hs : s.news? c = some (.settled key g a)) :
    Traced c key limit (s :: l) (e.store limit g a).2 := by
  have hunit := unit?_of_settled hs
  have hdecline := decline?_of_settled hs
  have hexhausted (reason : String) (hx : e.exhausted = some reason) : ∃ u ∈ s :: l, ∃ g r,
      u.news? c = some (.settled key g (.converted r)) ∧ reason = excess limit g := by
    obtain ⟨u, hu, hstored⟩ := h.exhausted reason hx
    exact ⟨u, List.mem_cons_of_mem s hu, hstored⟩
  cases a with
  | converted r =>
    have hdeclined : e.declined = (s :: l).filterMap (·.decline? c key) := by
      rw [List.filterMap_cons_none hdecline, h.declined]
    rw [Entry.store]
    split
    · refine ⟨fun hx => ?_, hdeclined, fun reason hx => ?_⟩
      · cases hx
      · cases hx
        exact ⟨s, List.mem_cons_self, g, r, hs, rfl⟩
    · refine ⟨fun hx => ?_, hdeclined, hexhausted⟩
      rw [List.filterMap_cons_some hunit, ← h.variants hx]
  | declined reason =>
    refine ⟨fun hx => ?_, ?_, hexhausted⟩
    · rw [List.filterMap_cons_none hunit, ← h.variants hx]
      rfl
    · rw [List.filterMap_cons_some hdecline, ← h.declined]
      rfl
  | failed cause =>
    refine ⟨fun hx => ?_, ?_, hexhausted⟩
    · rw [List.filterMap_cons_none hunit, ← h.variants hx]
      rfl
    · rw [List.filterMap_cons_none hdecline, ← h.declined]
      rfl

theorem of_converted {r : Replacement} (h : Traced c key limit l e) (hl : e.lookup? f = some (.converted r)) :
    r.applies f ∧ ∃ newer u older g, l = newer ++ u :: older ∧ u.news? c = some (.settled key g (.converted r)) ∧
      ∀ x ∈ newer, ∀ g' r', x.news? c = some (.settled key g' (.converted r')) → ¬ r'.applies f := by
  rw [Entry.lookup?] at hl
  split at hl
  · cases hl
  · next hx =>
    split at hl
    · next r' hfind =>
      cases hl
      obtain ⟨happlies, before, after, hvariants, hbefore⟩ := List.find?_eq_some_iff_append.mp hfind
      rw [h.variants hx] at hvariants
      obtain ⟨newer, u, older, rfl, hunit, rfl⟩ := split_of_filterMap hvariants
      obtain ⟨g, hnews⟩ := unit?_eq_some_iff.mp hunit
      refine ⟨happlies, newer, u, older, g, rfl, hnews, ?_⟩
      intro x hx g' r' hnews' happlies'
      have hmem : r' ∈ newer.filterMap (·.unit? c key) :=
        List.mem_filterMap.mpr ⟨x, hx, unit?_eq_some_iff.mpr ⟨g', hnews'⟩⟩
      simpa [happlies'] using hbefore r' hmem
    · obtain ⟨reason, -, hreason⟩ := Option.map_eq_some_iff.mp hl
      cases hreason

theorem of_declined {reason : String} (h : Traced c key limit l e) (hl : e.lookup? f = some (.declined reason)) :
    (∃ u ∈ l, ∃ g r, u.news? c = some (.settled key g (.converted r)) ∧ reason = excess limit g) ∨
      ∃ newer u older g, l = newer ++ u :: older ∧ u.news? c = some (.settled key g (.declined reason)) ∧
        g.argTags = f.argTags ∧
        ∀ x ∈ newer, ∀ g' reason', x.news? c = some (.settled key g' (.declined reason')) → g'.argTags ≠ f.argTags := by
  rw [Entry.lookup?] at hl
  split at hl
  · next reason' hx =>
    cases hl
    exact .inl (h.exhausted reason hx)
  · right
    split at hl
    · cases hl
    · obtain ⟨reason', hlookup, hreason⟩ := Option.map_eq_some_iff.mp hl
      cases hreason
      rw [List.lookup_eq_findSome?, List.findSome?_eq_some_iff] at hlookup
      obtain ⟨before, ⟨ts, reason'⟩, after, hdeclined, hfound, hbefore⟩ := hlookup
      obtain ⟨htags, hreason⟩ : f.argTags = ts ∧ reason' = reason := by simpa using hfound
      subst htags hreason
      rw [h.declined] at hdeclined
      obtain ⟨newer, u, older, rfl, hdecline, rfl⟩ := split_of_filterMap hdeclined
      obtain ⟨g, hnews, htags⟩ := decline?_eq_some_iff.mp hdecline
      refine ⟨newer, u, older, g, rfl, hnews, htags, ?_⟩
      intro x hx g' reason' hnews' htags'
      have hmem : (f.argTags, reason') ∈ newer.filterMap (·.decline? c key) :=
        List.mem_filterMap.mpr ⟨x, hx, decline?_eq_some_iff.mpr ⟨g', hnews', htags'⟩⟩
      simpa using hbefore _ hmem

end Traced

theorem Effect.consults (h : Effect s t) (hopened : t.stack.consulting c key = f :: s.stack.consulting c key) :
    s.consults? c = some (key, f) := by
  have hfewer (hle : t.stack.consulting c key <:+ s.stack.consulting c key) : s.consults? c = some (key, f) := by
    have hlength := hle.length_le
    rw [hopened, List.length_cons] at hlength
    omega
  cases h with
  | turn | command | entered | recalled | dispatched | offered => exact hfewer (List.suffix_refl _)
  | @settled w e f d stack => cases hd : w.settle e f d <;> rw [hd] at hfewer <;> exact hfewer (List.suffix_refl _)
  | push _ hp =>
    rw [Stack.consulting_cons hp] at hfewer
    exact hfewer (List.suffix_refl _)
  | pop _ hp => exact hfewer (List.suffix_append ..)
  | @classified w d f a stack =>
    rw [deliver_classify] at hfewer
    exact hfewer (List.suffix_refl _)
  | @consulted w c' inner cache b f' stack hc hl =>
    by_cases he : c' = c ∧ ⟨f'.code.id, b⟩ = key
    · obtain ⟨rfl, rfl⟩ := he
      rw [Stack.consulting_remember_self] at hopened
      obtain ⟨rfl, -⟩ := List.cons.inj hopened
      rw [lookup_fst] at hl
      exact (consults?_eq_some_iff hc).mpr ⟨if_pos rfl, hl⟩
    · rw [Stack.consulting_remember_ne (Decidable.not_and_iff_or_not.mp he)] at hfewer
      exact hfewer (List.suffix_refl _)
  | remembered | strayed | abandoned => exact hfewer (List.suffix_append ..)

def Asked (c : ConverterId) (key : Key) (l : List (State H final)) (g : Frame) : Prop :=
  ∃ v ∈ l, v.consults? c = some (key, g)

theorem Asked.cons (h : Asked c key l g) (s : State H final) : Asked c key (s :: l) g := by
  obtain ⟨v, hv, hconsults⟩ := h
  exact ⟨v, List.mem_cons_of_mem s hv, hconsults⟩

structure Sourced (c : ConverterId) (key : Key) (limit : Nat) (past : List (State H final)) (s : State H final)
    (cache : Cache) : Prop where
  limit_eq : cache.limit = limit
  traced : Traced c key limit (since c key.code past) (cache.entry key)
  answered : ∀ newer u older g a, since c key.code past = newer ++ u :: older →
    u.news? c = some (.settled key g a) → Asked c key older g
  opened : ∀ g ∈ s.stack.consulting c key, Asked c key (since c key.code past) g

namespace Sourced

variable (h : Sourced c key limit past s cache)

include h

theorem extend (hlimit : cache'.limit = cache.limit) (hs : s.forgets c key.code = false)
    (ht : Traced c key limit (s :: since c key.code past) (cache'.entry key))
    (ha : ∀ g a, s.news? c = some (.settled key g a) → g ∈ s.stack.consulting c key)
    (ho : ∀ g ∈ t.stack.consulting c key, g ∈ s.stack.consulting c key ∨ s.consults? c = some (key, g)) :
    Sourced c key limit (past ++ [s]) t cache' := by
  have hsince : since c key.code (past ++ [s]) = s :: since c key.code past := by
    rw [since_concat, hs]
    rfl
  refine ⟨hlimit.trans h.limit_eq, hsince ▸ ht, fun newer u older g a hl hnews => ?_, fun g hg => ?_⟩
  · rw [hsince] at hl
    cases newer with
    | nil =>
      obtain ⟨rfl, rfl⟩ := List.cons.inj hl
      exact h.opened g (ha g a hnews)
    | cons x newer => exact h.answered newer u older g a (List.cons.inj hl).2 hnews
  · rw [hsince]
    rcases ho g hg with hold | hnew
    · exact (h.opened g hold).cons s
    · exact ⟨s, List.mem_cons_self, hnew⟩

theorem spared (hlimit : cache'.limit = cache.limit) (hs : s.forgets c key.code = false)
    (hspares : s.Spares c key) (hentry : cache'.entry key = cache.entry key)
    (ho : ∀ g ∈ t.stack.consulting c key, g ∈ s.stack.consulting c key ∨ s.consults? c = some (key, g)) :
    Sourced c key limit (past ++ [s]) t cache' := by
  refine h.extend hlimit hs ?_ (fun g a hnews => absurd hnews (hspares g a)) ho
  rw [hentry]
  exact h.traced.spared hspares

theorem forgotten (hlimit : cache'.limit = cache.limit) (hs : s.forgets c key.code)
    (hentry : cache'.entry key = {}) (ho : t.stack.consulting c key = []) :
    Sourced c key limit (past ++ [s]) t cache' := by
  have hsince : since c key.code (past ++ [s]) = [] := by
    rw [since_concat, if_pos hs]
  refine ⟨hlimit.trans h.limit_eq, ?_, fun newer u older g a hl => ?_, fun g hg => ?_⟩
  · rw [hsince, hentry]
    exact .empty ..
  · rw [hsince] at hl
    exact absurd hl (by simp)
  · rw [ho] at hg
    exact absurd hg List.not_mem_nil

theorem step (hst : s.step β = .running t) (hc : s.world.converter c = .caching inner cache)
    (hkept : s.forgets c key.code → s.stack.consulting c key = []) :
    ∃ cache', t.world.converter c = .caching inner cache' ∧ Sourced c key limit (past ++ [s]) t cache' := by
  have heffect := effect_of_step hst
  obtain ⟨cache', hc', hlimit, hupkeep⟩ := heffect.maintains hc
  refine ⟨cache', hc', ?_⟩
  cases hupkeep with
  | idle hnews hentry hstack =>
    apply h.spared hlimit (by simp [forgets, hnews]) (fun g a => by simp [hnews]) (hentry key)
    intro g hg
    exact .inl ((hstack key).mem hg)
  | @consulted key' f hnews hentry _ hself hstack =>
    apply h.spared hlimit (by simp [forgets, hnews]) (fun g a => by simp [hnews]) (hentry key)
    intro g hg
    by_cases he : key = key'
    · subst he
      rw [hself] at hg
      rcases List.mem_cons.mp hg with rfl | hg
      · exact .inr (heffect.consults hself)
      · exact .inl hg
    · rw [hstack key he] at hg
      exact .inl hg
  | @settled key' f a hnews hcache hself hstack =>
    by_cases he : key = key'
    · subst he
      have hmem : ∀ g ∈ t.stack.consulting c key, g ∈ s.stack.consulting c key := by
        intro g hg
        rw [hself]
        exact List.mem_cons_of_mem _ hg
      refine h.extend hlimit (by simp [forgets, hnews]) ?_ (fun g a' hnews' => ?_) fun g hg => .inl (hmem g hg)
      · rw [hcache, entry_store, if_pos rfl, h.limit_eq]
        exact h.traced.stored hnews
      · cases hnews.symm.trans hnews'
        rw [hself]
        exact List.mem_cons_self
    · have hspares : s.Spares c key := by
        intro g a' hnews'
        cases hnews.symm.trans hnews'
        exact he rfl
      apply h.spared hlimit (by simp [forgets, hnews]) hspares (by rw [hcache, entry_store, if_neg he])
      intro g hg
      rw [hstack key he] at hg
      exact .inl hg
  | @forgotten code hnews hcache hstack =>
    by_cases he : key.code = code
    · subst he
      have hforgets := forgets_iff.mpr hnews
      exact h.forgotten hlimit hforgets (by rw [hcache, entry_invalidate, if_pos rfl])
        ((hstack key).trans (hkept hforgets))
    · have hspares : s.Spares c key := fun g a hnews' => by cases hnews.symm.trans hnews'
      apply h.spared hlimit (by simp [forgets, hnews, Ne.symm he]) hspares
        (by rw [hcache, entry_invalidate, if_neg he])
      intro g hg
      rw [hstack] at hg
      exact .inl hg

end Sourced

theorem sourced_of_run (hn : s.run β n = .running t) (hc : s.world.converter c = .caching inner cache)
    (hfresh : cache.entries = []) (hidle : s.stack.consulting c key = [])
    (hkept : ∀ u ∈ s.visited β n, u.forgets c key.code → u.stack.consulting c key = []) :
    ∃ cache', t.world.converter c = .caching inner cache' ∧
      Sourced c key cache.limit (s.visited β n) t cache' := by
  have hstart : Sourced c key cache.limit [] s cache := by
    refine ⟨rfl, ?_, fun newer u older g a hl => ?_, fun g hg => ?_⟩
    · rw [entry_of_entries_nil hfresh]
      exact .empty ..
    · exact absurd hl (by simp [since])
    · rw [hidle] at hg
      exact absurd hg List.not_mem_nil
  refine visited_induct (I := fun past t => ∃ cache', t.world.converter c = .caching inner cache' ∧
    Sourced c key cache.limit past t cache') ?_ hkept hn ⟨cache, hc, hstart⟩
  rintro past u v hkept huv ⟨cache₁, hc₁, h⟩
  exact h.step huv hc₁ hkept

/-- Among these states, the latest first, the answer to a consultation about `g` comes right before `newer`. -/
def Answered (c : ConverterId) (key : Key) (l newer : List (State H final)) (g : Frame) (a : Conversion) : Prop :=
  ∃ u older, l = newer ++ u :: older ∧ u.news? c = some (.settled key g a) ∧ Asked c key older g

/-- What the answer `a` for `f`, which was given from memory, goes back to. -/
structure FromMemory (c : ConverterId) (key : Key) (limit : Nat) (l : List (State H final)) (f : Frame)
    (a : Conversion) : Prop where
  converted : ∀ {r}, a = .converted r → r.applies f ∧ ∃ newer g, Answered c key l newer g a ∧
    ∀ x ∈ newer, ∀ {g' r'}, x.news? c = some (.settled key g' (.converted r')) → ¬ r'.applies f
  declined : ∀ {reason}, a = .declined reason →
    (∃ newer g r, Answered c key l newer g (.converted r) ∧ reason = excess limit g) ∨
      ∃ newer g, Answered c key l newer g a ∧ g.argTags = f.argTags ∧
        ∀ x ∈ newer, ∀ {g' reason'}, x.news? c = some (.settled key g' (.declined reason')) → g'.argTags ≠ f.argTags
  ne_failed : ∀ cause, a ≠ .failed cause

theorem Sourced.fromMemory (h : Sourced c key limit past t cache) (hl : (cache.entry key).lookup? f = some a) :
    FromMemory c key limit (since c key.code past) f a := by
  refine ⟨?_, ?_, ?_⟩
  · rintro r rfl
    obtain ⟨happlies, newer, u, older, g, hl, hnews, hlatest⟩ := h.traced.of_converted hl
    exact ⟨happlies, newer, g, ⟨u, older, hl, hnews, h.answered newer u older g _ hl hnews⟩,
      fun x hx _ _ => hlatest x hx _ _⟩
  · rintro reason rfl
    rcases h.traced.of_declined hl with ⟨u, hu, g, r, hnews, hreason⟩ | ⟨newer, u, older, g, hl, hnews, htags, hlatest⟩
    · left
      obtain ⟨newer, older, hl⟩ := List.append_of_mem hu
      exact ⟨newer, g, r, ⟨u, older, hl, hnews, h.answered newer u older g _ hl hnews⟩, hreason⟩
    · right
      exact ⟨newer, g, ⟨u, older, hl, hnews, h.answered newer u older g _ hl hnews⟩, htags,
        fun x hx _ _ => hlatest x hx _ _⟩
  · rintro cause rfl
    exact Cache.Entry.lookup?_ne_failed hl

/-- What is answered from memory is the latest answer that fits the frame, to a consultation under the same key since
the code object was last forgotten, or says that the limit was exceeded. -/
theorem memory_in_place (hc : s.world.converter c = .caching inner cache) (hfresh : cache.entries = [])
    (hidle : s.stack.consulting c key = []) (hn : s.run β n = .running t)
    (hkept : ∀ u ∈ s.visited β n, u.forgets c key.code → u.stack.consulting c key = [])
    (ht : t.converts? c = some (key, f)) {w : World H} {stack : Stack H .conversion final}
    (hstep : t.step β = .running ⟨w, .conversion, stack, .answer a⟩) :
    FromMemory c key cache.limit (since c key.code (s.visited β n)) f a := by
  obtain ⟨cache', hc', h⟩ := sourced_of_run hn hc hfresh hidle hkept
  refine h.fromMemory ?_
  cases hfound : (cache'.entry key).lookup? f with
  | some a' =>
    obtain ⟨stack', hrecall⟩ := step_recalls (β := β) hc' ht hfound
    cases hrecall.symm.trans hstep
    rfl
  | none =>
    obtain ⟨stack', hconsult⟩ := step_consults (β := β) hc' ((consults?_eq_some_iff hc').mpr ⟨ht, hfound⟩)
    cases hconsult.symm.trans hstep

end State

open State

namespace Relearning

open OneVariant (frame)
open Overtaken (host key)

def behaviour : Behaviour host :=
  ⟨nofun, fun _ f _ => .done (if f.argTags = [.null] then .declined "null" else Overtaken.unit f), nofun, nofun⟩

def start : State host .conversion :=
  ⟨Overtaken.world, _, .nil, .script (do
    let _ ← Script.request (.convert ⟨0⟩ ⟨0⟩ (frame (.int 1)))
    Script.command (.invalidate ⟨0⟩ ⟨1⟩)
    let _ ← Script.request (.convert ⟨0⟩ ⟨0⟩ (frame (.int 1)))
    let _ ← Script.request (.convert ⟨0⟩ ⟨0⟩ (frame .null))
    let _ ← Script.request (.convert ⟨0⟩ ⟨0⟩ (frame (.int 2)))
    Script.request (.convert ⟨0⟩ ⟨0⟩ (frame .null)))⟩

theorem memory_in_place_relearning :
    (∃ newer g r, Answered ⟨0⟩ key (since ⟨0⟩ ⟨1⟩ (start.visited behaviour 20)) newer g (.converted r) ∧
      r.applies (frame (.int 2))) ∧
    ∃ newer g, Answered ⟨0⟩ key (since ⟨0⟩ ⟨1⟩ (start.visited behaviour 23)) newer g (.declined "null") ∧
      g.argTags = [.null] := by
  have hkept (n : Nat) (hn : n ∈ [20, 23]) :
      ∀ u ∈ start.visited behaviour n, u.forgets ⟨0⟩ key.code → u.stack.consulting ⟨0⟩ key = [] := by
    revert n
    decide +kernel
  constructor
  · have hconverts : (start.after behaviour 20).converts? ⟨0⟩ = some (key, frame (.int 2)) := rfl
    have hanswer : (start.after behaviour 20).step behaviour =
      .running ⟨_, .conversion, _, .answer (.converted ⟨OneVariant.code, .argTags [.int]⟩)⟩ := rfl
    have hmemory := memory_in_place (s := start) (n := 20) rfl rfl rfl rfl (hkept 20 (by decide)) hconverts hanswer
    obtain ⟨happlies, newer, g, hanswered, -⟩ := hmemory.converted rfl
    exact ⟨newer, g, _, hanswered, happlies⟩
  · have hconverts : (start.after behaviour 23).converts? ⟨0⟩ = some (key, frame .null) := rfl
    have hanswer : (start.after behaviour 23).step behaviour =
      .running ⟨_, .conversion, _, .answer (.declined "null")⟩ := rfl
    have hmemory := memory_in_place (s := start) (n := 23) rfl rfl rfl rfl (hkept 23 (by decide)) hconverts hanswer
    rcases hmemory.declined rfl with ⟨-, g, -, -, hexcess⟩ | ⟨newer, g, hanswered, htags, -⟩
    · have hquote : String.toList "null" = _ := congrArg String.toList hexcess
      simp [excess] at hquote
    · exact ⟨newer, g, hanswered, htags⟩

end Relearning

end Interception
