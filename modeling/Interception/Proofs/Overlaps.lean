import Mathlib.Data.List.Nodup
import Mathlib.Data.List.Perm.Subperm
import Interception.Proofs.Exhaustion

namespace Interception

variable {H : Host} {final : Kind} {β : Behaviour H}

namespace Cache

def learn (key : Key) (seen : List (List Tag)) : News → List (List Tag)
  | .settled key' f (.converted _) => if key' = key then seen.insert f.argTags else seen
  | .settled _ _ _ => seen
  | .forgotten code => if key.code = code then [] else seen

def learned (key : Key) (news : List News) : List (List Tag) := news.foldl (learn key) []

theorem learned_concat (key : Key) (past : List News) (news : News) :
    learned key (past ++ [news]) = learn key (learned key past) news := by
  simp [learned]

theorem nodup_learned (key : Key) (news : List News) : (learned key news).Nodup := by
  have hlearn (seen : List (List Tag)) (h : seen.Nodup) (news : News) : (learn key seen news).Nodup := by
    cases news with
    | settled key' f a =>
      cases a with
      | converted r =>
        rw [learn]
        split
        · exact h.insert
        · exact h
      | _ => exact h
    | forgotten code =>
      rw [learn]
      split
      · exact .nil
      · exact h
  exact List.foldlRecOn news (learn key) .nil fun seen h news _ => hlearn seen h news

def News.Guards (key : Key) : News → Prop
  | .settled key' f (.converted r) => key' = key → r.guard = .argTags f.argTags
  | _ => True

variable {limit : Nat} {f : Frame} {a : Conversion} {key : Key} {seen tags : List (List Tag)} {e : Entry}

structure Entry.Apart (limit : Nat) (seen tags : List (List Tag)) (e : Entry) : Prop where
  guards : e.variants.map (·.guard) = tags.map .argTags
  nodup : tags.Nodup
  subset : tags ⊆ seen
  exhausted : e.exhausted.isSome → limit < seen.length

namespace Entry.Apart

theorem empty (limit : Nat) : Entry.Apart limit [] [] {} := ⟨rfl, .nil, List.nil_subset _, nofun⟩

theorem nodup_guards (h : e.Apart limit seen tags) : (e.variants.map (·.guard)).Nodup := by
  rw [h.guards]
  exact h.nodup.map fun _ _ he => Guard.argTags.inj he

theorem length_variants (h : e.Apart limit seen tags) : e.variants.length = tags.length := by
  have hlength := congrArg List.length h.guards
  rwa [List.length_map, List.length_map] at hlength

theorem not_mem (h : e.Apart limit seen tags) (hl : e.lookup? f = none) : f.argTags ∉ tags := by
  intro hmem
  have hguard : Guard.argTags f.argTags ∈ e.variants.map (·.guard) := by
    rw [h.guards]
    exact List.mem_map_of_mem hmem
  obtain ⟨r, hr, hrg⟩ := List.mem_map.mp hguard
  have happlies : r.applies f := by simp [Replacement.applies, hrg, Guard.holds]
  rw [lookup?, exhausted_of_lookup? hl] at hl
  cases hfind : e.variants.find? (·.applies f) with
  | some r' => simp [hfind] at hl
  | none => exact List.find?_eq_none.mp hfind r hr happlies

theorem insert {r : Replacement} (h : e.Apart limit seen tags) (hf : f.argTags ∉ tags)
    (hr : r.guard = .argTags f.argTags) :
    ∃ tags', (e.store limit f (.converted r)).2.Apart limit (seen.insert f.argTags) tags' ∧
      tags' ⊆ f.argTags :: tags := by
  have hsubset : f.argTags :: tags ⊆ seen.insert f.argTags := by
    intro ts hts
    rcases List.mem_cons.mp hts with rfl | hts
    · exact List.mem_insert_self
    · exact List.mem_insert_of_mem (h.subset hts)
  have hnodup : (f.argTags :: tags).Nodup := List.nodup_cons.mpr ⟨hf, h.nodup⟩
  have hlength := (hnodup.subperm hsubset).length_le
  rw [List.length_cons, ← h.length_variants] at hlength
  rw [store]
  split
  · next hfull => exact ⟨[], ⟨rfl, .nil, List.nil_subset _, fun _ => by omega⟩, List.nil_subset _⟩
  · refine ⟨f.argTags :: tags, ⟨?_, hnodup, hsubset, fun hx => ?_⟩, List.Subset.refl _⟩
    · rw [List.map_cons, h.guards, hr]
      rfl
    · exact Nat.lt_of_lt_of_le (h.exhausted hx) List.length_le_length_insert

theorem store (h : e.Apart limit seen tags) (hf : f.argTags ∉ tags) (ha : News.Guards key (.settled key f a)) :
    ∃ tags', (e.store limit f a).2.Apart limit (learn key seen (.settled key f a)) tags' ∧
      tags' ⊆ f.argTags :: tags := by
  cases a with
  | converted r =>
    rw [learn, if_pos rfl]
    exact h.insert hf (ha rfl)
  | declined reason => exact ⟨tags, ⟨h.guards, h.nodup, h.subset, h.exhausted⟩, List.subset_cons_self ..⟩
  | failed cause => exact ⟨tags, h, List.subset_cons_self ..⟩

end Entry.Apart

end Cache

open Cache

namespace State

variable {s t : State H final} {c inner : ConverterId} {cache cache' : Cache} {key : Key} {n : Nat}
  {past : List (State H final)} {limit : Nat}

def Apart (c : ConverterId) (key : Key) (limit : Nat) (past : List (State H final)) (s : State H final)
    (cache : Cache) : Prop :=
  cache.limit = limit ∧
    ∃ tags, (cache.entry key).Apart limit (learned key (past.filterMap (·.news? c))) tags ∧
      ∀ f ∈ s.stack.consulting c key, f.argTags ∉ tags

theorem Upkeep.apart (h : Upkeep c s t cache cache') (hlimit : cache'.limit = cache.limit)
    (hdistinct : ((s.stack.consulting c key).map Frame.argTags).Nodup)
    (hguards : ∀ news, s.news? c = some news → news.Guards key) (hs : Apart c key limit past s cache) :
    Apart c key limit (past ++ [s]) t cache' := by
  obtain ⟨rfl, tags, ha, hopen⟩ := hs
  refine ⟨hlimit, ?_⟩
  rw [filterMap_concat]
  cases h with
  | idle hnews hentry hstack =>
    rw [hnews, hentry, Option.toList_none, List.append_nil]
    exact ⟨tags, ha, fun f hf => hopen f ((hstack key).mem hf)⟩
  | @consulted key' f hnews hentry hlookup hself hstack =>
    rw [hnews, hentry, Option.toList_none, List.append_nil]
    refine ⟨tags, ha, fun g hg => ?_⟩
    by_cases he : key = key'
    · subst he
      rw [hself] at hg
      rcases List.mem_cons.mp hg with rfl | hg
      · exact ha.not_mem hlookup
      · exact hopen g hg
    · rw [hstack key he] at hg
      exact hopen g hg
  | @settled key' f a hnews hcache hself hstack =>
    rw [hnews, hcache, entry_store, Option.toList_some, learned_concat]
    by_cases he : key = key'
    · subst he
      rw [hself] at hopen hdistinct
      obtain ⟨tags', ha', hsubset⟩ := ha.store (hopen f List.mem_cons_self) (hguards _ hnews)
      rw [if_pos rfl]
      refine ⟨tags', ha', fun g hg hmem => ?_⟩
      rcases List.mem_cons.mp (hsubset hmem) with hsame | hold
      · have hfirst := (List.nodup_cons.mp hdistinct).1
        exact hfirst (hsame ▸ List.mem_map_of_mem hg)
      · exact hopen g (List.mem_cons_of_mem _ hg) hold
    · have hlearn : learn key (learned key (past.filterMap (·.news? c))) (.settled key' f a) =
          learned key (past.filterMap (·.news? c)) := by
        cases a with
        | converted r => exact if_neg (Ne.symm he)
        | _ => rfl
      rw [if_neg he, hlearn, hstack key he]
      exact ⟨tags, ha, hopen⟩
  | @forgotten code hnews hcache hstack =>
    rw [hnews, hcache, entry_invalidate, Option.toList_some, learned_concat, learn, hstack]
    split
    · exact ⟨[], .empty _, fun _ _ => List.not_mem_nil⟩
    · exact ⟨tags, ha, hopen⟩

/-- As long as no two open consultations are about the same types of arguments, the replacements under a key have
different guards, and only more types of arguments than the limit allows exhaust it. -/
theorem overlaps_apart (hc : s.world.converter c = .caching inner cache) (hfresh : cache.entries = [])
    (hn : s.run β n = .running t) (hguards : ∀ news ∈ s.news β c n, news.Guards key)
    (hdistinct : ∀ u ∈ s.visited β n, ((u.stack.consulting c key).map Frame.argTags).Nodup) :
    ∃ cache', t.world.converter c = .caching inner cache' ∧ ((cache'.entry key).variants.map (·.guard)).Nodup ∧
      (learned key (s.news β c n)).Nodup ∧
      ((cache'.entry key).exhausted.isSome → cache.limit < (learned key (s.news β c n)).length) := by
  have hok : ∀ u ∈ s.visited β n, ((u.stack.consulting c key).map Frame.argTags).Nodup ∧
      ∀ news, u.news? c = some news → news.Guards key :=
    fun u hu => ⟨hdistinct u hu, fun news hnews => hguards news (mem_news.mpr ⟨u, hu, hnews⟩)⟩
  have hstart : Apart c key cache.limit [] s cache := by
    refine ⟨rfl, [], ?_, fun _ _ => List.not_mem_nil⟩
    rw [entry_of_entries_nil hfresh]
    exact .empty _
  obtain ⟨cache', hc', -, -, tags, ha, -⟩ := maintained (P := Apart c key cache.limit)
    (fun _ _ _ _ _ hok h hlimit hs => h.apart hlimit hok.1 hok.2 hs) hok hn hc hstart
  exact ⟨cache', hc', ha.nodup_guards, nodup_learned key _, ha.exhausted⟩

end State

open State

namespace Overtaken

open OneVariant (frame)

theorem overlaps_apart_overtaken :
    ∃ w cache, Finishes behaviour start w (.ok (unit (frame (.int 1)))) ∧ w.converter ⟨0⟩ = .caching ⟨1⟩ cache ∧
      ((cache.entry key).variants.map (·.guard)).Nodup ∧ (cache.entry key).exhausted.isSome ∧
      cache.limit < (learned key (start.news behaviour ⟨0⟩ 34)).length := by
  have hn : start.run behaviour 34 = .running _ := rfl
  have hguards : ∀ news ∈ start.news behaviour ⟨0⟩ 34, news.Guards key := by
    have hnews : start.news behaviour ⟨0⟩ 34 = [.bool true, .null, .int 1].map fun v =>
      .settled key (frame v) (unit (frame v)) := rfl
    rw [hnews]
    intro news hmem
    obtain ⟨v, -, rfl⟩ := List.mem_map.mp hmem
    exact fun _ => rfl
  obtain ⟨cache, hc, hguards, -, hlearned⟩ := overlaps_apart (c := ⟨0⟩) rfl rfl hn hguards (by decide +kernel)
  refine ⟨_, cache, ⟨35, rfl⟩, hc, hguards, ?_⟩
  obtain ⟨-, rfl⟩ := Converter.caching.inj hc
  exact ⟨rfl, hlearned rfl⟩

end Overtaken

namespace AskedTwice

open OneVariant (frame)
open Overtaken (host unit key)

def behaviour : Behaviour host :=
  ⟨nofun, fun _ f _ =>
    match f.args with
    | [.bool true] => .ask (.evaluate ⟨0⟩ 0 #[.bool false]) fun _ => .done (unit f)
    | _ => .done (unit f), nofun, nofun⟩

def start (limit : Nat) : State host .conversion :=
  .ofRequest { Overtaken.world with converters := ⟨#[.caching ⟨1⟩ { limit }, .custom ()]⟩ }
    (.convert ⟨0⟩ ⟨0⟩ (frame (.bool true)))

/-- With room for two replacements both are kept, under the same guard. With room for one the entry is exhausted, though
no other types of arguments have come. -/
theorem overlap_counted_twice :
    (∃ w cache, Finishes behaviour (start 2) w (.ok (unit (frame (.bool true)))) ∧
        w.converter ⟨0⟩ = .caching ⟨1⟩ cache ∧
        (cache.entry key).variants.map (·.guard) = [.argTags [.bool], .argTags [.bool]]) ∧
      ∃ w cache, Finishes behaviour (start 1) w (.ok (.declined (excess 1 (frame (.bool true))))) ∧
        w.converter ⟨0⟩ = .caching ⟨1⟩ cache ∧ (cache.entry key).exhausted.isSome ∧
        learned key ((start 1).news behaviour ⟨0⟩ 40) = [[.bool]] :=
  ⟨⟨_, _, ⟨40, rfl⟩, rfl, rfl⟩, _, _, ⟨40, rfl⟩, rfl, rfl, rfl⟩

end AskedTwice

end Interception
