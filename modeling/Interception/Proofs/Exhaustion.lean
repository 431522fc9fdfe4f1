import Interception.Proofs.Consultations
import Interception.Proofs.PureConverters

namespace Interception

variable {H : Host} {final : Kind} {β : Behaviour H}

namespace Cache

variable {limit : Nat} {f : Frame} {a : Conversion} {key : Key} {cache : Cache}

namespace Entry

variable {e : Entry}

theorem lookup?_of_exhausted {reason : String} (h : e.exhausted = some reason) :
    e.lookup? f = some (.declined reason) := by
  rw [lookup?, h]

theorem exhausted_of_lookup? (h : e.lookup? f = none) : e.exhausted = none := by
  cases he : e.exhausted with
  | none => rfl
  | some reason => exact absurd (h.symm.trans (lookup?_of_exhausted he)) (by simp)

theorem length_store_le (e : Entry) (limit : Nat) (f : Frame) (a : Conversion) :
    (e.store limit f a).2.variants.length ≤ e.variants.length + 1 := by
  cases a with
  | converted r =>
    rw [store]
    split
    · exact Nat.zero_le _
    · exact Nat.le_refl _
  | _ => exact Nat.le_succ _

theorem length_store_le_limit (h : e.variants.length ≤ limit) :
    (e.store limit f a).2.variants.length ≤ limit := by
  cases a with
  | converted r =>
    rw [store]
    split
    · exact Nat.zero_le _
    · exact Nat.lt_of_not_le ‹_›
  | _ => exact h

theorem exhausted_store (h : e.exhausted.isSome) : (e.store limit f a).2.exhausted.isSome := by
  cases a with
  | converted r =>
    rw [store]
    split
    · rfl
    · exact h
  | _ => exact h

theorem variants_store (h : e.exhausted = none) (hs : (e.store limit f a).2.exhausted.isSome) :
    (e.store limit f a).2.variants = [] := by
  cases a with
  | converted r =>
    rw [store] at hs ⊢
    split at hs
    · next hfull => rw [if_pos hfull]
    · rw [h] at hs
      cases hs
  | declined reason | failed cause =>
    rw [store, h] at hs
    cases hs

end Entry

theorem entry_of_entries_nil (h : cache.entries = []) (key : Key) : cache.entry key = {} := by
  rw [entry, h]
  rfl

def Fits (cache : Cache) : Prop := ∀ key, (cache.entry key).variants.length ≤ cache.limit

theorem Fits.store (h : cache.Fits) (key : Key) (f : Frame) (a : Conversion) : (cache.store key f a).2.Fits := by
  intro key'
  rw [limit_store, entry_store]
  split
  · exact Entry.length_store_le_limit (h key)
  · exact h key'

theorem Fits.invalidate (h : cache.Fits) (code : CodeId) : (cache.invalidate code).Fits := by
  intro key
  rw [entry_invalidate]
  split
  · exact Nat.zero_le _
  · exact h key

end Cache

open Cache

namespace State

variable {s t : State H final} {c inner : ConverterId} {cache cache' : Cache} {key : Key} {n : Nat}

theorem Upkeep.fits (h : Upkeep c s t cache cache') (hlimit : cache'.limit = cache.limit) (hf : cache.Fits) :
    cache'.Fits := by
  cases h with
  | idle _ hentry | consulted _ hentry =>
    intro key
    rw [hentry, hlimit]
    exact hf key
  | settled _ hcache =>
    rw [hcache]
    exact hf.store _ _ _
  | forgotten _ hcache =>
    rw [hcache]
    exact hf.invalidate _

def Spent (c : ConverterId) (key : Key) (n : Nat) (s : State H final) (cache : Cache) : Prop :=
  (cache.entry key).exhausted.isSome ∧ (cache.entry key).variants.length + (s.stack.consulting c key).length ≤ n

theorem Upkeep.spent (h : Upkeep c s t cache cache')
    (hkept : ∀ code, s.news? c = some (.forgotten code) → code ≠ key.code) (hs : s.Spent c key n cache) :
    t.Spent c key n cache' := by
  obtain ⟨hx, hlength⟩ := hs
  cases h with
  | idle _ hentry hstack =>
    have hle := (hstack key).length_le
    rw [Spent, hentry]
    exact ⟨hx, by omega⟩
  | @consulted key' f _ hentry hlookup _ hstack =>
    have hne : key ≠ key' := by
      rintro rfl
      rw [Entry.exhausted_of_lookup? hlookup] at hx
      cases hx
    rw [Spent, hentry, hstack key hne]
    exact ⟨hx, hlength⟩
  | @settled key' f a _ hcache hself hstack =>
    rw [Spent, hcache, entry_store]
    by_cases he : key = key'
    · subst he
      have hle := Entry.length_store_le (cache.entry key) cache.limit f a
      rw [if_pos rfl]
      rw [hself, List.length_cons] at hlength
      exact ⟨Entry.exhausted_store hx, by omega⟩
    · rw [if_neg he, hstack key he]
      exact ⟨hx, hlength⟩
  | @forgotten code hnews hcache hstack =>
    have hne : key.code ≠ code := Ne.symm (hkept code hnews)
    rw [Spent, hcache, entry_invalidate, if_neg hne, hstack]
    exact ⟨hx, hlength⟩

theorem Upkeep.emptied (h : Upkeep c s t cache cache') (hone : (s.stack.consulting c key).length ≤ 1)
    (hs : (cache.entry key).exhausted.isSome → s.Spent c key 0 cache) (hx : (cache'.entry key).exhausted.isSome) :
    t.Spent c key 0 cache' := by
  cases h with
  | idle _ hentry hstack =>
    have hle := (hstack key).length_le
    rw [hentry] at hx
    obtain ⟨-, hlength⟩ := hs hx
    rw [Spent, hentry]
    exact ⟨hx, by omega⟩
  | @consulted key' f _ hentry hlookup _ hstack =>
    rw [hentry] at hx
    have hne : key ≠ key' := by
      rintro rfl
      rw [Entry.exhausted_of_lookup? hlookup] at hx
      cases hx
    rw [Spent, hentry, hstack key hne]
    exact hs hx
  | @settled key' f a _ hcache hself hstack =>
    rw [hcache, entry_store] at hx
    rw [Spent, hcache, entry_store]
    by_cases he : key = key'
    · subst he
      rw [if_pos rfl] at hx ⊢
      rw [hself, List.length_cons] at hone
      cases hbefore : (cache.entry key).exhausted with
      | none =>
        rw [Entry.variants_store hbefore hx, List.length_nil]
        exact ⟨hx, by omega⟩
      | some reason =>
        -- an exhausted entry does not wait
        obtain ⟨-, hlength⟩ := hs (by rw [hbefore]; rfl)
        rw [hself, List.length_cons] at hlength
        omega
    · rw [if_neg he] at hx ⊢
      rw [hstack key he]
      exact hs hx
  | @forgotten code _ hcache hstack =>
    rw [hcache, entry_invalidate] at hx
    rw [Spent, hcache, entry_invalidate, hstack]
    by_cases he : key.code = code
    · rw [if_pos he] at hx
      cases hx
    · rw [if_neg he] at hx ⊢
      exact hs hx

theorem convert_exhausted {w : World H} {b : CompilerId} {f : Frame}
    (hc : w.converter c = .caching inner cache) (hx : (cache.entry ⟨f.code.id, b⟩).exhausted.isSome) :
    ∃ w' reason, Finishes β (ofRequest w (.convert c b f)) w' (.ok (.declined reason)) := by
  obtain ⟨reason, hreason⟩ := Option.isSome_iff_exists.mp hx
  have hlookup : (cache.lookup ⟨f.code.id, b⟩ f).1 = some (.declined reason) := by
    rw [lookup_fst, Entry.lookup?_of_exhausted hreason]
  exact ⟨_, reason, convert_remembered hc (Prod.ext hlookup rfl)⟩

/-- From a fresh cache on, no entry exceeds the limit. An exhausted one declines every frame until its code object is
forgotten, and comes to hold no replacements but the answers to consultations that were open already. -/
theorem exhaustion_lasts {m : Nat} (hc : s.world.converter c = .caching inner cache) (hfresh : cache.entries = [])
    (hm : s.run β m = .running t) :
    ∃ cache₁, t.world.converter c = .caching inner cache₁ ∧
      (∀ key, (cache₁.entry key).variants.length ≤ cache.limit) ∧
      ∀ key, (cache₁.entry key).exhausted.isSome →
        ((∀ v ∈ s.visited β m, (v.stack.consulting c key).length ≤ 1) →
          (cache₁.entry key).variants = [] ∧ t.stack.consulting c key = []) ∧
        ∀ n u, t.run β n = .running u → (∀ code, .forgotten code ∈ t.news β c n → code ≠ key.code) →
          ∃ cache₂, u.world.converter c = .caching inner cache₂ ∧ (cache₂.entry key).exhausted.isSome ∧
            (cache₂.entry key).variants.length + (u.stack.consulting c key).length ≤
              (cache₁.entry key).variants.length + (t.stack.consulting c key).length ∧
            ∀ b f, key = ⟨f.code.id, b⟩ → ∃ w reason,
              Finishes β (ofRequest u.world (.convert c b f)) w (.ok (.declined reason)) := by
  have hempty : cache.Fits := by
    intro key
    rw [entry_of_entries_nil hfresh]
    exact Nat.zero_le _
  obtain ⟨cache₁, hc₁, hlimit, hfits⟩ := maintained (P := fun _ _ cache => cache.Fits) (Q := fun _ => True)
    (fun _ _ _ _ _ _ h hlimit hf => h.fits hlimit hf) (fun _ _ => trivial) hm hc hempty
  refine ⟨cache₁, hc₁, fun key => hlimit ▸ hfits key, fun key hx => ⟨fun hone => ?_, ?_⟩⟩
  · have hstart : (cache.entry key).exhausted.isSome → s.Spent c key 0 cache := by
      rw [entry_of_entries_nil hfresh]
      exact nofun
    obtain ⟨cache₁', hc₁', -, hspent⟩ := maintained
      (P := fun _ t cache => (cache.entry key).exhausted.isSome → t.Spent c key 0 cache)
      (fun _ _ _ _ _ hone h _ hs => h.emptied hone hs) hone hm hc hstart
    cases hc₁.symm.trans hc₁'
    obtain ⟨-, hlength⟩ := hspent hx
    exact ⟨List.length_eq_zero_iff.mp (by omega), List.length_eq_zero_iff.mp (by omega)⟩
  · intro n u hn hkept
    have hok : ∀ v ∈ t.visited β n, ∀ code, v.news? c = some (.forgotten code) → code ≠ key.code :=
      fun v hv code hcode => hkept code (mem_news.mpr ⟨v, hv, hcode⟩)
    obtain ⟨cache₂, hc₂, -, hx₂, hlength⟩ := maintained
      (P := fun _ => State.Spent c key ((cache₁.entry key).variants.length + (t.stack.consulting c key).length))
      (fun _ _ _ _ _ hkept h _ hs => h.spent hkept hs) hok hn hc₁ ⟨hx, Nat.le_refl _⟩
    refine ⟨cache₂, hc₂, hx₂, hlength, ?_⟩
    rintro b f rfl
    exact convert_exhausted hc₂ hx₂

end State

open State

namespace Overtaken

open OneVariant (frame)

abbrev host : Host := ⟨Unit, Empty, Empty, Empty, Empty, Unit, Empty, Empty⟩

def unit (f : Frame) : Conversion := .converted ⟨f.code, .argTags f.argTags⟩

def behaviour : Behaviour host :=
  ⟨nofun, fun _ f _ =>
    if f.argTags = [.int] then
      .ask (.evaluate ⟨0⟩ 0 #[.bool true]) fun _ => .ask (.evaluate ⟨0⟩ 0 #[.null]) fun _ => .done (unit f)
    else .done (unit f), nofun, nofun⟩

def world : World host :=
  { slots := ⟨#[.active ⟨0⟩]⟩
    handlers := ⟨#[.dispatch ⟨⟨0⟩, ⟨0⟩, {}, ⟨0⟩⟩]⟩
    converters := ⟨#[.caching ⟨1⟩ { limit := 1 }, .custom ()]⟩
    compilers := ⟨#[.eager]⟩
    tallies := ⟨#[{}]⟩
    evaluators := ⟨#[{ program := ⟨#[OneVariant.code]⟩, slot := .thread, maxDepth := 1 }]⟩
    host := () }

def start : State host .conversion := .ofRequest world (.convert ⟨0⟩ ⟨0⟩ (frame (.int 1)))

def key : Key := ⟨⟨1⟩, ⟨0⟩⟩

def exceeded : Conversion := .declined (excess 1 (frame .null))

theorem exhaustion_lasts_overtaken :
    ∃ t u cache₁ cache₂, Reaches behaviour start t ∧ Reaches behaviour t u ∧
      t.world.converter ⟨0⟩ = .caching ⟨1⟩ cache₁ ∧ (cache₁.entry key).exhausted.isSome ∧
      u.world.converter ⟨0⟩ = .caching ⟨1⟩ cache₂ ∧ (cache₂.entry key).variants.length ≤ 1 ∧
      ∀ v, ∃ w reason, Finishes behaviour (.ofRequest u.world (.convert ⟨0⟩ ⟨0⟩ (frame v))) w
        (.ok (.declined reason)) := by
  have hm : start.run behaviour 26 = .running _ := rfl
  obtain ⟨cache₁, hc₁, hfits, hlasts⟩ := exhaustion_lasts (c := ⟨0⟩) rfl rfl hm
  have hx : (cache₁.entry key).exhausted.isSome := by
    obtain ⟨-, rfl⟩ := Converter.caching.inj hc₁
    rfl
  obtain ⟨cache₂, hc₂, -, hlength, hdeclined⟩ := (hlasts key hx).2 8 _ rfl (by
    intro code hcode
    have hnews := List.mem_singleton.mp (show _ ∈ [Cache.News.settled key (frame (.int 1)) (unit (frame (.int 1)))]
      from hcode)
    cases hnews)
  refine ⟨_, _, cache₁, cache₂, ⟨26, hm⟩, ⟨8, rfl⟩, hc₁, hx, hc₂, ?_, fun v => hdeclined _ _ rfl⟩
  obtain ⟨-, rfl⟩ := Converter.caching.inj hc₁
  exact Nat.le_trans (Nat.le_add_right ..) hlength

/-- After the limit was exceeded the first frame is still converted, and the exhausted entry holds its replacement. -/
theorem exhausted_entry_refilled :
    ∃ w stack, Reaches behaviour start ⟨w, .conversion, stack, .answer exceeded⟩ ∧
      ∃ w' cache, Finishes behaviour (⟨w, .conversion, stack, .answer exceeded⟩ : State host .conversion) w'
          (.ok (unit (frame (.int 1)))) ∧
        w'.converter ⟨0⟩ = .caching ⟨1⟩ cache ∧ (cache.entry key).exhausted = some (excess 1 (frame .null)) ∧
        cache.contains ⟨1⟩ = true :=
  ⟨_, _, ⟨26, rfl⟩, _, _, ⟨9, rfl⟩, rfl, rfl, rfl⟩

end Overtaken

end Interception
