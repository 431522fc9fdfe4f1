import Interception.Proofs.Cache

namespace Interception

namespace Cache

variable {limit : Nat}

inductive Inquiry
  | convert (b : CompilerId) (f : Frame)
  | invalidate (code : CodeId)

def meet (ask : List Tag → Conversion) (fs : List Frame) (f : Frame) : List Frame :=
  match ask f.argTags with
  | .converted _ => if f.argTags ∈ fs.map Frame.argTags then fs else fs ++ [f]
  | _ => fs

def note (ask : Key → List Tag → Conversion) (k : Key) (fs : List Frame) : Inquiry → List Frame
  | .convert b f => if ⟨f.code.id, b⟩ = k then meet (ask k) fs f else fs
  | .invalidate code => if k.code = code then [] else fs

def signatures (ask : Key → List Tag → Conversion) (k : Key) (is : List Inquiry) : List Frame :=
  is.foldl (note ask k) []

def excess (limit : Nat) (f : Frame) : String :=
  "'" ++ f.name ++ "' exceeded " ++ toString limit ++ " cached variants"

def reply (limit : Nat) (ask : List Tag → Conversion) (fs : List Frame) (f : Frame) : Conversion :=
  match fs[limit]? with
  | some g => .declined (excess limit g)
  | none => ask f.argTags

def replies (limit : Nat) (ask : Key → List Tag → Conversion) : List Inquiry → List Inquiry → List Conversion
  | _, [] => []
  | past, .convert b f :: is =>
    let now := past ++ [.convert b f]
    reply limit (ask ⟨f.code.id, b⟩) (signatures ask ⟨f.code.id, b⟩ now) f :: replies limit ask now is
  | past, .invalidate code :: is => replies limit ask (past ++ [.invalidate code]) is

def Guarding (ask : List Tag → Conversion) : Prop := ∀ ts r, ask ts = .converted r → r.guard = .argTags ts

section

variable {ask : List Tag → Conversion} {fs : List Frame} {f g : Frame} {r : Replacement} {e : Entry} {a : Conversion}

theorem meet_known (h : f.argTags ∈ fs.map Frame.argTags) : meet ask fs f = fs := by
  rw [meet]
  split
  · rw [if_pos h]
  · rfl

theorem meet_new (ha : ask f.argTags = .converted r) (h : f.argTags ∉ fs.map Frame.argTags) :
    meet ask fs f = fs ++ [f] := by
  rw [meet, ha]
  exact if_neg h

theorem meet_unconverted (h : ∀ r, ask f.argTags ≠ .converted r) : meet ask fs f = fs := by
  rw [meet]
  split
  · next r hr => exact absurd hr (h r)
  · rfl

theorem meet_eq_or (ask : List Tag → Conversion) (fs : List Frame) (f : Frame) :
    meet ask fs f = fs ∨ meet ask fs f = fs ++ [f] := by
  rw [meet]
  split
  · split
    · exact .inl rfl
    · exact .inr rfl
  · exact .inl rfl

theorem meet_getElem? {i : Nat} (h : fs[i]? = some g) : (meet ask fs f)[i]? = some g := by
  rcases meet_eq_or ask fs f with he | he
  · rwa [he]
  · have hi : i < fs.length := (List.getElem?_eq_some_iff.mp h).1
    rwa [he, List.getElem?_append_left hi]

theorem Guarding.applies_iff (hg : Guarding ask) (h : ask g.argTags = .converted r) :
    r.applies f = true ↔ f.argTags = g.argTags := by
  simp [Replacement.applies, Guard.holds, hg _ _ h]

structure Entry.Remembers (limit : Nat) (ask : List Tag → Conversion) (fs : List Frame) (e : Entry) : Prop where
  exhausted : e.exhausted = fs[limit]?.map (excess limit)
  variants : fs.length ≤ limit → e.variants.map .converted = (fs.map fun g => ask g.argTags).reverse
  declined : ∀ ts reason, e.declined.lookup ts = some reason → ask ts = .declined reason

namespace Entry.Remembers

theorem nil (limit : Nat) (ask : List Tag → Conversion) : Remembers limit ask [] {} :=
  ⟨rfl, fun _ => rfl, nofun⟩

theorem exhausted_iff (h : Remembers limit ask fs e) : e.exhausted.isSome ↔ limit < fs.length := by
  rw [h.exhausted, Option.isSome_map]
  simp

theorem mem_variants (h : Remembers limit ask fs e) (hfs : fs.length ≤ limit) :
    r ∈ e.variants ↔ ∃ g ∈ fs, ask g.argTags = .converted r := by
  have hmem : r ∈ e.variants ↔ Conversion.converted r ∈ e.variants.map .converted := by simp
  rw [hmem, h.variants hfs]
  simp

theorem of_find? (h : Remembers limit ask fs e) (hg : Guarding ask) (hfs : fs.length ≤ limit)
    (hr : e.variants.find? (·.applies f) = some r) :
    ask f.argTags = .converted r ∧ f.argTags ∈ fs.map Frame.argTags := by
  obtain ⟨g, hmem, ha⟩ := (h.mem_variants hfs).mp (List.mem_of_find?_eq_some hr)
  have happlies := List.find?_some hr
  have htags : f.argTags = g.argTags := (hg.applies_iff ha).mp happlies
  exact ⟨htags ▸ ha, htags ▸ List.mem_map_of_mem hmem⟩

theorem not_mem_of_find? (h : Remembers limit ask fs e) (hg : Guarding ask) (hfs : fs.length ≤ limit)
    (hr : e.variants.find? (·.applies f) = none) (ha : ask f.argTags = .converted r) :
    f.argTags ∉ fs.map Frame.argTags := by
  intro hmem
  obtain ⟨g, hgmem, htags⟩ := List.mem_map.mp hmem
  have hga : ask g.argTags = .converted r := htags ▸ ha
  have hnone := List.find?_eq_none.mp hr r ((h.mem_variants hfs).mpr ⟨g, hgmem, hga⟩)
  exact hnone ((hg.applies_iff hga).mpr htags.symm)

theorem answered (h : Remembers limit ask fs e) (hg : Guarding ask) (hl : e.lookup? f = some a) :
    a = reply limit ask (meet ask fs f) f ∧ Remembers limit ask (meet ask fs f) e := by
  cases hfs : fs[limit]? with
  | some g =>
    have hmeet : (meet ask fs f)[limit]? = some g := meet_getElem? hfs
    have hexhausted : e.exhausted = some (excess limit g) := by rw [h.exhausted, hfs, Option.map_some]
    have hlong : limit < (meet ask fs f).length := (List.getElem?_eq_some_iff.mp hmeet).1
    constructor
    · rw [lookup?, hexhausted] at hl
      rw [reply, hmeet]
      exact (Option.some.inj hl).symm
    · refine ⟨?_, fun hle => absurd hle (by omega), h.declined⟩
      rw [hexhausted, hmeet, Option.map_some]
  | none =>
    have hshort : fs.length ≤ limit := List.getElem?_eq_none_iff.mp hfs
    have hexhausted : e.exhausted = none := by rw [h.exhausted, hfs, Option.map_none]
    have hanswer : a = ask f.argTags ∧ meet ask fs f = fs := by
      rw [lookup?, hexhausted] at hl
      cases hr : e.variants.find? (·.applies f) with
      | some r =>
        obtain ⟨ha, hmem⟩ := h.of_find? hg hshort hr
        simp only [hr, Option.some.injEq] at hl
        exact ⟨hl.symm.trans ha.symm, meet_known hmem⟩
      | none =>
        simp only [hr, Option.map_eq_some_iff] at hl
        obtain ⟨reason, hreason, rfl⟩ := hl
        have ha := h.declined _ _ hreason
        refine ⟨ha.symm, meet_unconverted fun r hr => ?_⟩
        cases ha.symm.trans hr
    obtain ⟨rfl, hmeet⟩ := hanswer
    rw [hmeet, reply, hfs]
    exact ⟨rfl, h⟩

theorem stored (h : Remembers limit ask fs e) (hg : Guarding ask) (hl : e.lookup? f = none) :
    (e.store limit f (ask f.argTags)).1 = reply limit ask (meet ask fs f) f ∧
      Remembers limit ask (meet ask fs f) (e.store limit f (ask f.argTags)).2 := by
  have hexhausted : e.exhausted = none := by
    cases he : e.exhausted with
    | none => rfl
    | some reason =>
      rw [lookup?, he] at hl
      cases hl
  have hfs : fs[limit]? = none := by
    rw [h.exhausted, Option.map_eq_none_iff] at hexhausted
    exact hexhausted
  have hshort : fs.length ≤ limit := List.getElem?_eq_none_iff.mp hfs
  have hfind : e.variants.find? (·.applies f) = none := by
    cases hr : e.variants.find? (·.applies f) with
    | none => rfl
    | some r =>
      rw [lookup?, hexhausted] at hl
      simp [hr] at hl
  cases ha : ask f.argTags with
  | converted r =>
    have hmeet := meet_new ha (h.not_mem_of_find? hg hshort hfind ha)
    have hlength : e.variants.length = fs.length := by simpa using congrArg List.length (h.variants hshort)
    rw [hmeet, store]
    by_cases hfull : limit ≤ e.variants.length
    · -- the signature is one too many
      obtain rfl : limit = fs.length := by omega
      have hnew : (fs ++ [f])[fs.length]? = some f := List.getElem?_concat_length
      rw [if_pos hfull, reply, hnew]
      refine ⟨rfl, ?_, fun hle => ?_, h.declined⟩
      · rw [hnew]
        rfl
      · rw [List.length_append, List.length_singleton] at hle
        omega
    · have hnew : (fs ++ [f])[limit]? = none := by
        apply List.getElem?_eq_none
        simp only [List.length_append, List.length_singleton]
        omega
      rw [if_neg hfull, reply, hnew]
      refine ⟨ha.symm, ?_, fun _ => ?_, h.declined⟩
      · rw [hnew]
        exact hexhausted
      · rw [List.map_cons, h.variants hshort, List.map_append, List.reverse_append, List.map_singleton, ha]
        rfl
  | declined reason =>
    have hmeet : meet ask fs f = fs := meet_unconverted fun r hr => by cases ha.symm.trans hr
    rw [hmeet, store, reply, hfs]
    refine ⟨ha.symm, h.exhausted, h.variants, fun ts reason' hlookup => ?_⟩
    rw [List.lookup_cons] at hlookup
    by_cases hts : ts = f.argTags
    · subst hts
      simp only [beq_self_eq_true, Option.some.injEq] at hlookup
      rw [ha, hlookup]
    · simp only [beq_eq_false_iff_ne.mpr hts] at hlookup
      exact h.declined ts reason' hlookup
  | failed cause =>
    have hmeet : meet ask fs f = fs := meet_unconverted fun r hr => by cases ha.symm.trans hr
    rw [hmeet, store, reply, hfs]
    exact ⟨ha.symm, h⟩

end Entry.Remembers

end

theorem lookup_fst (c : Cache) (k : Key) (f : Frame) : (c.lookup k f).1 = (c.entry k).lookup? f := by
  rw [lookup]
  split
  · next ha => exact ha.symm
  · next ha => exact ha.symm

theorem limit_lookup (c : Cache) (k : Key) (f : Frame) : (c.lookup k f).2.limit = c.limit := by
  rw [lookup]
  split <;> rfl

theorem store_fst (c : Cache) (k : Key) (f : Frame) (a : Conversion) :
    (c.store k f a).1 = ((c.entry k).store c.limit f a).1 := by
  cases a <;> rfl

theorem limit_store (c : Cache) (k : Key) (f : Frame) (a : Conversion) : (c.store k f a).2.limit = c.limit := by
  cases a <;> rfl

theorem entry_store (c : Cache) (k k' : Key) (f : Frame) (a : Conversion) :
    (c.store k f a).2.entry k' = if k' = k then ((c.entry k).store c.limit f a).2 else c.entry k' := by
  cases a with
  | failed cause =>
    split
    · next hk => rw [hk]; rfl
    · rfl
  | _ => exact entry_setEntry ..

variable {ask : Key → List Tag → Conversion} {past : List Inquiry} {c : Cache} {b : CompilerId} {f : Frame}
  {a : Conversion}

theorem signatures_concat (ask : Key → List Tag → Conversion) (k : Key) (past : List Inquiry) (i : Inquiry) :
    signatures ask k (past ++ [i]) = note ask k (signatures ask k past) i := by
  simp [signatures]

structure Remembers (limit : Nat) (ask : Key → List Tag → Conversion) (past : List Inquiry) (c : Cache) : Prop where
  limit_eq : c.limit = limit
  entries : ∀ k, (c.entry k).Remembers limit (ask k) (signatures ask k past)

namespace Remembers

theorem nil (hc : c.entries = []) : c.Remembers c.limit ask [] := by
  refine ⟨rfl, fun k => ?_⟩
  have hentry : c.entry k = {} := by
    rw [entry, hc]
    rfl
  rw [hentry]
  exact .nil ..

theorem convert (h : c.Remembers limit ask past) {c' : Cache} (hlimit : c'.limit = c.limit)
    (hentry : ∀ k, k ≠ ⟨f.code.id, b⟩ → c'.entry k = c.entry k)
    (hown : (c'.entry ⟨f.code.id, b⟩).Remembers limit (ask ⟨f.code.id, b⟩)
      (meet (ask ⟨f.code.id, b⟩) (signatures ask ⟨f.code.id, b⟩ past) f)) :
    c'.Remembers limit ask (past ++ [.convert b f]) := by
  refine ⟨hlimit.trans h.limit_eq, fun k => ?_⟩
  rw [signatures_concat, note]
  by_cases hk : ⟨f.code.id, b⟩ = k
  · subst hk
    rw [if_pos rfl]
    exact hown
  · rw [if_neg hk, hentry k (Ne.symm hk)]
    exact h.entries k

theorem answered (h : c.Remembers limit ask past) (hg : ∀ k, Guarding (ask k))
    (hl : (c.lookup ⟨f.code.id, b⟩ f).1 = some a) :
    a = reply limit (ask ⟨f.code.id, b⟩) (signatures ask ⟨f.code.id, b⟩ (past ++ [.convert b f])) f ∧
      (c.lookup ⟨f.code.id, b⟩ f).2.Remembers limit ask (past ++ [.convert b f]) := by
  rw [lookup_fst] at hl
  obtain ⟨ha, he⟩ := (h.entries _).answered (hg _) hl
  constructor
  · rw [signatures_concat, note, if_pos rfl, ha]
  · apply h.convert (limit_lookup ..) (fun k _ => entry_lookup ..)
    rw [entry_lookup]
    exact he

theorem stored (h : c.Remembers limit ask past) (hg : ∀ k, Guarding (ask k))
    (hl : (c.lookup ⟨f.code.id, b⟩ f).1 = none) :
    let c' := (c.lookup ⟨f.code.id, b⟩ f).2.store ⟨f.code.id, b⟩ f (ask ⟨f.code.id, b⟩ f.argTags)
    c'.1 = reply limit (ask ⟨f.code.id, b⟩) (signatures ask ⟨f.code.id, b⟩ (past ++ [.convert b f])) f ∧
      c'.2.Remembers limit ask (past ++ [.convert b f]) := by
  rw [lookup_fst] at hl
  obtain ⟨ha, he⟩ := (h.entries _).stored (hg _) hl
  constructor
  · rw [signatures_concat, note, if_pos rfl, store_fst, entry_lookup, limit_lookup, h.limit_eq, ha]
  · apply h.convert ((limit_store ..).trans (limit_lookup ..))
    · intro k hk
      rw [entry_store, if_neg hk, entry_lookup]
    · rw [entry_store, if_pos rfl, entry_lookup, limit_lookup, h.limit_eq]
      exact he

theorem invalidated (h : c.Remembers limit ask past) (code : CodeId) :
    (c.invalidate code).Remembers limit ask (past ++ [.invalidate code]) := by
  refine ⟨h.limit_eq, fun k => ?_⟩
  rw [signatures_concat, note, entry_invalidate]
  split
  · exact .nil ..
  · exact h.entries k

end Remembers

end Cache

end Interception
