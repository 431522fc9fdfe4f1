import Interception.Cache

namespace Interception

variable {known : Code → Prop} {f : Frame}

def Conversion.Own (f : Frame) : Conversion → Prop
  | converted r => r.code = f.code ∧ r.applies f
  | declined _ => True
  | failed _ => False

namespace Cache

variable {c : Cache} {k : Key} {a : Conversion}

def Sound (known : Code → Prop) (c : Cache) : Prop :=
  ∀ k, ∀ r ∈ (c.entry k).variants, known r.code ∧ r.code.id = k.code

theorem sound_of_entries_nil (h : c.entries = []) : c.Sound known := by
  intro k r hr
  rw [entry, h] at hr
  exact absurd hr (List.not_mem_nil)

theorem entry_lookup (c : Cache) (k k' : Key) (f : Frame) : (c.lookup k f).2.entry k' = c.entry k' := by
  rw [lookup]
  split <;> rfl

theorem Sound.lookup (hc : c.Sound known) (k : Key) (f : Frame) : (c.lookup k f).2.Sound known := by
  intro k' r hr
  rw [entry_lookup] at hr
  exact hc k' r hr

theorem lookup_filter {α : Type} (p : Key → Bool) (es : List (Key × α)) (k : Key) :
    (es.filter fun e => p e.1).lookup k = if p k then es.lookup k else none := by
  induction es with
  | nil => simp
  | cons e es ih =>
    obtain ⟨k', a⟩ := e
    rw [List.filter_cons]
    by_cases hk : k = k'
    · subst hk
      by_cases hp : p k
      · rw [if_pos hp, if_pos hp, List.lookup_cons_self, List.lookup_cons_self]
      · rw [if_neg hp, ih, if_neg hp, if_neg hp]
    · have hne : (k == k') = false := beq_eq_false_iff_ne.mpr hk
      rw [List.lookup_cons, hne, ← ih]
      split
      · rw [List.lookup_cons, hne]
      · rfl

theorem entry_invalidate (c : Cache) (code : CodeId) (k : Key) :
    (c.invalidate code).entry k = if k.code = code then {} else c.entry k := by
  have hf := lookup_filter (fun k => decide (k.code ≠ code)) c.entries k
  rw [entry, invalidate, hf]
  by_cases h : k.code = code <;> simp [h, entry]

theorem Sound.invalidate (hc : c.Sound known) (code : CodeId) : (c.invalidate code).Sound known := by
  intro k r hr
  rw [entry_invalidate] at hr
  split at hr
  · exact absurd hr (List.not_mem_nil)
  · exact hc k r hr

theorem Entry.lookup?_own {e : Entry} (he : ∀ r ∈ e.variants, r.code = f.code) (h : e.lookup? f = some a) :
    a.Own f := by
  rw [lookup?] at h
  split at h
  · cases h
    trivial
  · split at h
    · next r hr =>
      cases h
      have ha := List.find?_some hr
      exact ⟨he r (List.mem_of_find?_eq_some hr), ha⟩
    · obtain ⟨reason, -, rfl⟩ := Option.map_eq_some_iff.mp h
      trivial

theorem lookup_own (hc : c.Sound known) (hids : ∀ c c', known c → known c' → c.id = c'.id → c = c')
    (hf : known f.code) (hk : k.code = f.code.id) (h : (c.lookup k f).1 = some a) : a.Own f := by
  have he : ∀ r ∈ (c.entry k).variants, r.code = f.code := by
    intro r hr
    obtain ⟨hr, hid⟩ := hc k r hr
    exact hids _ _ hr hf (hid.trans hk)
  apply Entry.lookup?_own he
  rw [lookup] at h
  split at h
  · next ha => exact ha.trans h
  · cases h

theorem Entry.store_own {e : Entry} (limit : Nat) (ha : a.Own f) : (e.store limit f a).1.Own f := by
  cases a with
  | converted r =>
    rw [store]
    split
    · trivial
    · exact ha
  | declined reason => trivial
  | failed cause => exact ha

theorem Entry.mem_variants_store {e : Entry} {limit : Nat} {r : Replacement}
    (h : r ∈ (e.store limit f a).2.variants) : r ∈ e.variants ∨ a = .converted r := by
  cases a with
  | converted r' =>
    rw [store] at h
    split at h
    · exact absurd h (List.not_mem_nil)
    · rcases List.mem_cons.mp h with rfl | hr
      · exact .inr rfl
      · exact .inl hr
  | declined reason => exact .inl h
  | failed cause => exact .inl h

theorem store_own (c : Cache) (k : Key) (ha : a.Own f) : (c.store k f a).1.Own f := by
  cases a with
  | failed cause => exact ha
  | converted r => exact Entry.store_own c.limit ha
  | declined reason => trivial

theorem entry_setEntry (c : Cache) (k k' : Key) (e : Entry) :
    { c with entries := setEntry k e c.entries }.entry k' = if k' = k then e else c.entry k' := by
  simp only [entry]
  by_cases h : k' = k
  · subst h
    rw [lookup_setEntry_self, if_pos rfl]
    rfl
  · rw [lookup_setEntry_ne h, if_neg h]

theorem Sound.store (hc : c.Sound known) (hf : known f.code) (hk : k.code = f.code.id) (ha : a.Own f) :
    (c.store k f a).2.Sound known := by
  have hset : Sound known { c with entries := setEntry k ((c.entry k).store c.limit f a).2 c.entries } := by
    intro k' r hr
    rw [entry_setEntry] at hr
    split at hr
    · next hk' =>
      subst hk'
      rcases Entry.mem_variants_store hr with hr | rfl
      · exact hc _ r hr
      · obtain ⟨hcode, -⟩ := ha
        exact ⟨hcode ▸ hf, (congrArg Code.id hcode).trans hk.symm⟩
    · exact hc k' r hr
  cases a with
  | failed cause => exact hc
  | _ => exact hset

end Cache

end Interception
