import Mathlib.Algebra.BigOperators.Group.Finset.Basic
import Interception.Proofs.Settlements

namespace Interception.Cache

variable {ask : CompilerId → Frame → Conversion} {c c' : Cache} {k : Key} {b : CompilerId} {f : Frame} {a : Conversion}
  {i j : Inquiry} {is : List Inquiry}

def answer (ask : CompilerId → Frame → Conversion) (c : Cache) (b : CompilerId) (f : Frame) : Conversion × Cache :=
  match c.lookup ⟨f.code.id, b⟩ f with
  | (some a, c) => (a, c)
  | (none, c) => c.store ⟨f.code.id, b⟩ f (ask b f)

def serve (ask : CompilerId → Frame → Conversion) (c : Cache) : Inquiry → Option Conversion × Cache
  | .convert b f => (some (c.answer ask b f).1, (c.answer ask b f).2)
  | .invalidate code => (none, c.invalidate code)

def Entry.serve (ask : CompilerId → Frame → Conversion) (limit : Nat) (e : Entry) :
    Inquiry → Option Conversion × Entry
  | .convert b f =>
    match e.lookup? f with
    | some a => (some a, e)
    | none => (some (e.store limit f (ask b f)).1, (e.store limit f (ask b f)).2)
  | .invalidate _ => (none, {})

namespace Inquiry

def concerns (k : Key) : Inquiry → Bool
  | convert b f => (⟨f.code.id, b⟩ : Key) = k
  | invalidate code => k.code = code

def Apart (i j : Inquiry) : Prop := ∀ k, i.concerns k → ¬ j.concerns k

theorem Apart.symm (h : i.Apart j) : j.Apart i := fun k hj hi => h k hi hj

theorem exists_concerns (i : Inquiry) : ∃ k, i.concerns k := by
  cases i with
  | convert b f => exact ⟨⟨f.code.id, b⟩, decide_eq_true rfl⟩
  | invalidate code => exact ⟨⟨code, default⟩, decide_eq_true rfl⟩

def lookups (e : Entry) : Inquiry → Nat × Nat
  | convert _ f => if (e.lookup? f).isSome then (1, 0) else (0, 1)
  | invalidate _ => (0, 0)

end Inquiry

theorem answer_recalled (h : (c.entry ⟨f.code.id, b⟩).lookup? f = some a) :
    c.answer ask b f = (a, (c.lookup ⟨f.code.id, b⟩ f).2) := by
  rw [answer, lookup, h]

theorem answer_asked (h : (c.entry ⟨f.code.id, b⟩).lookup? f = none) :
    c.answer ask b f = (c.lookup ⟨f.code.id, b⟩ f).2.store ⟨f.code.id, b⟩ f (ask b f) := by
  rw [answer, lookup, h]

theorem limit_serve (ask : CompilerId → Frame → Conversion) (c : Cache) (i : Inquiry) :
    (c.serve ask i).2.limit = c.limit := by
  cases i with
  | convert b f =>
    rw [serve]
    cases hl : (c.entry ⟨f.code.id, b⟩).lookup? f with
    | some a => rw [answer_recalled hl, limit_lookup]
    | none => rw [answer_asked hl, limit_store, limit_lookup]
  | invalidate code => rfl

theorem entry_serve_ne (ask : CompilerId → Frame → Conversion) (c : Cache) (h : ¬ i.concerns k) :
    (c.serve ask i).2.entry k = c.entry k := by
  cases i with
  | convert b f =>
    have hne : k ≠ ⟨f.code.id, b⟩ := by
      rintro rfl
      exact h (decide_eq_true rfl)
    rw [serve]
    cases hl : (c.entry ⟨f.code.id, b⟩).lookup? f with
    | some a => rw [answer_recalled hl, entry_lookup]
    | none => rw [answer_asked hl, entry_store, if_neg hne, entry_lookup]
  | invalidate code =>
    have hne : k.code ≠ code := fun he => h (decide_eq_true he)
    rw [serve, entry_invalidate, if_neg hne]

theorem entry_serve (ask : CompilerId → Frame → Conversion) (c : Cache) (h : i.concerns k) :
    (c.entry k).serve ask c.limit i = ((c.serve ask i).1, (c.serve ask i).2.entry k) := by
  cases i with
  | convert b f =>
    obtain rfl := of_decide_eq_true h
    rw [serve, Entry.serve]
    cases hl : (c.entry ⟨f.code.id, b⟩).lookup? f with
    | some a => rw [answer_recalled hl, entry_lookup]
    | none => rw [answer_asked hl, store_fst, entry_store, if_pos rfl, entry_lookup, limit_lookup]
  | invalidate code =>
    have he : k.code = code := of_decide_eq_true h
    rw [serve, entry_invalidate, if_pos he, Entry.serve]

theorem serve_congr (hk : i.concerns k) (hlimit : c.limit = c'.limit) (hentry : c.entry k = c'.entry k) :
    (c.serve ask i).1 = (c'.serve ask i).1 ∧ (c.serve ask i).2.entry k = (c'.serve ask i).2.entry k := by
  have hserved := entry_serve ask c hk
  rw [hentry, hlimit, entry_serve ask c' hk] at hserved
  obtain ⟨hanswer, hkept⟩ := Prod.mk.inj hserved
  exact ⟨hanswer.symm, hkept.symm⟩

theorem lookups_serve (ask : CompilerId → Frame → Conversion) (c : Cache) (h : i.concerns k) :
    (c.serve ask i).2.lookups = c.lookups + i.lookups (c.entry k) := by
  cases i with
  | convert b f =>
    obtain rfl := of_decide_eq_true h
    rw [serve, Inquiry.lookups]
    cases hl : (c.entry ⟨f.code.id, b⟩).lookup? f with
    | some a =>
      rw [answer_recalled hl, lookups_recalled c hl]
      rfl
    | none =>
      rw [answer_asked hl, lookups_store, lookups_missed c hl]
      rfl
  | invalidate code => rfl

def transcript (ask : CompilerId → Frame → Conversion) : Cache → List Inquiry → List (Inquiry × Option Conversion)
  | _, [] => []
  | c, i :: is => (i, (c.serve ask i).1) :: (c.serve ask i).2.transcript ask is

def Entry.transcript (ask : CompilerId → Frame → Conversion) (limit : Nat) :
    Entry → List Inquiry → List (Inquiry × Option Conversion)
  | _, [] => []
  | e, i :: is => (i, (e.serve ask limit i).1) :: (e.serve ask limit i).2.transcript ask limit is

def served (ask : CompilerId → Frame → Conversion) (c : Cache) (is : List Inquiry) : Cache :=
  is.foldl (fun c i => (c.serve ask i).2) c

theorem served_cons (ask : CompilerId → Frame → Conversion) (c : Cache) (i : Inquiry) (is : List Inquiry) :
    c.served ask (i :: is) = (c.serve ask i).2.served ask is := rfl

theorem served_append (ask : CompilerId → Frame → Conversion) (c : Cache) (is js : List Inquiry) :
    c.served ask (is ++ js) = (c.served ask is).served ask js := List.foldl_append

theorem transcript_append (ask : CompilerId → Frame → Conversion) (c : Cache) (is js : List Inquiry) :
    c.transcript ask (is ++ js) = c.transcript ask is ++ (c.served ask is).transcript ask js := by
  induction is generalizing c with
  | nil => rfl
  | cons i is ih =>
    rw [List.cons_append, transcript, ih, transcript, List.cons_append, served_cons]

theorem filter_transcript (ask : CompilerId → Frame → Conversion) (c : Cache) (k : Key) (is : List Inquiry) :
    (c.transcript ask is).filter (·.1.concerns k) =
      (c.entry k).transcript ask c.limit (is.filter (·.concerns k)) := by
  induction is generalizing c with
  | nil => rfl
  | cons i is ih =>
    rw [transcript, List.filter_cons, List.filter_cons, ih, limit_serve]
    by_cases hi : i.concerns k
    · rw [if_pos hi, if_pos hi, Entry.transcript, entry_serve ask c hi]
    · rw [if_neg hi, if_neg hi, entry_serve_ne ask c hi]

structure Agrees (c c' : Cache) : Prop where
  limit : c.limit = c'.limit
  entries : ∀ k, c.entry k = c'.entry k
  lookups : c.lookups = c'.lookups

namespace Agrees

theorem serve_fst (h : c.Agrees c') (i : Inquiry) : (c.serve ask i).1 = (c'.serve ask i).1 := by
  obtain ⟨k, hk⟩ := i.exists_concerns
  exact (serve_congr hk h.limit (h.entries k)).1

theorem serve (h : c.Agrees c') (i : Inquiry) : (c.serve ask i).2.Agrees (c'.serve ask i).2 := by
  refine ⟨by rw [limit_serve, limit_serve, h.limit], fun k => ?_, ?_⟩
  · by_cases hk : i.concerns k
    · exact (serve_congr hk h.limit (h.entries k)).2
    · rw [entry_serve_ne ask c hk, entry_serve_ne ask c' hk, h.entries]
  · obtain ⟨k, hk⟩ := i.exists_concerns
    rw [lookups_serve ask c hk, lookups_serve ask c' hk, h.entries, h.lookups]

theorem served (h : c.Agrees c') (is : List Inquiry) : (c.served ask is).Agrees (c'.served ask is) := by
  induction is generalizing c c' with
  | nil => exact h
  | cons i is ih => exact ih (h.serve i)

theorem transcript (h : c.Agrees c') (is : List Inquiry) : c.transcript ask is = c'.transcript ask is := by
  induction is generalizing c c' with
  | nil => rfl
  | cons i is ih => rw [Cache.transcript, Cache.transcript, h.serve_fst, ih (h.serve i)]

end Agrees

theorem serve_serve (h : i.Apart j) (c : Cache) (hk : j.concerns k) :
    ((c.serve ask i).2.serve ask j).1 = (c.serve ask j).1 ∧
      ((c.serve ask i).2.serve ask j).2.entry k = (c.serve ask j).2.entry k :=
  serve_congr hk (limit_serve ..) (entry_serve_ne ask c fun hi => h k hi hk)

theorem lookups_serve_serve (h : i.Apart j) (c : Cache) {k k' : Key} (hk : i.concerns k) (hk' : j.concerns k') :
    ((c.serve ask i).2.serve ask j).2.lookups = c.lookups + i.lookups (c.entry k) + j.lookups (c.entry k') := by
  rw [lookups_serve ask _ hk', lookups_serve ask c hk, entry_serve_ne ask c fun hi => h k' hi hk']

theorem agrees_swap (h : i.Apart j) (c : Cache) :
    ((c.serve ask i).2.serve ask j).2.Agrees ((c.serve ask j).2.serve ask i).2 := by
  refine ⟨by simp only [limit_serve], fun k => ?_, ?_⟩
  · by_cases hi : i.concerns k
    · rw [entry_serve_ne ask _ (h k hi), (serve_serve h.symm c hi).2]
    · by_cases hj : j.concerns k
      · rw [(serve_serve h c hj).2, entry_serve_ne ask _ hi]
      · rw [entry_serve_ne ask _ hj, entry_serve_ne ask _ hi, entry_serve_ne ask _ hi, entry_serve_ne ask _ hj]
  · obtain ⟨k, hk⟩ := i.exists_concerns
    obtain ⟨k', hk'⟩ := j.exists_concerns
    rw [lookups_serve_serve h c hk hk', lookups_serve_serve h.symm c hk' hk, add_right_comm]

theorem transcript_pair (h : i.Apart j) (c : Cache) (is : List Inquiry) : c.transcript ask (i :: j :: is) =
    (i, (c.serve ask i).1) :: (j, (c.serve ask j).1) :: ((c.serve ask i).2.serve ask j).2.transcript ask is := by
  obtain ⟨k, hk⟩ := j.exists_concerns
  rw [transcript, transcript, (serve_serve h c hk).1]

theorem agrees_served_swap (h : i.Apart j) (c : Cache) (is js : List Inquiry) :
    (c.served ask (is ++ i :: j :: js)).Agrees (c.served ask (is ++ j :: i :: js)) := by
  rw [served_append, served_append]
  exact (agrees_swap h (c.served ask is)).served js

def Keyed (c : Cache) : Prop := (c.entries.map Prod.fst).Nodup

theorem keys_setEntry (k : Key) (e : Entry) (es : List (Key × Entry)) : (setEntry k e es).map Prod.fst =
    if k ∈ es.map Prod.fst then es.map Prod.fst else es.map Prod.fst ++ [k] := by
  induction es with
  | nil => rfl
  | cons p es ih =>
    obtain ⟨k', e'⟩ := p
    rw [setEntry]
    by_cases hk : k' = k
    · simp [hk]
    · rw [if_neg hk, List.map_cons, ih, List.map_cons]
      by_cases hmem : k ∈ es.map Prod.fst
      · rw [if_pos hmem, if_pos (List.mem_cons_of_mem _ hmem)]
      · rw [if_neg hmem, if_neg (by simpa [Ne.symm hk] using hmem), List.cons_append]

theorem nodup_setEntry (k : Key) (e : Entry) {es : List (Key × Entry)} (h : (es.map Prod.fst).Nodup) :
    ((setEntry k e es).map Prod.fst).Nodup := by
  rw [keys_setEntry]
  split
  · exact h
  · next hk => exact List.nodup_append_comm.mp (List.nodup_cons.mpr ⟨hk, h⟩)

namespace Keyed

theorem of_entries_nil (h : c.entries = []) : c.Keyed := by
  rw [Keyed, h]
  exact .nil

theorem store (h : c.Keyed) (k : Key) (f : Frame) (a : Conversion) : (c.store k f a).2.Keyed := by
  cases a with
  | failed cause => exact h
  | _ => exact nodup_setEntry _ _ h

theorem lookup (h : c.Keyed) (k : Key) (f : Frame) : (c.lookup k f).2.Keyed := by
  rw [Cache.lookup]
  split <;> exact h

theorem serve (h : c.Keyed) (i : Inquiry) : (c.serve ask i).2.Keyed := by
  cases i with
  | convert b f =>
    rw [Cache.serve]
    cases hl : (c.entry ⟨f.code.id, b⟩).lookup? f with
    | some a =>
      rw [answer_recalled hl]
      exact h.lookup ..
    | none =>
      rw [answer_asked hl]
      exact (h.lookup ..).store ..
  | invalidate code => exact h.sublist (List.filter_sublist.map Prod.fst)

theorem served (h : c.Keyed) (is : List Inquiry) : (c.served ask is).Keyed := by
  induction is generalizing c with
  | nil => exact h
  | cons i is ih => exact ih (h.serve i)

theorem entry_of_mem {e : Entry} (h : c.Keyed) (hk : (k, e) ∈ c.entries) : c.entry k = e := by
  rw [Keyed] at h
  rw [Cache.entry]
  generalize c.entries = es at h hk
  induction es with
  | nil => cases hk
  | cons p es ih =>
    obtain ⟨k', e'⟩ := p
    obtain ⟨hnew, hrest⟩ := List.nodup_cons.mp h
    rcases List.mem_cons.mp hk with heq | hmem
    · obtain ⟨rfl, rfl⟩ := Prod.mk.inj heq
      rw [List.lookup_cons_self]
      rfl
    · have hne : k ≠ k' := fun he => hnew (List.mem_map.mpr ⟨(k, e), hmem, he⟩)
      rw [List.lookup_cons, beq_eq_false_iff_ne.mpr hne]
      exact ih hrest hmem

end Keyed

theorem mem_of_entry_ne (h : c.entry k ≠ {}) : (k, c.entry k) ∈ c.entries := by
  cases hl : c.entries.lookup k with
  | none =>
    rw [entry, hl] at h
    exact absurd rfl h
  | some e =>
    obtain ⟨before, after, hsplit, -⟩ := List.lookup_eq_some_iff.mp hl
    rw [entry, hl, hsplit]
    exact List.mem_append_right _ List.mem_cons_self

theorem any_entries_iff (h : c.Keyed) {p : Key → Entry → Bool} (hp : ∀ k, p k {} = false) :
    (c.entries.any fun e => p e.1 e.2) ↔ ∃ k, p k (c.entry k) := by
  rw [List.any_eq_true]
  constructor
  · rintro ⟨⟨k, e⟩, hmem, hk⟩
    exact ⟨k, (h.entry_of_mem hmem).symm ▸ hk⟩
  · rintro ⟨k, hk⟩
    have hne : c.entry k ≠ {} := by
      intro he
      rw [he, hp k] at hk
      cases hk
    exact ⟨_, mem_of_entry_ne hne, hk⟩

theorem size_eq_sum (h : c.Keyed) {keys : Finset Key} (hk : (c.entries.map Prod.fst).toFinset ⊆ keys) :
    c.size = ∑ k ∈ keys, (c.entry k).variants.length := by
  have hsum : c.size = (c.entries.map fun e => e.2.variants.length).sum := by
    rw [size, List.sum_eq_foldr, List.foldr_map]
  have hentries : (c.entries.map fun e => e.2.variants.length) =
      (c.entries.map Prod.fst).map fun k => (c.entry k).variants.length := by
    rw [List.map_map]
    exact List.map_congr_left fun e he => by rw [Function.comp_apply, h.entry_of_mem he]
  rw [hsum, hentries, ← List.sum_toFinset _ h]
  refine Finset.sum_subset hk fun k _ hnew => ?_
  have hempty : c.entry k = {} := by
    by_contra hne
    exact hnew (List.mem_toFinset.mpr (List.mem_map_of_mem (mem_of_entry_ne hne)))
  rw [hempty]
  rfl

namespace Agrees

variable (h : c.Agrees c') (hc : c.Keyed) (hc' : c'.Keyed)

include h hc hc'

theorem any_entries {p : Key → Entry → Bool} (hp : ∀ k, p k {} = false) :
    (c.entries.any fun e => p e.1 e.2) = c'.entries.any fun e => p e.1 e.2 := by
  rw [Bool.eq_iff_iff, any_entries_iff hc hp, any_entries_iff hc' hp]
  simp only [h.entries]

theorem contains (code : CodeId) : c.contains code = c'.contains code :=
  h.any_entries hc hc' (p := fun k e => k.code = code && !e.variants.isEmpty) fun _ => Bool.and_false _

theorem isSkipped (code : CodeId) : c.isSkipped code = c'.isSkipped code :=
  h.any_entries hc hc' (p := fun k e => k.code = code && e.skips) fun _ => Bool.and_false _

theorem size : c.size = c'.size := by
  -- a key of only one of the two has an empty entry there
  let keys (c : Cache) : Finset Key := (c.entries.map Prod.fst).toFinset
  have hleft : keys c ⊆ keys c ∪ keys c' := Finset.subset_union_left
  have hright : keys c' ⊆ keys c ∪ keys c' := Finset.subset_union_right
  rw [size_eq_sum hc hleft, size_eq_sum hc' hright]
  simp only [h.entries]

end Agrees

end Interception.Cache
