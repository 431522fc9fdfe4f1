import Interception.Conversion
import Interception.Handle

/-!
The memory of a caching converter. Per code object and compiler it keeps the replacements obtained so far,
the argument types for which the converter behind it declined, and whether the limit of replacements was
exceeded, after which every frame is declined. Asking that converter lies between `lookup?` and `store`, so
other frames can be converted in between.
-/

namespace Interception

structure Cache.Key where
  code : CodeId
  compiler : CompilerId
  deriving DecidableEq, Inhabited

/-- Replacements are listed newest first. -/
structure Cache.Entry where
  variants : List Replacement := []
  declined : List (List Tag × String) := []
  exhausted : Option String := none
  deriving DecidableEq, Inhabited

structure Cache where
  limit : Nat := 8
  entries : List (Cache.Key × Cache.Entry) := []
  hits : Nat := 0
  misses : Nat := 0
  deriving DecidableEq, Inhabited

namespace Cache

namespace Entry

def lookup? (e : Entry) (f : Frame) : Option Conversion :=
  match e.exhausted with
  | some reason => some (.declined reason)
  | none =>
    match e.variants.find? (·.applies f) with
    | some r => some (.converted r)
    | none => (e.declined.lookup f.argTags).map .declined

def store (e : Entry) (limit : Nat) (f : Frame) : Conversion → Conversion × Entry
  | .converted r =>
    if limit ≤ e.variants.length then
      let reason := "'" ++ f.name ++ "' exceeded " ++ toString limit ++ " cached variants"
      (.declined reason, { e with variants := [], exhausted := some reason })
    else (.converted r, { e with variants := r :: e.variants })
  | .declined reason =>
    (.declined reason, { e with declined := (f.argTags, reason) :: e.declined })
  | .failed cause => (.failed cause, e)

def skips (e : Entry) : Bool := e.exhausted.isSome || !e.declined.isEmpty

end Entry

def entry (c : Cache) (k : Key) : Entry := (c.entries.lookup k).getD {}

def setEntry (k : Key) (e : Entry) : List (Key × Entry) → List (Key × Entry)
  | [] => [(k, e)]
  | (k', e') :: rest => if k' = k then (k, e) :: rest else (k', e') :: setEntry k e rest

def lookup (c : Cache) (k : Key) (f : Frame) : Option Conversion × Cache :=
  match (c.entry k).lookup? f with
  | some answer => (some answer, { c with hits := c.hits + 1 })
  | none => (none, { c with misses := c.misses + 1 })

def store (c : Cache) (k : Key) (f : Frame) (answer : Conversion) : Conversion × Cache :=
  match answer with
  | .failed cause => (.failed cause, c)
  | _ =>
    let (answer, e) := (c.entry k).store c.limit f answer
    (answer, { c with entries := setEntry k e c.entries })

def invalidate (c : Cache) (code : CodeId) : Cache :=
  { c with entries := c.entries.filter (·.1.code ≠ code) }

def contains (c : Cache) (code : CodeId) : Bool :=
  c.entries.any fun e => e.1.code = code && !e.2.variants.isEmpty

def isSkipped (c : Cache) (code : CodeId) : Bool :=
  c.entries.any fun e => e.1.code = code && e.2.skips

def size (c : Cache) : Nat := c.entries.foldr (fun e n => e.2.variants.length + n) 0

theorem lookup_setEntry_self (k : Key) (e : Entry) (es : List (Key × Entry)) :
    (setEntry k e es).lookup k = some e := by
  induction es with
  | nil => simp [setEntry]
  | cons p es ih =>
    obtain ⟨k₀, e₀⟩ := p
    rw [setEntry]
    split
    · simp
    · next h => simp [List.lookup_cons, ih, beq_eq_false_iff_ne.mpr (Ne.symm h)]

theorem lookup_setEntry_ne {k k' : Key} (h : k' ≠ k) (e : Entry) (es : List (Key × Entry)) :
    (setEntry k e es).lookup k' = es.lookup k' := by
  induction es with
  | nil => simp [setEntry, List.lookup_cons, beq_eq_false_iff_ne.mpr h]
  | cons p es ih =>
    obtain ⟨k₀, e₀⟩ := p
    rw [setEntry]
    split
    · next hp =>
      subst hp
      simp [List.lookup_cons, beq_eq_false_iff_ne.mpr h]
    · simp [List.lookup_cons, ih]

end Cache

end Interception
