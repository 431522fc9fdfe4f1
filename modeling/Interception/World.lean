import Interception.Cache
import Interception.Error
import Interception.Journal
import Interception.Table
import Interception.Tally

/-!
The world that evaluations run in: slots with their hooks, and the scopes, handlers, converters, compilers,
tallies and evaluators that refer to them. A world holds no functions: what the host wrote itself appears
only by name.
-/

namespace Interception

/-- What the host brings along: its state, the notes it leaves in the journal, what its panics carry, what
its bodies report, and the names of its own deciders, converters, compilers and bodies. -/
structure Host where
  State : Type
  Note : Type
  Payload : Type
  Report : Type
  Decider : Type
  Converter : Type
  Compiler : Type
  Body : Type

inductive Panic (H : Host)
  | tooManyLocals
  | host (payload : H.Payload)

inductive Compiler (H : Host)
  | eager
  | refusing
  | custom (name : String) (script : H.Compiler)
  deriving Inhabited

def Compiler.name {H : Host} : Compiler H → String
  | eager => "eager"
  | refusing => "stub"
  | custom name _ => name

inductive Converter (H : Host)
  | eager (refused : List Opcode)
  | caching (inner : ConverterId) (cache : Cache)
  | custom (script : H.Converter)
  deriving Inhabited

structure DispatchConfig where
  declinedLevel : Level := .debug
  recordTally : Bool := true
  deriving DecidableEq, Inhabited

structure Dispatch where
  converter : ConverterId
  compiler : CompilerId
  config : DispatchConfig
  tally : TallyId
  deriving DecidableEq, Inhabited

inductive Handler (H : Host)
  | dispatch (d : Dispatch)
  | custom (script : H.Decider)
  deriving Inhabited

/-- `displaced` is the hook to put back; it is present exactly while the scope is active. -/
structure Scope where
  slot : SlotId
  hook : Hook
  displaced : Option Hook := none
  deriving DecidableEq, Inhabited

structure Evaluator where
  program : Program
  slot : SlotId
  maxDepth : Nat
  usage : Usage := {}
  deriving Inhabited

structure World (H : Host) where
  slots : Table Hook := {}
  scopes : Table Scope := {}
  handlers : Table (Handler H) := {}
  converters : Table (Converter H) := {}
  compilers : Table (Compiler H) := {}
  tallies : Table Tally := {}
  evaluators : Table Evaluator := {}
  codes : Nat := 0
  threshold : Threshold := none
  journal : Journal H.Note := #[]
  host : H.State

namespace World

variable {H : Host}

def empty (threshold : Threshold) (host : H.State) : World H :=
  { slots := ⟨#[.null]⟩, threshold, host }

def slot (w : World H) (s : SlotId) : Hook := w.slots.get s.index

def scope (w : World H) (s : ScopeId) : Scope := w.scopes.get s.index

def handler (w : World H) (h : HandlerId) : Handler H := w.handlers.get h.index

def converter (w : World H) (c : ConverterId) : Converter H := w.converters.get c.index

def compiler (w : World H) (c : CompilerId) : Compiler H := w.compilers.get c.index

def tally (w : World H) (t : TallyId) : Tally := w.tallies.get t.index

def evaluator (w : World H) (e : EvaluatorId) : Evaluator := w.evaluators.get e.index

def install (w : World H) (s : SlotId) (h : Hook) : World H :=
  { w with slots := w.slots.set s.index h }

def setScope (w : World H) (s : ScopeId) (scope : Scope) : World H :=
  { w with scopes := w.scopes.set s.index scope }

def setConverter (w : World H) (c : ConverterId) (converter : Converter H) : World H :=
  { w with converters := w.converters.set c.index converter }

def setTally (w : World H) (t : TallyId) (tally : Tally) : World H :=
  { w with tallies := w.tallies.set t.index tally }

def setUsage (w : World H) (e : EvaluatorId) (usage : Usage) : World H :=
  { w with evaluators := w.evaluators.set e.index { w.evaluator e with usage } }

def log (w : World H) (level : Level) (message : Message) : World H :=
  if w.threshold.admits level then
    { w with journal := w.journal.push (.record ⟨level, message⟩) }
  else w

def note (w : World H) (n : H.Note) : World H := { w with journal := w.journal.push (.note n) }

def recordTally (w : World H) (d : Dispatch) (event : Tally.Event) : World H :=
  if d.config.recordTally then w.setTally d.tally ((w.tally d.tally).record event) else w

def countFrame (w : World H) (e : EvaluatorId) : World H :=
  let usage := (w.evaluator e).usage
  w.setUsage e { usage with frames := usage.frames + 1 }

def countReplaced (w : World H) (e : EvaluatorId) : World H :=
  let usage := (w.evaluator e).usage
  w.setUsage e { usage with replaced := usage.replaced + 1 }

def countGuardFailure (w : World H) (e : EvaluatorId) : World H :=
  let usage := (w.evaluator e).usage
  w.setUsage e { usage with guardFailures := usage.guardFailures + 1 }

@[simp] theorem slot_install_self (w : World H) (s : SlotId) (h : Hook) :
    (w.install s h).slot s = h := by simp [install, slot]

theorem slot_install_ne (w : World H) {s t : SlotId} (h : Hook) (hst : s ≠ t) :
    (w.install s h).slot t = w.slot t := by
  have : s.index ≠ t.index := fun e => hst (by cases s; cases t; simp_all)
  simp [install, slot, Table.get_set_ne _ _ this]

@[simp] theorem slots_log (w : World H) (l : Level) (m : Message) : (w.log l m).slots = w.slots := by
  unfold log; split <;> rfl

@[simp] theorem slot_log (w : World H) (l : Level) (m : Message) (s : SlotId) :
    (w.log l m).slot s = w.slot s := by simp [slot]

end World

end Interception
