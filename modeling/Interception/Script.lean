import Interception.World.Scope

/-!
Scripts: what the host does inside a world, one command or request after the other. A command is a single
action; a request asks for an activity that may ask other scripts in turn, and so may come back to the same
objects before it is answered. A script can stop at any point by panicking.
-/

namespace Interception

inductive Kind
  | evaluation | decision | conversion | compilation | body | rescued
  deriving DecidableEq, Inhabited, Repr

abbrev Kind.Result (H : Host) : Kind → Type
  | evaluation => Except EvalError Value
  | decision => Except HookError Decision
  | conversion => Conversion
  | compilation => Except CompileError Code
  | body => H.Report
  | rescued => Except (Panic H) H.Report

inductive Request (H : Host) : Kind → Type
  | evaluate (e : EvaluatorId) (function : UInt32) (args : Array Value) : Request H .evaluation
  | evaluateFrame (e : EvaluatorId) (f : Frame) : Request H .evaluation
  | decide (h : Hook) (f : Frame) : Request H .decision
  | dispatch (d : Dispatch) (f : Frame) : Request H .decision
  | convert (c : ConverterId) (compiler : CompilerId) (f : Frame) : Request H .conversion
  | compile (compiler : CompilerId) (code : Code) : Request H .compilation
  | perform (b : H.Body) : Request H .body
  | within (s : SlotId) (h : Hook) (b : H.Body) : Request H .body
  | rescue (b : H.Body) : Request H .rescued

inductive Command (H : Host)
  | current (s : SlotId)
  | install (s : SlotId) (h : Hook)
  | enter (s : ScopeId)
  | exit (s : ScopeId)
  | drop (s : ScopeId)
  | scope (s : ScopeId)
  | converter (c : ConverterId)
  | invalidate (c : ConverterId) (code : CodeId)
  | compiler (c : CompilerId)
  | tally (t : TallyId)
  | resetTally (t : TallyId)
  | usage (e : EvaluatorId)
  | newSlot
  | newScope (s : SlotId) (h : Hook)
  | newHandler (h : Handler H)
  | newConverter (c : Converter H)
  | newCompiler (c : Compiler H)
  | newTally
  | newEvaluator (program : Program) (s : SlotId) (maxDepth : Nat)
  | newCode (source : Code.Source)
  | note (n : H.Note)
  | journalFrom (start : Nat)
  | journalSize
  | host
  | setHost (state : H.State)

namespace Command

variable {H : Host}

abbrev Answer : Command H → Type
  | current _ | install _ _ => Hook
  | enter _ | exit _ => Except ScopeError Unit
  | drop _ | invalidate _ _ | resetTally _ | note _ | setHost _ => Unit
  | scope _ => Scope
  | converter _ => Converter H
  | compiler _ => Compiler H
  | tally _ => Tally
  | usage _ => Usage
  | newSlot => SlotId
  | newScope _ _ => ScopeId
  | newHandler _ => HandlerId
  | newConverter _ => ConverterId
  | newCompiler _ => CompilerId
  | newTally => TallyId
  | newEvaluator _ _ _ => EvaluatorId
  | newCode _ => Code
  | journalFrom _ => List (Entry H.Note)
  | journalSize => Nat
  | host => H.State

def run (w : World H) : (c : Command H) → c.Answer × World H
  | current s => (w.slot s, w)
  | install s h => (w.slot s, w.install s h)
  | enter s => w.enter s
  | exit s => w.exit s
  | drop s => ((), w.drop s)
  | scope s => (w.scope s, w)
  | converter c => (w.converter c, w)
  | invalidate c code =>
    match w.converter c with
    | .caching inner cache => ((), w.setConverter c (.caching inner (cache.invalidate code)))
    | _ => ((), w)
  | compiler c => (w.compiler c, w)
  | tally t => (w.tally t, w)
  | resetTally t => ((), w.setTally t {})
  | usage e => ((w.evaluator e).usage, w)
  | newSlot =>
    let (i, slots) := w.slots.add .null
    (⟨i⟩, { w with slots })
  | newScope slot hook =>
    let (i, scopes) := w.scopes.add { slot, hook }
    (⟨i⟩, { w with scopes })
  | newHandler h =>
    let (i, handlers) := w.handlers.add h
    (⟨i⟩, { w with handlers })
  | newConverter c =>
    let (i, converters) := w.converters.add c
    (⟨i⟩, { w with converters })
  | newCompiler c =>
    let (i, compilers) := w.compilers.add c
    (⟨i⟩, { w with compilers })
  | newTally =>
    let (i, tallies) := w.tallies.add {}
    (⟨i⟩, { w with tallies })
  | newEvaluator program slot maxDepth =>
    let (i, evaluators) := w.evaluators.add { program, slot, maxDepth }
    (⟨i⟩, { w with evaluators })
  | newCode source =>
    let number := w.codes + 1
    (Code.make ⟨number⟩ source, { w with codes := number })
  | note n => ((), w.note n)
  | journalFrom start => ((w.journal.extract start w.journal.size).toList, w)
  | journalSize => (w.journal.size, w)
  | host => (w.host, w)
  | setHost state => ((), { w with host := state })

end Command

inductive Script (H : Host) (α : Type) : Type
  | done (a : α)
  | panic (p : Panic H)
  | act (c : Command H) (next : c.Answer → Script H α)
  | ask {k : Kind} (r : Request H k) (next : k.Result H → Script H α)

namespace Script

variable {H : Host} {α β : Type}

def bind : Script H α → (α → Script H β) → Script H β
  | done a, f => f a
  | panic p, _ => panic p
  | act c next, f => act c fun a => (next a).bind f
  | ask r next, f => ask r fun a => (next a).bind f

instance : Monad (Script H) where
  pure := done
  bind := bind

def command (c : Command H) : Script H c.Answer := act c done

def request {k : Kind} (r : Request H k) : Script H (k.Result H) := ask r done

end Script

/-- What the host's names stand for. -/
structure Behaviour (H : Host) where
  decide : H.Decider → Frame → Script H (Except HookError Decision)
  convert : H.Converter → Frame → CompilerId → Script H Conversion
  compile : H.Compiler → Code → Script H (Except CompileError Code)
  perform : H.Body → Script H H.Report

end Interception
