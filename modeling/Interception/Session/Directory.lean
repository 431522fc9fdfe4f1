import Interception.Script
import Interception.Session.Answer
import Interception.Session.Operation

namespace Interception.Session

structure Dispatcher where
  dispatch : Dispatch
  slot : SlotId

structure Wrapped where
  slot : SlotId
  hook : Hook
  body : List Operation
  stopAtError : Bool

structure ScopeEntry where
  scope : ScopeId
  disabled : Bool

structure RunningCall where
  wrap : Name
  args : List Value

abbrev Listing (α : Type) := List (Name × α)

structure Directory where
  slots : Listing SlotId := []
  codes : Listing Code := []
  programs : Listing Program := []
  tallies : Listing TallyId := []
  compilers : Listing CompilerId := []
  converters : Listing ConverterId := []
  dispatchers : Listing Dispatcher := []
  scopes : Listing ScopeEntry := []
  wraps : Listing Wrapped := []
  evaluators : Listing EvaluatorId := []
  hooks : Listing Hook := []
  converterTurns : Listing Nat := []
  hookTurns : Listing Nat := []
  compilerTurns : Listing Nat := []
  calls : List RunningCall := []

namespace Directory

def label (d : Directory) : Hook → String
  | .null => "null"
  | h => ((d.hooks.find? (·.2 = h)).map (·.1)).getD "unlabelled"

def register (d : Directory) (label : Name) (h : Hook) : Directory :=
  { d with hooks := d.hooks ++ [(label, h)] }

end Directory

inductive Note
  | stepBegan
  | stepEnded
  | event (e : Event)

/-- A panic carries the results of the body that it left, and a name without an object counts as one
until the step ends. -/
inductive Payload
  | bare
  | body (results : List StepResult)
  | badInput

inductive Report
  | answer (a : Except Failure Answer)
  | body (results : List StepResult) (stopped : Bool) (displaced : Option String)
  | caught (results : List StepResult)

inductive Body
  | session (ops : List Operation)
  | operation (op : Operation)
  | steps (ops : List Operation) (stopAtError : Bool)

abbrev host : Host where
  State := Directory
  Note := Note
  Payload := Payload
  Report := Report
  Decider := RuleScript
  Converter := RuleScript
  Compiler := CompilerScript
  Body := Body

abbrev Procedure := Script host

namespace Procedure

def command (c : Command host) : Procedure c.Answer := Script.command c

def request {k : Kind} (r : Request host k) : Procedure (k.Result host) := Script.request r

def directory : Procedure Directory := command .host

def modify (f : Directory → Directory) : Procedure Unit := do
  let d ← directory
  command (.setHost (f d))

def need {α : Type} : Option α → Procedure α
  | some a => pure a
  | none => .panic (.host .badInput)

def find {α : Type} (listing : Directory → Listing α) (name : Name) : Procedure α := do
  let d ← directory
  need ((listing d).lookup name)

def event (e : Event) : Procedure Unit := command (.note (Note.event e))

def label (h : Hook) : Procedure String := do
  let d ← directory
  pure (d.label h)

def slotOf : SlotRef → Procedure SlotId
  | .thread => pure .thread
  | .named name => find (·.slots) name

def codeOf : CodeRef → Procedure Code
  | .code name => find (·.codes) name
  | .function program index => do
    let p ← find (·.programs) program
    need p.functions[index]?

def hookOf : HookRef → Procedure Hook
  | .null => pure .null
  | .named name => find (·.hooks) name

def argumentsOf : Arguments → Procedure (List Value)
  | .values vs => pure vs
  | .own => do
    let d ← directory
    let call ← need d.calls.head?
    pure call.args

def frameOf (spec : FrameSpec) : Procedure Frame := do
  let c ← codeOf spec.code
  let args ← argumentsOf spec.args
  match Frame.make? c args.toArray spec.depth with
  | some f => pure f
  | none => .panic .tooManyLocals

def newHook (h : Handler host) : Procedure Hook := do
  let id ← command (.newHandler h)
  pure (.active id)

end Procedure

end Interception.Session
