import Interception.Bytecode.Builder
import Interception.Conversion
import Interception.Journal

namespace Interception.Session

abbrev Name := String

inductive SlotRef
  | thread
  | named (name : Name)

inductive CodeRef
  | code (name : Name)
  | function (program : Name) (index : Nat)

inductive HookRef
  | null
  | named (name : Name)

inductive Arguments
  | values (vs : List Value)
  | own

structure FrameSpec where
  code : CodeRef
  args : Arguments
  depth : Nat

inductive GuardSpec
  | always
  | ownTags
  | tags (tags : List Tag)

inductive Act
  | self (guard : GuardSpec)
  | code (code : CodeRef) (guard : GuardSpec)
  | compile (guard : GuardSpec)
  | decline (reason : String)
  | internal (reason : String)
  | unsupported (reason : String)
  | broken (reason : String)
  | panic
  | evaluate (evaluator : Name) (function : UInt32) (args : Arguments)

/-- A condition that is absent holds. -/
structure Rule where
  name : Option String
  tags : Option (List Tag)
  depth : Option Nat
  turn : Option Nat
  compiler : Option String
  act : Act

structure RuleScript where
  name : Name
  rules : List Rule
  probe : Option SlotRef

inductive CompilerAct
  | self
  | code (code : CodeRef)
  | unsupported (reason : String)
  | broken (reason : String)
  | panic

structure CompilerRule where
  name : Option String
  turn : Option Nat
  act : CompilerAct

structure CompilerScript where
  name : Name
  rules : List CompilerRule

inductive CompilerKind
  | eager
  | refusing
  | script (shown : String) (rules : List CompilerRule)

inductive ConverterKind
  | eager (refused : List Opcode)
  | standard
  | caching (inner : Name) (limit : Option Nat)
  | script (rules : List Rule) (probe : Option SlotRef)

inductive HookKind
  | dispatcher (dispatcher : Name)
  | alias (hook : HookRef)
  | script (rules : List Rule) (probe : Option SlotRef)

inductive ScopeKind
  | hook (hook : HookRef) (slot : SlotRef)
  | dispatcher (dispatcher : Name)
  | optimizing (compiler : Name)
  | disabled (slot : SlotRef)

inductive WrapKind
  | scope (scope : Name)
  | dispatcher (dispatcher : Name)
  | optimizing (compiler : Name)
  | disabled

structure ConfigSpec where
  level : Option Level
  recordTally : Option Bool

structure DispatcherSpec where
  converter : Option Name
  compiler : Option Name
  config : Option ConfigSpec
  tally : Option Name
  slot : Option SlotRef

inductive TallyRef
  | dispatcher (name : Name)
  | tally (name : Name)

inductive Shown
  | scope (name : Name)
  | wrap (name : Name)
  | hook (hook : HookRef)
  | slot (slot : SlotRef)

inductive Operation
  | slot (name : Name)
  | program (name : Name) (functions : List Code.Recipe)
  | code (name : Name) (recipe : Code.Recipe)
  | frame (spec : FrameSpec)
  | tally (name : Name)
  | snapshot (tally : TallyRef)
  | reset (tally : TallyRef)
  | compiler (name : Name) (kind : CompilerKind)
  | compile (compiler : Name) (code : CodeRef)
  | converter (name : Name) (kind : ConverterKind)
  | convert (converter compiler : Name) (frame : FrameSpec) (inner : Bool)
  | cache (converter : Name) (code : Option CodeRef)
  | invalidate (converter : Name) (code : CodeRef)
  | dispatcher (name : Name) (spec : DispatcherSpec)
  | reconfigure (name : Name) (spec : DispatcherSpec)
  | dispatch (dispatcher : Name) (frame : FrameSpec)
  | hook (name : Name) (kind : HookKind)
  | same (a b : HookRef)
  | invoke (hook : HookRef) (frame : FrameSpec)
  | install (slot : SlotRef) (hook : HookRef)
  | current (slot : SlotRef)
  | «show» (shown : Shown)
  | freshThread (slot : SlotRef) (hook : Option HookRef)
  | scope (name : Name) (kind : ScopeKind)
  | enter (scope : Name)
  | exit (scope : Name)
  | state (scope : Name)
  | drop (scope : Name)
  | within (scope : Name) (showDisplaced : Bool) (body : List Operation) (stopAtError : Bool)
  | rescue (body : List Operation) (stopAtError : Bool)
  | panic
  | wrap (name : Name) (kind : WrapKind) (body : List Operation) (stopAtError : Bool)
  | call (wrap : Name) (args : Arguments) (bare : Bool) (limit : Option Nat)
  | evaluator (name : Name) (program : Name) (slot : SlotRef) (maxDepth : Option Nat)
  | evaluate (evaluator : Name) (function : UInt32) (args : Arguments)
  | evaluateFrame (evaluator : Name) (frame : FrameSpec)
  | usage (evaluator : Name)

end Interception.Session
