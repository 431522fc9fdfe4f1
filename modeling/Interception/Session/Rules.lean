import Interception.Session.Directory

namespace Interception.Session

def Listing.increment (name : Name) : Listing Nat → Listing Nat
  | [] => [(name, 1)]
  | (n, k) :: rest => if n = name then (n, k + 1) :: rest else (n, k) :: Listing.increment name rest

def Listing.count (l : Listing Nat) (name : Name) : Nat := (l.lookup name).getD 0

def admits {α : Type} [DecidableEq α] (condition : Option α) (a : α) : Bool :=
  match condition with
  | none => true
  | some b => a = b

def GuardSpec.resolve (g : GuardSpec) (f : Frame) : Guard :=
  match g with
  | .always => .always
  | .ownTags => .argTags f.argTags
  | .tags ts => .argTags ts

def Rule.applies (r : Rule) (f : Frame) (turn : Nat) (compiler : Option String) : Bool :=
  admits r.name f.name && admits r.tags f.argTags && admits r.depth f.depth && admits r.turn turn &&
    match r.compiler with
    | none => true
    | some c => compiler = some c

namespace Act

def follow (act : Act) (f : Frame) (compiler : Option CompilerId) : Procedure (Option Conversion) := do
  match act with
  | self guard => pure (some (.converted ⟨f.code, guard.resolve f⟩))
  | code ref guard =>
    let c ← Procedure.codeOf ref
    pure (some (.converted ⟨c, guard.resolve f⟩))
  | compile guard =>
    match compiler with
    | none => pure (some (.declined "no backend"))
    | some compiler =>
      match ← Procedure.request (.compile compiler f.code) with
      | .ok c => pure (some (.converted ⟨c, guard.resolve f⟩))
      | .error cause => pure (some (.failed (.compilation cause)))
  | decline reason => pure (some (.declined reason))
  | internal reason => pure (some (.failed (.internal reason)))
  | unsupported reason => pure (some (.failed (.compilation (.unsupported reason))))
  | broken reason => pure (some (.failed (.compilation (.broken reason))))
  | panic => .panic (.host .bare)
  | evaluate evaluator function args =>
    let e ← Procedure.find (·.evaluators) evaluator
    let vs ← Procedure.argumentsOf args
    let result ← Procedure.request (.evaluate e function vs.toArray)
    Procedure.event (.evaluated result)
    pure none

end Act

def followRules (f : Frame) (turn : Nat) (compiler : Option (CompilerId × String)) :
    List Rule → Procedure Conversion
  | [] => pure (.declined "no rule")
  | r :: rest =>
    if r.applies f turn (compiler.map (·.2)) then do
      match ← r.act.follow f (compiler.map (·.1)) with
      | some answer => pure answer
      | none => followRules f turn compiler rest
    else followRules f turn compiler rest

def RuleScript.ask (s : RuleScript) (f : Frame) (turn : Nat) (compiler : Option (CompilerId × String)) :
    Procedure Conversion := do
  let probe ←
    match s.probe with
    | none => pure none
    | some ref => do
      let slot ← Procedure.slotOf ref
      let h ← Procedure.command (.current slot)
      pure (some (Hook.isNull h))
  Procedure.event (.asked s.name f.name f.argTags f.depth (compiler.map (·.2)) probe)
  followRules f turn compiler s.rules

def RuleScript.convert (s : RuleScript) (f : Frame) (compiler : CompilerId) : Procedure Conversion := do
  let d ← Procedure.directory
  Procedure.modify fun d => { d with converterTurns := d.converterTurns.increment s.name }
  let c ← Procedure.command (.compiler compiler)
  s.ask f (d.converterTurns.count s.name) (some (compiler, Compiler.name c))

def RuleScript.decide (s : RuleScript) (f : Frame) : Procedure (Except HookError Decision) := do
  let d ← Procedure.directory
  Procedure.modify fun d => { d with hookTurns := d.hookTurns.increment s.name }
  match ← s.ask f (d.hookTurns.count s.name) none with
  | .converted r => pure (.ok (.replace r))
  | .declined _ => pure (.ok .fallback)
  | .failed cause => pure (.error (.conversion cause))

def CompilerAct.follow (act : CompilerAct) (code : Code) : Procedure (Except CompileError Code) := do
  match act with
  | .self => pure (.ok code)
  | .code ref =>
    let c ← Procedure.codeOf ref
    pure (.ok c)
  | .unsupported reason => pure (.error (.unsupported reason))
  | .broken reason => pure (.error (.broken reason))
  | .panic => .panic (.host .bare)

def CompilerScript.compile (s : CompilerScript) (code : Code) : Procedure (Except CompileError Code) := do
  let d ← Procedure.directory
  Procedure.modify fun d => { d with compilerTurns := d.compilerTurns.increment s.name }
  Procedure.event (.compiling s.name code.name)
  let turn := d.compilerTurns.count s.name
  match s.rules.find? fun r => admits r.name code.name && admits r.turn turn with
  | some r => r.act.follow code
  | none => pure (.ok code)

end Interception.Session
