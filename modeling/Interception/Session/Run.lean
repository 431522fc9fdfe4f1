import Interception.Machine
import Interception.Session.Rules

/-!
Operations as scripts. Each operation is one step: it runs under a rescue, so that the step has its own
events and, if it panics, says so and lets the panic go on.
-/

namespace Interception.Session

open Procedure

def answer (a : Answer) : Procedure Report := pure (.answer (.ok a))

def fail (f : Failure) : Procedure Report := pure (.answer (.error f))

def newConverter (c : Converter host) : Procedure ConverterId := command (.newConverter c)

def newStandardConverter : Procedure ConverterId := do
  let inner ← newConverter (.eager [.call])
  newConverter (.caching inner {})

def newConverterOf (name : Name) : ConverterKind → Procedure ConverterId
  | .eager refused => newConverter (.eager refused)
  | .standard => newStandardConverter
  | .caching inner limit => do
    let c ← find (·.converters) inner
    let standard : Cache := {}
    newConverter (.caching c { limit := limit.getD standard.limit })
  | .script rules probe => newConverter (.custom ⟨name, rules, probe⟩)

def newCompilerOf (name : Name) : CompilerKind → Procedure CompilerId
  | .eager => command (.newCompiler .eager)
  | .refusing => command (.newCompiler .refusing)
  | .script shown rules => command (.newCompiler (.custom shown ⟨name, rules⟩))

def ConfigSpec.resolve (c : ConfigSpec) : DispatchConfig :=
  let standard : DispatchConfig := {}
  ⟨c.level.getD standard.declinedLevel, c.recordTally.getD standard.recordTally⟩

def Dispatcher.reconfigure (d : Dispatcher) (spec : DispatcherSpec) : Procedure Dispatcher := do
  let compiler ←
    match spec.compiler with
    | none => pure d.dispatch.compiler
    | some name => find (·.compilers) name
  let tally ←
    match spec.tally with
    | none => pure d.dispatch.tally
    | some name => find (·.tallies) name
  let slot ←
    match spec.slot with
    | none => pure d.slot
    | some ref => slotOf ref
  let config := (spec.config.map ConfigSpec.resolve).getD d.dispatch.config
  pure ⟨{ d.dispatch with compiler, config, tally }, slot⟩

def newDispatcher (converter : ConverterId) : Procedure Dispatcher := do
  let compiler ← command (.newCompiler .eager)
  let tally ← command .newTally
  pure ⟨⟨converter, compiler, {}, tally⟩, .thread⟩

def newDispatcherOf (spec : DispatcherSpec) : Procedure Dispatcher := do
  let converter ←
    match spec.converter with
    | none => newStandardConverter
    | some name => find (·.converters) name
  let d ← newDispatcher converter
  d.reconfigure spec

def newOptimizer (compiler : Name) : Procedure Dispatcher := do
  let c ← find (·.compilers) compiler
  let converter ← newStandardConverter
  let d ← newDispatcher converter
  pure { d with dispatch := { d.dispatch with compiler := c } }

def compilerName (c : CompilerId) : Procedure String := do
  let compiler ← command (.compiler c)
  pure (Compiler.name compiler)

def newCodeOf (recipe : Code.Recipe) : Procedure Code :=
  match recipe.source? with
  | some source => command (.newCode source)
  | none => .panic (.host .bare)

def newCodes : List Code.Recipe → Procedure (List Code)
  | [] => pure []
  | recipe :: rest => do
    let c ← newCodeOf recipe
    let cs ← newCodes rest
    pure (c :: cs)

def ScopeKind.resolve : ScopeKind → Procedure (SlotId × Hook)
  | .hook h ref => do
    let h ← hookOf h
    let s ← slotOf ref
    pure (s, h)
  | .dispatcher name => do
    let d ← find (·.dispatchers) name
    let h ← newHook (.dispatch d.dispatch)
    pure (d.slot, h)
  | .optimizing compiler => do
    let d ← newOptimizer compiler
    let h ← newHook (.dispatch d.dispatch)
    pure (d.slot, h)
  | .disabled ref => do
    let s ← slotOf ref
    pure (s, .null)

def ScopeKind.isDisabled : ScopeKind → Bool
  | .disabled _ => true
  | _ => false

def WrapKind.resolve : WrapKind → Procedure (SlotId × Hook)
  | .scope name => do
    let entry ← find (·.scopes) name
    let scope ← command (.scope entry.scope)
    pure (Scope.slot scope, Scope.hook scope)
  | .dispatcher name => ScopeKind.resolve (.dispatcher name)
  | .optimizing compiler => ScopeKind.resolve (.optimizing compiler)
  | .disabled => pure (.thread, .null)

def scopeState (s : ScopeId) : Procedure Report := do
  let scope ← command (.scope s)
  let h ← command (.current (Scope.slot scope))
  let current ← label h
  answer (.scope (Scope.displaced scope).isSome current)

def scopeText (entry : ScopeEntry) : Procedure String := do
  let scope ← command (.scope entry.scope)
  let text := "InterceptionScope \x7b callback: " ++ (Scope.hook scope).text ++ ", active: " ++
    (if (Scope.displaced scope).isSome then "true" else "false") ++ " \x7d"
  pure (if entry.disabled then "DisabledScope(" ++ text ++ ")" else text)

def shownText : Shown → Procedure String
  | .scope name => do
    let entry ← find (·.scopes) name
    scopeText entry
  | .wrap name => do
    let w ← find (·.wraps) name
    pure ("Intercepted \x7b callback: " ++ w.hook.text ++ ", .. \x7d")
  | .hook ref => do
    let h ← hookOf ref
    pure h.text
  | .slot .thread => pure "ThreadRegistry"
  | .slot ref => do
    let s ← slotOf ref
    let h ← command (.current s)
    pure ("SharedRegistry \x7b slot: " ++ Hook.text h ++ " \x7d")

def tallyOf : TallyRef → Procedure TallyId
  | .dispatcher name => do
    let d ← find (·.dispatchers) name
    pure d.dispatch.tally
  | .tally name => find (·.tallies) name

def decisionAnswer (f : Frame) : Except HookError Decision → Procedure Report
  | .ok .fallback => answer .fallback
  | .ok (.replace r) => answer (.replacement r (r.applies f) (r.code.id = f.code.id))
  | .error cause => fail (.hook cause)

def conversionAnswer (f : Frame) : Conversion → Procedure Report
  | .converted r => answer (.replacement r (r.applies f) (r.code.id = f.code.id))
  | .declined reason => answer (.declined reason)
  | .failed cause => fail (.conversion cause)

def evaluationAnswer : Except EvalError Value → Procedure Report
  | .ok v => answer (.value v)
  | .error cause => fail (.evaluation cause)

def readFresh (s : SlotId) (h : Option Hook) : Procedure Report :=
  if s = .thread then
    match h with
    | none => answer (.thread "null" none "null")
    | some h => do
      let after ← label h
      answer (.thread "null" (some "null") after)
  else do
    let beforeHook ← command (.current s)
    let before ← label beforeHook
    match h with
    | none => answer (.thread before none before)
    | some h =>
      let displacedHook ← command (.install s h)
      let displaced ← label displacedHook
      let afterHook ← command (.current s)
      let after ← label afterHook
      answer (.thread before (some displaced) after)

def Operation.script : Operation → Procedure Report
  | .slot name => do
    let s ← command .newSlot
    modify fun d => { d with slots := (name, s) :: d.slots }
    answer .null
  | .program name functions => do
    let cs ← newCodes functions
    modify fun d => { d with programs := (name, ⟨cs.toArray⟩) :: d.programs }
    answer (.codes cs)
  | .code name recipe => do
    let c ← newCodeOf recipe
    modify fun d => { d with codes := (name, c) :: d.codes }
    answer (.code c)
  | .frame spec => do
    let f ← frameOf spec
    answer (.frame f)
  | .tally name => do
    let t ← command .newTally
    modify fun d => { d with tallies := (name, t) :: d.tallies }
    answer .null
  | .snapshot ref => do
    let t ← tallyOf ref
    let tally ← command (.tally t)
    answer (.tally tally)
  | .reset ref => do
    let t ← tallyOf ref
    command (.resetTally t)
    answer .null
  | .compiler name kind => do
    let c ← newCompilerOf name kind
    modify fun d => { d with compilers := (name, c) :: d.compilers }
    let shown ← compilerName c
    answer (.text shown)
  | .compile compilerName ref => do
    let c ← find (·.compilers) compilerName
    let code ← codeOf ref
    match ← request (.compile c code) with
    | .ok result => answer (.compiled result (result.id = code.id))
    | .error cause => fail (.compilation cause)
  | .converter name kind => do
    let c ← newConverterOf name kind
    modify fun d => { d with converters := (name, c) :: d.converters }
    answer .null
  | .convert converterName compilerName spec inner => do
    let c ← find (·.converters) converterName
    let b ← find (·.compilers) compilerName
    let f ← frameOf spec
    let asked ←
      if inner then
        match ← command (.converter c) with
        | .caching behind _ => pure behind
        | _ => .panic (.host .badInput)
      else pure c
    let result ← request (.convert asked b f)
    conversionAnswer f result
  | .cache name ref => do
    let c ← find (·.converters) name
    match ← command (.converter c) with
    | .caching _ memory =>
      match ref with
      | none => answer (.cache memory.hits memory.misses memory.size none)
      | some ref =>
        let c ← codeOf ref
        answer (.cache memory.hits memory.misses memory.size
          (some (memory.contains c.id, memory.isSkipped c.id)))
    | _ => fail .badInput
  | .invalidate name ref => do
    let c ← find (·.converters) name
    let code ← codeOf ref
    command (.invalidate c code.id)
    answer .null
  | .dispatcher name spec => do
    let d ← newDispatcherOf spec
    modify fun dir => { dir with dispatchers := (name, d) :: dir.dispatchers }
    let shown ← compilerName d.dispatch.compiler
    answer (.text shown)
  | .reconfigure name spec => do
    let old ← find (·.dispatchers) name
    let d ← old.reconfigure spec
    modify fun dir => { dir with dispatchers := (name, d) :: dir.dispatchers }
    let shown ← compilerName d.dispatch.compiler
    answer (.text shown)
  | .dispatch name spec => do
    let d ← find (·.dispatchers) name
    let f ← frameOf spec
    let result ← request (.dispatch d.dispatch f)
    decisionAnswer f result
  | .hook name kind => do
    let h ←
      match kind with
      | .dispatcher other => do
        let d ← find (·.dispatchers) other
        newHook (.dispatch d.dispatch)
      | .alias other => hookOf other
      | .script rules probe => newHook (.custom ⟨name, rules, probe⟩)
    modify (·.register name h)
    answer .null
  | .same a b => do
    let a ← hookOf a
    let b ← hookOf b
    answer (.bool (a = b))
  | .invoke ref spec => do
    let h ← hookOf ref
    let f ← frameOf spec
    let result ← request (.decide h f)
    decisionAnswer f result
  | .install ref h => do
    let s ← slotOf ref
    let h ← hookOf h
    let displaced ← command (.install s h)
    let text ← label displaced
    answer (.text text)
  | .current ref => do
    let s ← slotOf ref
    let h ← command (.current s)
    let text ← label h
    answer (.text text)
  | .show shown => do
    let text ← shownText shown
    answer (.text text)
  | .freshThread ref h => do
    let s ← slotOf ref
    match h with
    | none => readFresh s none
    | some h =>
      let h ← hookOf h
      readFresh s (some h)
  | .scope name kind => do
    let (s, h) ← kind.resolve
    let id ← command (.newScope s h)
    let entry : ScopeEntry := ⟨id, kind.isDisabled⟩
    modify fun d => ({ d with scopes := (name, entry) :: d.scopes }.register ("scope:" ++ name) h)
    let text ← label h
    answer (.text text)
  | .enter name => do
    let entry ← find (·.scopes) name
    match ← command (.enter entry.scope) with
    | .ok _ => scopeState entry.scope
    | .error cause => fail (.scope cause)
  | .exit name => do
    let entry ← find (·.scopes) name
    match ← command (.exit entry.scope) with
    | .ok _ => scopeState entry.scope
    | .error cause => fail (.scope cause)
  | .state name => do
    let entry ← find (·.scopes) name
    scopeState entry.scope
  | .drop name => do
    let entry ← find (·.scopes) name
    command (.drop entry.scope)
    let scope ← command (.scope entry.scope)
    let h ← command (.current (Scope.slot scope))
    let text ← label h
    answer (.text text)
  | .within name showDisplaced body stopAtError => do
    let entry ← find (·.scopes) name
    let scope ← command (.scope entry.scope)
    let displacedHook ← command (.current (Scope.slot scope))
    let displaced ← label displacedHook
    match ← request (.within (Scope.slot scope) (Scope.hook scope) (.steps body stopAtError)) with
    | .body results stopped _ => pure (.body results stopped (if showDisplaced then some displaced else none))
    | report => pure report
  | .rescue body stopAtError => do
    match ← request (.rescue (.steps body stopAtError)) with
    | .ok report => pure report
    | .error (.host (.body results)) => pure (.caught results)
    | .error _ => pure (.caught [])
  | .panic => .panic (.host .bare)
  | .wrap name kind body stopAtError => do
    let (s, h) ← kind.resolve
    let w : Wrapped := ⟨s, h, body, stopAtError⟩
    modify fun d => ({ d with wraps := (name, w) :: d.wraps }.register ("wrap:" ++ name) h)
    let text ← label h
    answer (.text text)
  | .call name args bare limit => do
    let w ← find (·.wraps) name
    let d ← directory
    let running := d.calls.countP (·.wrap = name)
    if limit.any (· ≤ running) then answer (.text "limit")
    else
      let vs ← argumentsOf args
      modify fun d => { d with calls := ⟨name, vs⟩ :: d.calls }
      let body : Body := .steps w.body w.stopAtError
      if bare then request (.perform body) else request (.within w.slot w.hook body)
  | .evaluator name programName ref maxDepth => do
    let p ← find (·.programs) programName
    let s ← slotOf ref
    let e ← command (.newEvaluator p s (maxDepth.getD 256))
    modify fun d => { d with evaluators := (name, e) :: d.evaluators }
    answer (.nat p.functions.size)
  | .evaluate name function args => do
    let e ← find (·.evaluators) name
    let vs ← argumentsOf args
    let result ← request (.evaluate e function vs.toArray)
    evaluationAnswer result
  | .evaluateFrame name spec => do
    let e ← find (·.evaluators) name
    let f ← frameOf spec
    let result ← request (.evaluateFrame e f)
    evaluationAnswer result
  | .usage name => do
    let e ← find (·.evaluators) name
    let usage ← command (.usage e)
    answer (.usage usage)

def ownEvents : Nat → List (Entry Note) → List Event
  | _, [] => []
  | depth, .note .stepBegan :: rest => ownEvents (depth + 1) rest
  | depth, .note .stepEnded :: rest => ownEvents (depth - 1) rest
  | 0, .note (.event e) :: rest => e :: ownEvents 0 rest
  | 0, .record r :: rest => .log r :: ownEvents 0 rest
  | depth, _ :: rest => ownEvents depth rest

def StepResult.ofReport (events : List Event) : Report → StepResult
  | .answer (.ok a) => .ok a events
  | .answer (.error f) => .failed f events
  | .body results stopped displaced => .body results stopped displaced events
  | .caught results => .caught results events

def StepResult.ofPanic (events : List Event) : Panic host → StepResult
  | .tooManyLocals => .panicked none events
  | .host .bare => .panicked none events
  | .host (.body results) => .panicked (some results) events
  | .host .badInput => .failed .badInput events

def step (op : Operation) : Procedure StepResult := do
  let d ← directory
  command (.note .stepBegan)
  let start ← command .journalSize
  let outcome ← request (.rescue (.operation op))
  let entries ← command (.journalFrom start)
  command (.note .stepEnded)
  modify fun now => { now with calls := d.calls }
  let events := ownEvents 0 entries
  match outcome with
  | .ok report => pure (.ofReport events report)
  | .error panic => pure (.ofPanic events panic)

def steps (stopAtError : Bool) : List Operation → List StepResult → Procedure Report
  | [], done => pure (.body done.reverse false none)
  | op :: rest, done => do
    let result ← step op
    if result.isPanic then .panic (.host (.body (result :: done).reverse))
    else if stopAtError && result.isFailure then pure (.body (result :: done).reverse true none)
    else steps stopAtError rest (result :: done)

def session : List Operation → List StepResult → Procedure Report
  | [], done => pure (.body done.reverse false none)
  | op :: rest, done => do
    let result ← step op
    session rest (result :: done)

def behaviour : Behaviour host where
  decide script f := script.decide f
  convert script f compiler := script.convert f compiler
  compile script code := script.compile code
  perform
    | .session ops => session ops []
    | .operation op => op.script
    | .steps ops stopAtError => steps stopAtError ops []

def results? (fuel : Nat) (threshold : Threshold) (ops : List Operation) : Option (List StepResult) :=
  let world : World host := .empty threshold {}
  match (State.ofRequest world (.perform (.session ops))).run behaviour fuel with
  | .finished _ (.ok (.body results _ _)) => some results
  | _ => none

end Interception.Session
