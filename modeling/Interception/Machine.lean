import Interception.Activation
import Interception.Script

/-!
The machine that carries out requests. Its state is a world, a task, and the stack of everything that
waits for the task's result. An answer resumes the topmost of these; a panic removes them one by one, and
passes only a rescue. A guard is an entry of the stack, so it closes on either way.

Every frame that an evaluator is asked for passes `evaluateFrame`: it is refused at the depth limit, counted,
offered to the hook in the evaluator's slot with that slot emptied meanwhile, and then run.
-/

namespace Interception

variable {H : Host}

inductive Task (H : Host) : Kind → Type
  | request {k : Kind} (r : Request H k) : Task H k
  | script {k : Kind} (p : Script H (k.Result H)) : Task H k
  | run (e : EvaluatorId) (a : Activation) : Task H .evaluation
  | answer {k : Kind} (a : k.Result H) : Task H k
  | unwind {k : Kind} (p : Panic H) : Task H k

/-- What waits for a result of the first kind in order to give one of the second. -/
inductive Pending (H : Host) : Kind → Kind → Type
  | restore {k : Kind} (s : SlotId) (displaced : Hook) : Pending H k k
  | resume (e : EvaluatorId) (caller : Activation) : Pending H .evaluation .evaluation
  | settle (e : EvaluatorId) (f : Frame) : Pending H .decision .evaluation
  | classify (d : Dispatch) (f : Frame) : Pending H .conversion .decision
  | remember (c : ConverterId) (k : Cache.Key) (f : Frame) : Pending H .conversion .conversion
  | guarded (f : Frame) : Pending H .compilation .conversion
  | proceed {k l : Kind} (next : k.Result H → Script H (l.Result H)) : Pending H k l
  | rescue : Pending H .body .rescued

inductive Stack (H : Host) : Kind → Kind → Type
  | nil {k : Kind} : Stack H k k
  | cons {k l m : Kind} (p : Pending H k l) (rest : Stack H l m) : Stack H k m

structure State (H : Host) (final : Kind) where
  world : World H
  kind : Kind
  stack : Stack H kind final
  task : Task H kind

inductive Outcome (H : Host) (final : Kind)
  | running (s : State H final)
  | finished (w : World H) (result : Except (Panic H) (final.Result H))

namespace State

variable {final k : Kind}

def begin (β : Behaviour H) (w : World H) (r : Request H k) (stack : Stack H k final) :
    State H final :=
  match r with
  | .evaluate e function args =>
    match (w.evaluator e).program.function? function with
    | none => ⟨w, _, stack, .answer (.error (.unknownFunction function))⟩
    | some code =>
      if args.size = code.params then
        match Frame.make? code args 0 with
        | some f => ⟨w, _, stack, .request (.evaluateFrame e f)⟩
        | none => ⟨w, _, stack, .unwind .tooManyLocals⟩
      else ⟨w, _, stack, .answer (.error (.arityMismatch code.name code.params args.size))⟩
  | .evaluateFrame e f =>
    let evaluator := w.evaluator e
    if evaluator.maxDepth ≤ f.depth then
      ⟨w, _, stack, .answer (.error (.recursionLimit evaluator.maxDepth))⟩
    else
      let w := w.countFrame e
      match w.slot evaluator.slot with
      | .null => ⟨w, _, stack, .run e (.start f)⟩
      | .active h =>
        ⟨w.openGuard evaluator.slot .null, _,
          .cons (.restore evaluator.slot (.active h)) (.cons (.settle e f) stack),
          .request (.decide (.active h) f)⟩
  | .decide .null _ => ⟨w, _, stack, .answer (.ok .fallback)⟩
  | .decide (.active h) f =>
    match w.handler h with
    | .dispatch d => ⟨w, _, stack, .request (.dispatch d f)⟩
    | .custom script => ⟨w, _, stack, .script (β.decide script f)⟩
  | .dispatch d f =>
    ⟨w.recordTally d .intercepted, _, .cons (.classify d f) stack,
      .request (.convert d.converter d.compiler f)⟩
  | .convert c compiler f =>
    match w.converter c with
    | .eager refused =>
      match f.code.refusal? refused with
      | some reason => ⟨w, _, stack, .answer (.declined reason)⟩
      | none => ⟨w, _, .cons (.guarded f) stack, .request (.compile compiler f.code)⟩
    | .caching inner cache =>
      let key : Cache.Key := ⟨f.code.id, compiler⟩
      match cache.lookup key f with
      | (some answer, cache) => ⟨w.setConverter c (.caching inner cache), _, stack, .answer answer⟩
      | (none, cache) =>
        ⟨w.setConverter c (.caching inner cache), _, .cons (.remember c key f) stack,
          .request (.convert inner compiler f)⟩
    | .custom script => ⟨w, _, stack, .script (β.convert script f compiler)⟩
  | .compile compiler code =>
    match w.compiler compiler with
    | .eager =>
      ⟨w.log .debug (.compiled code.name code.instructionCount code.body.size), _, stack,
        .answer (.ok code)⟩
    | .refusing =>
      ⟨w, _, stack, .answer (.error (.unsupported ("stub backend cannot compile '" ++ code.name ++ "'")))⟩
    | .custom _ script => ⟨w, _, stack, .script (β.compile script code)⟩
  | .perform b => ⟨w, _, stack, .script (β.perform b)⟩
  | .within s h b =>
    ⟨w.openGuard s h, _, .cons (.restore s (w.slot s)) stack, .request (.perform b)⟩
  | .rescue b => ⟨w, _, .cons .rescue stack, .request (.perform b)⟩

def interpret (w : World H) (p : Script H (k.Result H)) (stack : Stack H k final) : State H final :=
  match p with
  | .done a => ⟨w, _, stack, .answer a⟩
  | .panic p => ⟨w, _, stack, .unwind p⟩
  | .act c next =>
    let (a, w) := c.run w
    ⟨w, _, stack, .script (next a)⟩
  | .ask r next => ⟨w, _, .cons (.proceed next) stack, .request r⟩

def advance (w : World H) (e : EvaluatorId) (a : Activation) (stack : Stack H .evaluation final) :
    State H final :=
  match a.step (w.evaluator e).program with
  | .running a => ⟨w, _, stack, .run e a⟩
  | .calling caller callee => ⟨w, _, .cons (.resume e caller) stack, .request (.evaluateFrame e callee)⟩
  | .stranded => ⟨w, _, stack, .unwind .tooManyLocals⟩
  | .finished result => ⟨w, _, stack, .answer result⟩

def deliver {l : Kind} (w : World H) (result : k.Result H) (p : Pending H k l) (stack : Stack H l final) :
    State H final :=
  match p with
  | .restore s displaced => ⟨w.closeGuard s displaced, _, stack, .answer result⟩
  | .resume e caller =>
    match result with
    | .ok v => ⟨w, _, stack, .run e (caller.push v)⟩
    | .error cause => ⟨w, _, stack, .answer (.error cause)⟩
  | .settle e f =>
    match result with
    | .ok (.replace r) =>
      if r.applies f then
        match Activation.replace? r.code f with
        | some a => ⟨w.countReplaced e, _, stack, .run e a⟩
        | none => ⟨w.countReplaced e, _, stack, .unwind .tooManyLocals⟩
      else
        ⟨(w.countGuardFailure e).log .trace (.guardFailed f.name), _, stack, .run e (.start f)⟩
    | .ok .fallback => ⟨w, _, stack, .run e (.start f)⟩
    | .error cause => ⟨w, _, stack, .answer (.error (.hook cause))⟩
  | .classify d f =>
    match result with
    | .converted r => ⟨w.recordTally d .replaced, _, stack, .answer (.ok (.replace r))⟩
    | .declined reason =>
      ⟨(w.log d.config.declinedLevel (.notConverted f.name reason)).recordTally d .declined, _, stack,
        .answer (.ok .fallback)⟩
    | .failed cause => ⟨w.recordTally d .failed, _, stack, .answer (.error (.conversion cause))⟩
  | .remember c key f =>
    match w.converter c with
    | .caching inner cache =>
      let (answer, cache) := cache.store key f result
      ⟨w.setConverter c (.caching inner cache), _, stack, .answer answer⟩
    | _ => ⟨w, _, stack, .answer result⟩
  | .guarded f =>
    match result with
    | .ok code => ⟨w, _, stack, .answer (.converted ⟨code, .argTags f.argTags⟩)⟩
    | .error cause => ⟨w, _, stack, .answer (.failed (.compilation cause))⟩
  | .proceed next => ⟨w, _, stack, .script (next result)⟩
  | .rescue => ⟨w, _, stack, .answer (.ok result)⟩

def discard {l : Kind} (w : World H) (panic : Panic H) (p : Pending H k l) (stack : Stack H l final) :
    State H final :=
  match p with
  | .restore s displaced => ⟨w.closeGuard s displaced, _, stack, .unwind panic⟩
  | .rescue => ⟨w, _, stack, .answer (.error panic)⟩
  | _ => ⟨w, _, stack, .unwind panic⟩

def step (β : Behaviour H) (s : State H final) : Outcome H final :=
  match s with
  | ⟨w, _, stack, .request r⟩ => .running (begin β w r stack)
  | ⟨w, _, stack, .script p⟩ => .running (interpret w p stack)
  | ⟨w, _, stack, .run e a⟩ => .running (advance w e a stack)
  | ⟨w, _, .nil, .answer a⟩ => .finished w (.ok a)
  | ⟨w, _, .cons p stack, .answer a⟩ => .running (deliver w a p stack)
  | ⟨w, _, .nil, .unwind panic⟩ => .finished w (.error panic)
  | ⟨w, _, .cons p stack, .unwind panic⟩ => .running (discard w panic p stack)

def run (β : Behaviour H) : Nat → State H final → Outcome H final
  | 0, s => .running s
  | n + 1, s =>
    match s.step β with
    | .running s => run β n s
    | .finished w result => .finished w result

def ofRequest (w : World H) (r : Request H final) : State H final := ⟨w, _, .nil, .request r⟩

end State

end Interception
