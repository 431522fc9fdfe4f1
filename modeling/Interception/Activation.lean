import Interception.Error
import Interception.Frame
import Interception.Value.Arithmetic

namespace Interception

/-- The operand stack has its top first. -/
structure Activation where
  code : Code
  pc : Nat
  operands : List Value
  locals : Array Value
  depth : Nat
  deriving DecidableEq, Inhabited

inductive Progress
  | running (a : Activation)
  | calling (caller : Activation) (callee : Frame)
  | stranded
  | finished (result : Except EvalError Value)

namespace Activation

def start (f : Frame) : Activation := ⟨f.code, 0, [], f.locals, f.depth⟩

def replace? (code : Code) (f : Frame) : Option Activation :=
  if code.locals ≤ maxLocals then some ⟨code, 0, [], padLocals f.locals code.locals, f.depth⟩ else none

def push (a : Activation) (v : Value) : Activation := { a with operands := v :: a.operands }

def pop (a : Activation) : Except EvalError (Value × Activation) :=
  match a.operands with
  | v :: rest => .ok (v, { a with operands := rest })
  | [] => .error (.stackUnderflow a.pc)

def pop₂ (a : Activation) : Except EvalError (Value × Value × Activation) :=
  match a.operands with
  | y :: x :: rest => .ok (x, y, { a with operands := rest })
  | _ => .error (.stackUnderflow a.pc)

/-- The distance counts from `next`; the end of the code is a target too. -/
def jumpTarget (a : Activation) (next : Nat) (rel : Int32) : Except EvalError Nat :=
  let target := (next : Int) + rel.toInt
  if 0 ≤ target ∧ target ≤ a.code.body.size then .ok target.toNat else .error (.invalidJump target)

def goto (a : Activation) (pc : Nat) : Progress := .running { a with pc }

def mismatch (op : Opcode) (x y : Value) : EvalError := .typeMismatch op.mnemonic x.tag y.tag

def arithmetic (a : Activation) (op : Opcode) (operator : Value.Operator) (next : Nat) :
    Except EvalError Progress := do
  let (x, y, a) ← a.pop₂
  match Value.arithmetic? operator x y with
  | some v => pure ((a.push v).goto next)
  | none => .error (mismatch op x y)

def call (a : Activation) (p : Program) (function : UInt32) (argc next : Nat) :
    Except EvalError Progress :=
  if a.operands.length < argc then .error (.stackUnderflow a.pc)
  else
    match p.function? function with
    | none => .error (.unknownFunction function)
    | some code =>
      if argc = code.params then
        let args := (a.operands.take argc).reverse.toArray
        match Frame.make? code args (a.depth + 1) with
        | some callee => pure (.calling { a with pc := next, operands := a.operands.drop argc } callee)
        | none => pure .stranded
      else .error (.arityMismatch code.name code.params argc)

def execute (a : Activation) (p : Program) (i : Instruction) (next : Nat) : Except EvalError Progress :=
  match i with
  | .nop => pure (a.goto next)
  | .pop => do
    let (_, a) ← a.pop
    pure (a.goto next)
  | .constNull => pure ((a.push .null).goto next)
  | .constTrue => pure ((a.push (.bool true)).goto next)
  | .constFalse => pure ((a.push (.bool false)).goto next)
  | .constInt n => pure ((a.push (.int n)).goto next)
  | .constFloat bits => pure ((a.push (.float (Float.ofBits bits))).goto next)
  | .loadLocal slot =>
    match a.locals[slot.toNat]? with
    | some v => pure ((a.push v).goto next)
    | none => .error (.invalidLocal slot)
  | .storeLocal slot => do
    let (v, a) ← a.pop
    if slot.toNat < a.locals.size then
      pure ({ a with locals := a.locals.setIfInBounds slot.toNat v }.goto next)
    else .error (.invalidLocal slot)
  | .add => a.arithmetic .add .add next
  | .sub => a.arithmetic .sub .sub next
  | .mul => a.arithmetic .mul .mul next
  | .lt => do
    let (x, y, a) ← a.pop₂
    match Value.less? x y with
    | some b => pure ((a.push (.bool b)).goto next)
    | none => .error (mismatch .lt x y)
  | .eq => do
    let (x, y, a) ← a.pop₂
    pure ((a.push (.bool (x.equal y))).goto next)
  | .not => do
    let (v, a) ← a.pop
    pure ((a.push (.bool !v.truthy)).goto next)
  | .jump rel => do
    let target ← a.jumpTarget next rel
    pure (a.goto target)
  | .jumpIfFalse rel => do
    let (v, a) ← a.pop
    if v.truthy then pure (a.goto next)
    else
      let target ← a.jumpTarget next rel
      pure (a.goto target)
  | .call function argc => a.call p function argc.toNat next
  | .ret => do
    let (v, _) ← a.pop
    pure (.finished (.ok v))

def faultError : Instruction.Fault → EvalError
  | .invalidOpcode byte => .invalidOpcode byte
  | .truncatedOperand offset => .truncatedOperand offset

def advance (a : Activation) (p : Program) : Except EvalError Progress :=
  if a.pc < a.code.body.size then
    match Instruction.decode a.code.body a.pc with
    | .ok i => a.execute p i (a.pc + i.size)
    | .error fault => .error (faultError fault)
  else .error (.missingReturn a.code.name)

def step (a : Activation) (p : Program) : Progress :=
  match a.advance p with
  | .ok progress => progress
  | .error e => .finished (.error e)

end Activation

end Interception
