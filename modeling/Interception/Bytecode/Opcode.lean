namespace Interception

inductive Opcode
  | nop | pop | constNull | constTrue | constFalse | constInt | constFloat
  | loadLocal | storeLocal
  | add | sub | mul | lt | eq | not
  | jump | jumpIfFalse | call | ret
  deriving DecidableEq, Inhabited, Repr

namespace Opcode

def all : List Opcode :=
  [nop, pop, constNull, constTrue, constFalse, constInt, constFloat, loadLocal, storeLocal,
    add, sub, mul, lt, eq, not, jump, jumpIfFalse, call, ret]

def byte : Opcode → UInt8
  | nop => 0x00
  | pop => 0x01
  | constNull => 0x02
  | constTrue => 0x03
  | constFalse => 0x04
  | constInt => 0x05
  | constFloat => 0x06
  | loadLocal => 0x10
  | storeLocal => 0x11
  | add => 0x20
  | sub => 0x21
  | mul => 0x22
  | lt => 0x23
  | eq => 0x24
  | not => 0x25
  | jump => 0x30
  | jumpIfFalse => 0x31
  | call => 0x32
  | ret => 0x33

def ofByte? (b : UInt8) : Option Opcode :=
  match b with
  | 0x00 => some nop
  | 0x01 => some pop
  | 0x02 => some constNull
  | 0x03 => some constTrue
  | 0x04 => some constFalse
  | 0x05 => some constInt
  | 0x06 => some constFloat
  | 0x10 => some loadLocal
  | 0x11 => some storeLocal
  | 0x20 => some add
  | 0x21 => some sub
  | 0x22 => some mul
  | 0x23 => some lt
  | 0x24 => some eq
  | 0x25 => some not
  | 0x30 => some jump
  | 0x31 => some jumpIfFalse
  | 0x32 => some call
  | 0x33 => some ret
  | _ => none

def mnemonic : Opcode → String
  | nop => "nop"
  | pop => "pop"
  | constNull => "const.null"
  | constTrue => "const.true"
  | constFalse => "const.false"
  | constInt => "const.i64"
  | constFloat => "const.f64"
  | loadLocal => "load.local"
  | storeLocal => "store.local"
  | add => "add"
  | sub => "sub"
  | mul => "mul"
  | lt => "lt"
  | eq => "eq"
  | not => "not"
  | jump => "jmp"
  | jumpIfFalse => "jmp.if_false"
  | call => "call"
  | ret => "return"

def ofMnemonic? (s : String) : Option Opcode := all.find? (·.mnemonic == s)

def operandSize : Opcode → Nat
  | constInt | constFloat => 8
  | loadLocal | storeLocal => 2
  | jump | jumpIfFalse => 4
  | call => 5
  | _ => 0

theorem mem_all (op : Opcode) : op ∈ all := by cases op <;> simp [all]

theorem ofByte?_byte (op : Opcode) : ofByte? op.byte = some op := by cases op <;> rfl

theorem byte_of_ofByte? {b : UInt8} {op : Opcode} (h : ofByte? b = some op) : op.byte = b := by
  unfold ofByte? at h
  split at h <;> simp_all <;> subst h <;> rfl

end Opcode

end Interception
