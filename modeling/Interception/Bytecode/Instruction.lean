import Interception.Bytecode.Bytes
import Interception.Bytecode.Opcode

namespace Interception

inductive Instruction
  | nop | pop | constNull | constTrue | constFalse
  | constInt (n : Int64)
  | constFloat (bits : UInt64)
  | loadLocal (slot : UInt16)
  | storeLocal (slot : UInt16)
  | add | sub | mul | lt | eq | not
  | jump (rel : Int32)
  | jumpIfFalse (rel : Int32)
  | call (function : UInt32) (argc : UInt8)
  | ret
  deriving DecidableEq, Inhabited

namespace Instruction

def opcode : Instruction → Opcode
  | nop => .nop
  | pop => .pop
  | constNull => .constNull
  | constTrue => .constTrue
  | constFalse => .constFalse
  | constInt _ => .constInt
  | constFloat _ => .constFloat
  | loadLocal _ => .loadLocal
  | storeLocal _ => .storeLocal
  | add => .add
  | sub => .sub
  | mul => .mul
  | lt => .lt
  | eq => .eq
  | not => .not
  | jump _ => .jump
  | jumpIfFalse _ => .jumpIfFalse
  | call _ _ => .call
  | ret => .ret

def size (i : Instruction) : Nat := 1 + i.opcode.operandSize

def operandBytes : Instruction → List UInt8
  | constInt n => Bytes.littleEndian 8 n.toUInt64.toNat
  | constFloat bits => Bytes.littleEndian 8 bits.toNat
  | loadLocal slot | storeLocal slot => Bytes.littleEndian 2 slot.toNat
  | jump rel | jumpIfFalse rel => Bytes.littleEndian 4 rel.toUInt32.toNat
  | call function argc => Bytes.littleEndian 4 function.toNat ++ [argc]
  | _ => []

def encode (i : Instruction) : List UInt8 := i.opcode.byte :: i.operandBytes

theorem length_encode (i : Instruction) : i.encode.length = i.size := by
  cases i <;> simp [encode, operandBytes, size, opcode, Opcode.operandSize]

inductive Fault
  | invalidOpcode (byte : UInt8)
  | truncatedOperand (offset : Nat)
  deriving DecidableEq, Repr

def operand (code : Array UInt8) (width start : Nat) : Except Fault Nat :=
  match Bytes.field? code width start with
  | some n => .ok n
  | none => .error (.truncatedOperand start)

def ofOpcode (code : Array UInt8) (start : Nat) : Opcode → Except Fault Instruction
  | .nop => .ok nop
  | .pop => .ok pop
  | .constNull => .ok constNull
  | .constTrue => .ok constTrue
  | .constFalse => .ok constFalse
  | .constInt => (operand code 8 start).map fun n => constInt (UInt64.ofNat n).toInt64
  | .constFloat => (operand code 8 start).map fun n => constFloat (UInt64.ofNat n)
  | .loadLocal => (operand code 2 start).map fun n => loadLocal (UInt16.ofNat n)
  | .storeLocal => (operand code 2 start).map fun n => storeLocal (UInt16.ofNat n)
  | .add => .ok add
  | .sub => .ok sub
  | .mul => .ok mul
  | .lt => .ok lt
  | .eq => .ok eq
  | .not => .ok not
  | .jump => (operand code 4 start).map fun n => jump (UInt32.ofNat n).toInt32
  | .jumpIfFalse => (operand code 4 start).map fun n => jumpIfFalse (UInt32.ofNat n).toInt32
  | .call => do
    let function ← operand code 4 start
    let argc ← operand code 1 (start + 4)
    pure (call (UInt32.ofNat function) (UInt8.ofNat argc))
  | .ret => .ok ret

def decode (code : Array UInt8) (pos : Nat) : Except Fault Instruction :=
  match code[pos]? with
  | none => .error (.truncatedOperand pos)
  | some byte =>
    match Opcode.ofByte? byte with
    | none => .error (.invalidOpcode byte)
    | some op => ofOpcode code (pos + 1) op

theorem operand_bound {code : Array UInt8} {width start n : Nat} (hw : 0 < width)
    (h : operand code width start = .ok n) : start + width ≤ code.size := by
  unfold operand at h
  split at h <;> simp at h
  exact Bytes.field?_bound hw (by assumption)

theorem ofOpcode_ok {code : Array UInt8} {start : Nat} {op : Opcode} {i : Instruction}
    (hs : start ≤ code.size) (h : ofOpcode code start op = .ok i) :
    i.opcode = op ∧ start + op.operandSize ≤ code.size := by
  have single {w : Nat} {f : Nat → Instruction} (hw : 0 < w)
      (h : (operand code w start).map f = .ok i) : (∃ n, i = f n) ∧ start + w ≤ code.size := by
    cases ho : operand code w start with
    | error e => simp [ho, Except.map] at h
    | ok n =>
      simp only [ho, Except.map, Except.ok.injEq] at h
      exact ⟨⟨n, h.symm⟩, operand_bound hw ho⟩
  cases op <;> simp only [ofOpcode] at h
  case constInt => obtain ⟨⟨n, rfl⟩, hb⟩ := single (by omega) h; exact ⟨rfl, hb⟩
  case constFloat => obtain ⟨⟨n, rfl⟩, hb⟩ := single (by omega) h; exact ⟨rfl, hb⟩
  case loadLocal => obtain ⟨⟨n, rfl⟩, hb⟩ := single (by omega) h; exact ⟨rfl, hb⟩
  case storeLocal => obtain ⟨⟨n, rfl⟩, hb⟩ := single (by omega) h; exact ⟨rfl, hb⟩
  case jump => obtain ⟨⟨n, rfl⟩, hb⟩ := single (by omega) h; exact ⟨rfl, hb⟩
  case jumpIfFalse => obtain ⟨⟨n, rfl⟩, hb⟩ := single (by omega) h; exact ⟨rfl, hb⟩
  case call =>
    cases hf : operand code 4 start with
    | error e => simp [hf, bind, Except.bind] at h
    | ok function =>
      cases ha : operand code 1 (start + 4) with
      | error e => simp [hf, ha, bind, Except.bind] at h
      | ok argc =>
        simp only [hf, ha, bind, Except.bind, pure, Except.pure, Except.ok.injEq] at h
        subst h
        have := operand_bound (by omega) ha
        exact ⟨rfl, by simp only [Opcode.operandSize]; omega⟩
  all_goals
    obtain rfl := Except.ok.inj h
    exact ⟨rfl, by simpa [Opcode.operandSize] using hs⟩

theorem decode_bound {code : Array UInt8} {pos : Nat} {i : Instruction}
    (h : decode code pos = .ok i) : pos + i.size ≤ code.size := by
  unfold decode at h
  split at h
  · simp at h
  · next byte hb =>
    obtain ⟨hp, -⟩ := Array.getElem?_eq_some_iff.mp hb
    split at h
    · simp at h
    · obtain ⟨ho, hs⟩ := ofOpcode_ok (by omega) h
      simp only [size, ho]
      omega

end Instruction

end Interception
