import Interception.Bytecode.Instruction

namespace Interception.Bytecode

structure Builder where
  code : Array UInt8 := #[]
  deriving DecidableEq, Inhabited

namespace Builder

def offset (b : Builder) : Nat := b.code.size

def emit (b : Builder) (i : Instruction) : Builder := ⟨b.code ++ i.encode.toArray⟩

def emitOpcode (b : Builder) (op : Opcode) : Builder := ⟨b.code.push op.byte⟩

def emitJump (b : Builder) (op : Opcode) (rel : Int32) : Builder :=
  ⟨b.code ++ (op.byte :: Bytes.littleEndian 4 rel.toUInt32.toNat).toArray⟩

/-- Makes the jump at offset `pos` lead to the current offset. The distance counts from the end of the
jump and is reduced to 32 bits. -/
def patchJump? (b : Builder) (pos : Nat) : Option Builder :=
  if pos + 5 ≤ b.offset then
    let distance := Int32.ofInt ((b.offset : Int) - (pos + 5 : Nat))
    some ⟨Bytes.overwrite b.code (pos + 1) (Bytes.littleEndian 4 distance.toUInt32.toNat)⟩
  else none

def finish (b : Builder) : Array UInt8 × Builder := (b.code, {})

end Builder

inductive Emission
  | opcode (op : Opcode)
  | instruction (i : Instruction)
  | jump (op : Opcode) (rel : Int32)
  | placeholder (op : Opcode)
  | patch (index : Nat)
  | patchAt (offset : Nat)
  | jumpTo (op : Opcode) (target : Int)
  deriving Inhabited

structure Draft where
  builder : Builder := {}
  placeholders : Array Nat := #[]
  deriving Inhabited

namespace Draft

def add? (d : Draft) : Emission → Option Draft
  | .opcode op => some { d with builder := d.builder.emitOpcode op }
  | .instruction i => some { d with builder := d.builder.emit i }
  | .jump op rel => some { d with builder := d.builder.emitJump op rel }
  | .placeholder op =>
    some ⟨d.builder.emitJump op 0, d.placeholders.push d.builder.offset⟩
  | .patch index => do
    let pos ← d.placeholders[index]?
    let b ← d.builder.patchJump? pos
    pure { d with builder := b }
  | .patchAt pos => (d.builder.patchJump? pos).map fun b => { d with builder := b }
  | .jumpTo op target =>
    some { d with builder := d.builder.emitJump op (Int32.ofInt (target - (d.builder.offset + 5))) }

def scan? (d : Draft) : List Emission → Option (List Draft)
  | [] => some []
  | e :: es => do
    let d ← d.add? e
    let ds ← d.scan? es
    pure (d :: ds)

def addAll? (d : Draft) (es : List Emission) : Option Draft := es.foldlM add? d

end Draft

inductive Body
  | bytes (code : Array UInt8)
  | emissions (es : List Emission)
  deriving Inhabited

def Body.assemble? : Body → Option (Array UInt8)
  | bytes code => some code
  | emissions es => (({} : Draft).addAll? es).map fun d => d.builder.finish.1

end Interception.Bytecode
