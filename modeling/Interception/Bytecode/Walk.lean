import Interception.Bytecode.Instruction

/-!
The linear walk over a body: instruction after instruction from offset 0, up to the first that cannot be
decoded. It follows no jump, and says nothing about the bytes behind the place where it stops.
-/

namespace Interception.Bytecode

def walkFrom (code : Array UInt8) (pos : Nat) : List (Nat × Instruction) :=
  match _ : Instruction.decode code pos with
  | .ok i => (pos, i) :: walkFrom code (pos + i.size)
  | .error _ => []
termination_by code.size - pos
decreasing_by
  have := Instruction.decode_bound (by assumption)
  simp only [Instruction.size] at *
  omega

def walk (code : Array UInt8) : List (Nat × Instruction) := walkFrom code 0

def uses (code : Array UInt8) (op : Opcode) : Bool := (walk code).any fun i => i.2.opcode = op

def findOpcode? (code : Array UInt8) (ops : List Opcode) : Option (Nat × Opcode) :=
  ((walk code).find? fun i => i.2.opcode ∈ ops).map fun i => (i.1, i.2.opcode)

theorem walkFrom_ok {code : Array UInt8} {pos : Nat} {i : Instruction}
    (h : Instruction.decode code pos = .ok i) :
    walkFrom code pos = (pos, i) :: walkFrom code (pos + i.size) := by
  rw [walkFrom]; split <;> simp_all

theorem walkFrom_error {code : Array UInt8} {pos : Nat} {f : Instruction.Fault}
    (h : Instruction.decode code pos = .error f) : walkFrom code pos = [] := by
  rw [walkFrom]; split <;> simp_all

end Interception.Bytecode
