import Interception.Bytecode.Builder
import Interception.Bytecode.Walk
import Interception.Value

namespace Interception

structure CodeId where
  number : Nat
  deriving DecidableEq, Inhabited, Repr

structure Code.Source where
  name : String
  params : Nat
  locals : Nat
  body : Array UInt8
  deriving DecidableEq, Inhabited

structure Code.Recipe where
  name : String
  params : Nat
  locals : Nat
  body : Bytecode.Body
  deriving Inhabited

def Code.Recipe.source? (r : Recipe) : Option Source :=
  r.body.assemble?.map fun body => ⟨r.name, r.params, r.locals, body⟩

/-- Every local slot of a parameter is a local slot of the code. Two code objects are the same object
exactly if they have the same `id`. -/
structure Code where
  id : CodeId
  name : String
  params : Nat
  locals : Nat
  body : Array UInt8
  params_le_locals : params ≤ locals
  deriving DecidableEq

namespace Code

def make (id : CodeId) (s : Source) : Code :=
  ⟨id, s.name, s.params, max s.locals s.params, s.body, Nat.le_max_right ..⟩

instance : Inhabited Code := ⟨make default default⟩

def uses (c : Code) (op : Opcode) : Bool := Bytecode.uses c.body op

def instructionCount (c : Code) : Nat := (Bytecode.walk c.body).length

end Code

def padLocals (locals : Array Value) (count : Nat) : Array Value :=
  locals ++ Array.replicate (count - locals.size) Value.null

theorem size_padLocals (locals : Array Value) (count : Nat) :
    (padLocals locals count).size = max locals.size count := by
  simp [padLocals]; omega

/-- The most locals that there can be room for: a value takes 16 bytes, and a block of memory has fewer
than `2 ^ 63` of them. -/
def maxLocals : Nat := 576460752303423487

structure Frame where
  code : Code
  locals : Array Value
  depth : Nat
  code_locals_le : code.locals ≤ locals.size
  size_locals_le : locals.size ≤ maxLocals
  deriving DecidableEq

namespace Frame

def make? (code : Code) (args : Array Value) (depth : Nat) : Option Frame :=
  if h : max args.size code.locals ≤ maxLocals then
    some ⟨code, padLocals args code.locals, depth, by rw [size_padLocals]; exact Nat.le_max_right ..,
      by rwa [size_padLocals]⟩
  else none

def name (f : Frame) : String := f.code.name

def args (f : Frame) : List Value := f.locals.toList.take f.code.params

def argTags (f : Frame) : List Tag := f.args.map Value.tag

end Frame

structure Program where
  functions : Array Code
  deriving Inhabited

def Program.ofSources (sources : List Code.Source) : Program :=
  ⟨(sources.mapIdx fun i s => Code.make ⟨i + 1⟩ s).toArray⟩

def Program.ofRecipes? (recipes : List Code.Recipe) : Option Program :=
  (recipes.mapM Code.Recipe.source?).map ofSources

def Program.function? (p : Program) (index : UInt32) : Option Code := p.functions[index.toNat]?

end Interception
