import StackLisp.Value.Equality

/-!
A chunk: the code of one body with its constants, before it is checked. Labels and local slots are
numbered below the two counts.
-/

namespace StackLisp

structure Chunk where
  code : List Instruction
  constants : List Value
  localCount : Nat
  labelCount : Nat
  globals : NamespaceId
  name : Option String

namespace Chunk

/-- Adds a constant unless an equal one is there, and gives its place. -/
def addConstant (c : Chunk) (v : Value) : Nat × Chunk :=
  let (i, constants) := poolConstant c.constants v
  (i, { c with constants })

def contains (c : Chunk) (op : Opcode) : Bool :=
  c.code.any (·.op = op)

end Chunk

end StackLisp
