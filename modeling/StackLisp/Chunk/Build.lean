import StackLisp.Chunk.Inline
import StackLisp.Chunk.TailCalls
import StackLisp.Chunk.Verify

/-!
From a chunk to a procedure: the passes in their order, the check, and the frozen result.
-/

namespace StackLisp

namespace Chunk

/-- The passes that need nothing but the code. -/
def shorten (code : List Instruction) : List Instruction :=
  convertTailCalls (fuseReturns (returnEarly code))

def optimize (o : CompileOptions) (c : Chunk) : Build Chunk := do
  let c := { c with code := shorten c.code }
  if o.inline then
    let (code, c) ← inlineCalls o.maxInlinedCalls c c.code
    pure { c with code }
  else pure c

/-- Code that may be copied into a caller: short, and without operations that depend on the call. -/
def isInlinable (o : CompileOptions) (code : List Instruction) : Bool :=
  code.length ≤ o.maxInlineLength && !code.any fun i => i.op = .pushArgs || i.op = .current

/-- Optimizes and checks a chunk and freezes it. -/
def build (c : Chunk) (arity : Arity) (o : CompileOptions) : Build (Procedure Value) := do
  let c ← c.optimize o
  let checked ← Build.lift (c.verify.mapError .error)
  let inlinable := isInlinable o c.code
  Build.report (.built c.name c.code.length checked.stackSize c.localCount inlinable)
  let serial ← modifyGet fun s => (s.built, { s with built := s.built + 1 })
  pure
    { serial, arity, inlinable
      name := c.name
      code := c.code
      constants := c.constants
      labels := checked.labels
      stackSize := checked.stackSize
      localCount := c.localCount
      labelCount := c.labelCount
      globals := c.globals }

end Chunk

end StackLisp
