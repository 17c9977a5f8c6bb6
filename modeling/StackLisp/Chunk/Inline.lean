import StackLisp.Chunk
import StackLisp.CompileError
import StackLisp.Settings
import StackLisp.Store

/-!
Inlining: a closure constant that is called at once is replaced by its body. The body runs on staged
arguments, its constants and captured values move into the pool of the chunk, its locals and labels
above those of the chunk. In place of a plain call its returns become jumps to one exit, and its tail
calls become plain ones; in place of a tail call both stay.
-/

namespace StackLisp

/-- Work on the store that can be rejected. What it has reported stays when it is. -/
abbrev Build := ExceptT Rejection (StateM Store)

def Build.report (e : Event) : Build Unit :=
  modify (·.report e)

def Build.lift {α : Type} (r : Except Rejection α) : Build α :=
  ExceptT.mk (pure r)

namespace Chunk

/-- The argument count of a call and whether it is a tail call. -/
def callShape? (i : Instruction) : Option (Nat × Bool) :=
  match i.op with
  | .call0 => some (0, false)
  | .call1 => some (1, false)
  | .call => some (i.operand, false)
  | .tailCall => some (i.operand, true)
  | _ => none

/-- Why a procedure is not inlined at a call with `count` arguments. -/
def refusal? (globals : NamespaceId) (p : Procedure Value) (count : Nat) : Option Event :=
  if p.globals ≠ globals then some (.foreignGlobals p.name)
  else if !p.inlinable then some (.notInlinable p.name)
  else if !p.arity.accepts count then some (.countMismatch p.name count)
  else none

/-- Where a body goes: the first numbers for its locals and labels, its exit, and the kind of call. -/
structure Site where
  localBase : Nat
  labelBase : Nat
  exit : Nat
  tail : Bool

def fetch {α : Type} (xs : List α) (i : Nat) : Except Rejection α :=
  match xs[i]? with
  | some a => .ok a
  | none => .error (.breach .outOfRange)

/-- An instruction of the body as it stands in the chunk, which may get a constant for it. -/
def relocate (s : Site) (callee : Closure) (c : Chunk) (i : Instruction) :
    Except Rejection (List Instruction × Chunk) := do
  let leave (code : List Instruction) : Except Rejection (List Instruction × Chunk) := do
    .ok (code ++ [← Opcode.jump.withOperand s.exit], c)
  let constant (v : Value) : Except Rejection (List Instruction × Chunk) := do
    let (index, c) := c.addConstant v
    .ok ([← Opcode.const.withOperand index], c)
  match i.op with
  | .ret => if s.tail then .ok ([i], c) else leave []
  | .retNull => if s.tail then .ok ([i], c) else leave [Opcode.nullLit.bare]
  | .retTrue => if s.tail then .ok ([i], c) else leave [Opcode.trueLit.bare]
  | .retFalse => if s.tail then .ok ([i], c) else leave [Opcode.falseLit.bare]
  | .tailCall =>
    if s.tail then .ok ([i], c) else leave [⟨.call, i.operand, i.operand_le⟩]
  | .capture => constant (← fetch callee.captured i.operand)
  | op =>
    match op.effect.operand with
    | .constants => constant (← fetch callee.procedure.constants i.operand)
    | .locals => .ok ([← op.withOperand (i.operand + s.localBase)], c)
    | .labels => .ok ([← op.withOperand (i.operand + s.labelBase)], c)
    | _ => .ok ([i], c)

def relocateAll (s : Site) (callee : Closure) :
    Chunk → List Instruction → Except Rejection (List Instruction × Chunk)
  | c, [] => .ok ([], c)
  | c, i :: body => do
    let (code, c) ← relocate s callee c i
    let (rest, c) ← relocateAll s callee c body
    .ok (code ++ rest, c)

/-- The code in place of a call with `count` arguments. -/
def splice (c : Chunk) (callee : Closure) (count : Nat) (tail : Bool) :
    Except Rejection (List Instruction × Chunk) := do
  let p := callee.procedure
  let s : Site := ⟨c.localCount, c.labelCount, c.labelCount + p.labelCount, tail⟩
  let c := { c with
    localCount := c.localCount + p.localCount
    labelCount := if tail then s.exit else s.exit + 1 }
  let stage ← Opcode.pushArgs.withOperand count
  let (body, c) ← relocateAll s callee c p.code
  if tail then .ok (stage :: body, c)
  else .ok (stage :: body ++ [← Opcode.label.withOperand s.exit, Opcode.popArgs.bare], c)

/-- The code with up to `budget` calls inlined, from left to right. -/
def inlineCalls (budget : Nat) (c : Chunk) : List Instruction → Build (List Instruction × Chunk)
  | [] => pure ([], c)
  | [i] => pure ([i], c)
  | i :: j :: code => do
    let keep : Build (List Instruction × Chunk) := do
      let (rest, c) ← inlineCalls budget c (j :: code)
      pure (i :: rest, c)
    if budget = 0 ∨ i.op ≠ .const then keep
    else match callShape? j with
      | none => keep
      | some (count, tail) =>
        match ← Build.lift (fetch c.constants i.operand) with
        | .closure p captured =>
          match refusal? c.globals p count with
          | some e =>
            Build.report e
            keep
          | none =>
            let (body, c) ← Build.lift (splice c ⟨p, captured⟩ count tail)
            Build.report (.inlined p.name count tail)
            let (rest, c) ← inlineCalls (budget - 1) c code
            pure (body ++ rest, c)
        | _ => keep

end Chunk

end StackLisp
