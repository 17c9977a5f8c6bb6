import StackLisp.Chunk

/-!
Two passes that bring returns forward. A jump whose label leads straight to a return becomes that
return, and a literal before a return becomes one instruction with it.
-/

namespace StackLisp.Chunk

/-- The first instruction that is not a label. -/
def skipLabels (code : List Instruction) : Option Instruction :=
  code.find? (·.op ≠ .label)

/-- The last address at which a label is anchored. -/
def lastAnchor? (code : List Instruction) (label : Nat) : Option Nat :=
  code.zipIdx.foldl (fun found (i, pc) =>
    if i.op.effect.anchors && i.operand = label then some pc else found) none

/-- Whether only labels stand between an address and a return. -/
def leadsToReturn (code : List Instruction) (pc : Nat) : Bool :=
  (skipLabels (code.drop pc)).any (·.op = .ret)

/-- The code with the jump at `pc` made a return, if it is one that leads to a return. -/
def returnEarlyAt (address? : Nat → Option Nat) (code : List Instruction) (pc : Nat) :
    List Instruction :=
  match code[pc]? with
  | some i =>
    if i.op = .jump && (address? i.operand).any (leadsToReturn code) then
      code.set pc Opcode.ret.bare
    else code
  | none => code

/-- One sweep from the first address on; a jump made a return counts as one for those after it. -/
def returnEarly (code : List Instruction) : List Instruction :=
  (List.range code.length).foldl (returnEarlyAt (lastAnchor? code)) code

/-- The return that pushes a literal first. -/
def fused? : Opcode → Option Opcode
  | .trueLit => some .retTrue
  | .falseLit => some .retFalse
  | .nullLit => some .retNull
  | _ => none

def fuseReturns : List Instruction → List Instruction
  | [] => []
  | [i] => [i]
  | i :: j :: code =>
    match fused? i.op with
    | some op => if j.op = .ret then op.bare :: fuseReturns code else i :: fuseReturns (j :: code)
    | none => i :: fuseReturns (j :: code)

end StackLisp.Chunk
