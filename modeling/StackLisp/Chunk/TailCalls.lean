import StackLisp.Chunk.Returns

/-!
Calls with nothing but labels between them and a return become tail calls. The return is dropped if it
stands next; after labels it stays, for the paths that come in there.
-/

namespace StackLisp.Chunk

/-- The tail call with the arguments of a call. -/
def tailForm? (i : Instruction) : Option Instruction :=
  match i.op with
  | .call0 => some ⟨.tailCall, 0, Nat.zero_le _⟩
  | .call1 => some ⟨.tailCall, 1, by decide⟩
  | .call => some ⟨.tailCall, i.operand, i.operand_le⟩
  | _ => none

def convertTailCalls : List Instruction → List Instruction
  | [] => []
  | i :: code =>
    match tailForm? i with
    | none => i :: convertTailCalls code
    | some tail =>
      match code with
      | [] => [i]
      | j :: rest =>
        if j.op = .ret then tail :: convertTailCalls rest
        else if leadsToReturn (j :: rest) 0 then tail :: convertTailCalls (j :: rest)
        else i :: convertTailCalls (j :: rest)

end StackLisp.Chunk
