import StackLisp.Opcode

/-!
An operation with its operand. Both share one word: the number of the operation in the low eight bits,
the operand above them.
-/

namespace StackLisp

def maxOperand : Nat := 16777215

theorem one_le_maxOperand : 1 ≤ maxOperand := by decide

theorem two_le_maxOperand : 2 ≤ maxOperand := by decide

theorem three_le_maxOperand : 3 ≤ maxOperand := by decide

structure Instruction where
  op : Opcode
  operand : Nat
  operand_le : operand ≤ maxOperand
deriving DecidableEq

/-- An operand too large for an instruction. -/
structure Oversized where
  op : Opcode
  operand : Nat
deriving DecidableEq

def Oversized.message (e : Oversized) : String :=
  s!"operand {e.operand} for {e.op.name} exceeds the maximum of {maxOperand}"

/-- The instruction without an operand of its own. -/
def Opcode.bare (op : Opcode) : Instruction :=
  ⟨op, 0, Nat.zero_le _⟩

def Opcode.with (op : Opcode) (operand : Nat) : Except Oversized Instruction :=
  if h : operand ≤ maxOperand then .ok ⟨op, operand, h⟩ else .error ⟨op, operand⟩

namespace Instruction

def word (i : Instruction) : Nat :=
  i.operand * 256 + i.op.byte

def pops (i : Instruction) : Nat :=
  i.op.effect.pops + if i.op.effect.counted then i.operand else 0

def pushes (i : Instruction) : Nat :=
  i.op.effect.pushes

def text (i : Instruction) : String :=
  if i.op.hasOperand then s!"{i.op.name} {i.operand}" else i.op.name

/-- A number in at least four digits. -/
def address (n : Nat) : String :=
  let digits := toString n
  String.ofList (List.replicate (4 - digits.length) '0') ++ digits

/-- One line per instruction, from address `start` on. -/
def listingFrom (start : Nat) : List Instruction → List String
  | [] => []
  | i :: code => s!"{address start} {i.text}" :: listingFrom (start + 1) code

def listing (code : List Instruction) : List String :=
  listingFrom 0 code

end Instruction

end StackLisp
