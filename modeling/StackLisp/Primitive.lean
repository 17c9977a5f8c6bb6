import StackLisp.Value.Access
import StackLisp.Value.Equality

/-!
The operations on one or two values that have an opcode of their own.
-/

namespace StackLisp

/-- Applies a partial operation on numbers; the one partial result is a zero divisor. -/
def arithmetic (f : Number → Number → Option Number) (a b : Value) : Except Fault Value := do
  let l ← a.number?
  let r ← b.number?
  match f l r with
  | some n => .ok n.value
  | none => .error .divideByZero

def compareNumbers (c : Comparison) (a b : Value) : Except Fault Bool := do
  let l ← a.number?
  let r ← b.number?
  .ok (c.holds (l.compare? r))

/-- The meaning of an opcode on two operands, the one on top of the stack first. -/
def Opcode.binary? : Opcode → Option (Value → Value → Except Fault Value)
  | .add => some (arithmetic fun l r => some (l.add r))
  | .sub => some (arithmetic fun l r => some (l.sub r))
  | .mul => some (arithmetic fun l r => some (l.mul r))
  | .div => some (arithmetic Number.div?)
  | .mod => some (arithmetic Number.rem?)
  | .numEq => some (comparison .eq)
  | .numLt => some (comparison .lt)
  | .numLte => some (comparison .le)
  | .numGt => some (comparison .gt)
  | .numGte => some (comparison .ge)
  | .eq => some fun a b => .ok (.bool (a == b))
  | .cons => some fun a b => b.prepend? a
  | _ => none
where
  comparison (c : Comparison) (a b : Value) : Except Fault Value :=
    (compareNumbers c a b).map .bool

def Opcode.unary? : Opcode → Option (Value → Except Fault Value)
  | .neg => some fun v => v.number?.map fun n => n.neg.value
  | .not => some fun v => .ok (.bool !v.holds)
  | .car => some Value.car?
  | .cdr => some Value.cdr?
  | .empty => some fun v => v.isEmpty?.map .bool
  | _ => none

end StackLisp
