import StackLisp.Value.Printer

/-!
Faults and breaches. A fault is an error of the program that runs: it unwinds until it is recovered. A
breach is a broken promise of the machine's own, such as an operand that points past the end of a pool:
nothing recovers it.
-/

namespace StackLisp

/-- What an operation asks of a value. -/
inductive Capability where
  | number
  | integer
  | symbol
  | callable
  | reference
  | pair
  | sequence
  | list
  | procedure
deriving DecidableEq

def Capability.name : Capability → String
  | number => "number"
  | integer => "integer"
  | symbol => "symbol"
  | callable => "callable"
  | reference => "reference"
  | pair => "pair"
  | sequence => "sequence"
  | list => "list"
  | procedure => "procedure"

inductive Fault where
  | typeMismatch (expected : Capability) (found : Kind)
  | divideByZero
  | indexOutOfRange (index : Int64) (length : Nat)
  | unmatchedArity (expected : Arity) (got : Nat)
  | unboundSymbol (name : String)
  | alreadyBound (name : String)
  | unboundRef
  | refAlreadyBound
  | raised (payload : Value)

namespace Fault

def mismatch (expected : Capability) (found : Value) : Fault :=
  typeMismatch expected found.kind

def message : Fault → String
  | typeMismatch expected found =>
    s!"type mismatch: expected {expected.name}, got {found.name}"
  | divideByZero => "division by zero"
  | indexOutOfRange index length => s!"index {index.toInt} out of range for length {length}"
  | unmatchedArity expected got =>
    s!"wrong number of arguments: expected {expected.text}, got {got}"
  | unboundSymbol name => s!"symbol `{name}` is not bound"
  | alreadyBound name => s!"symbol `{name}` is already bound"
  | unboundRef => "reference dereferenced before it was bound"
  | refAlreadyBound => "reference is already bound"
  | raised payload => payload.text

/-- What the handler of a `recover` is given. -/
def payload : Fault → Value
  | raised payload => payload
  | fault => .string fault.message

end Fault

inductive Breach where
  | outOfRange
  | unknownOpcode (byte : Nat)
  | argumentUnderflow (pc : Nat)
  | bindingOutsideScope (name : String)
  | invisibleCapture (name : String)
  | slotUnderflow
deriving DecidableEq

/-- Some breaches name their cause. -/
def Breach.message? : Breach → Option String
  | outOfRange | slotUnderflow => none
  | unknownOpcode byte => some s!"Unknown opcode {byte}"
  | argumentUnderflow pc => some s!"argument stack underflow at {pc}"
  | bindingOutsideScope name => some s!"binding `{name}` outside of any scope"
  | invisibleCapture name =>
    some s!"captured name `{name}` is not visible from the enclosing body"

/-- How a run can fail. -/
inductive Failure where
  | fault (f : Fault)
  | breach (b : Breach)

def Arity.check (a : Arity) (n : Nat) : Except Fault Unit :=
  if a.accepts n then .ok () else .error (.unmatchedArity a n)

theorem Arity.accepts_of_check {a : Arity} {n : Nat} {u : Unit} (h : a.check n = .ok u) : a.accepts n := by
  unfold Arity.check at h
  split at h
  next accepted => exact accepted
  · cases h

theorem Arity.check_of_accepts {a : Arity} {n : Nat} (h : a.accepts n) : a.check n = .ok () :=
  if_pos h

theorem Arity.check_of_not_accepts {a : Arity} {n : Nat} (h : ¬a.accepts n) :
    a.check n = .error (.unmatchedArity a n) :=
  if_neg h

end StackLisp
