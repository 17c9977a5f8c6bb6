import StackLisp.Clause
import StackLisp.Fault

/-!
Why a form or a chunk of code is rejected. A rejection can also be a breach.
-/

namespace StackLisp

/-- What is wrong with the shape of a form. -/
inductive FormFlaw where
  | notAList (found : Value)
  | notASymbol (found : Value)
  | emptyCall
  | noBindings
  | oddBindings
  | noName
  | notNameAndValue
  | notOneName
  | notOneForm
  | notBranches
  | noParameters
  | emptyClause
  | restName

def FormFlaw.message : FormFlaw → String
  | notAList found => s!"expected a list, got `{found.text}`"
  | notASymbol found => s!"expected a symbol, got `{found.text}`"
  | emptyCall => "empty call"
  | noBindings => "missing binding list"
  | oddBindings => "bindings must come in name/value pairs"
  | noName => "missing name"
  | notNameAndValue => "expects a name and a value"
  | notOneName => "expects exactly one name"
  | notOneForm => "expects exactly one form"
  | notBranches => "expects a predicate, a consequent and an optional alternative"
  | noParameters => "missing parameter list"
  | emptyClause => "empty clause"
  | restName => "`&` must be followed by exactly one name"

inductive CompileError where
  | oversized (e : Oversized)
  | unanchoredLabel (label : Nat)
  | duplicateLabel (label : Nat)
  | stackImbalance (pc expected found : Nat)
  | stackUnderflow (pc : Nat)
  | missingReturn
  | duplicateBinding (name : String)
  | unreachableClause (c : Clause)
  | arityMismatch (name : String) (expected : Arity) (got : Nat)
  | badForm (form : String) (flaw : FormFlaw)

def CompileError.message : CompileError → String
  | oversized e => e.message
  | unanchoredLabel label => s!"label {label} is referenced but never anchored"
  | duplicateLabel label => s!"label {label} is anchored more than once"
  | stackImbalance pc expected found =>
    s!"stack depth mismatch at instruction {pc}: {expected} vs {found}"
  | stackUnderflow pc => s!"stack underflow at instruction {pc}"
  | missingReturn => "code falls off the end without returning"
  | duplicateBinding name => s!"`{name}` is already bound in this scope"
  | unreachableClause c => s!"parameter case `{c.text}` can never be reached"
  | arityMismatch name expected got =>
    s!"`{name}` expects {expected.text} arguments, got {got}"
  | badForm form flaw => s!"malformed `{form}`: {flaw.message}"

inductive Rejection where
  | error (e : CompileError)
  | breach (b : Breach)

/-- The instruction, or the rejection of its operand. -/
def Opcode.withOperand (op : Opcode) (operand : Nat) : Except Rejection Instruction :=
  (op.with operand).mapError fun e => .error (.oversized e)

end StackLisp
