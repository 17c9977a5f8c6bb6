import StackLisp.Builtin.Core
import StackLisp.Clause.Parse
import StackLisp.Encoder

/-!
Forms without rules of their own: literals, names, blocks, calls and vectors. The functions that meet
forms within forms take the compiler of those as their first argument.
-/

namespace StackLisp

namespace Value

mutual

/-- Whether a form is its own value. -/
def isConstant : Value → Bool
  | symbol _ => false
  | pair _ _ => false
  | vector items => areConstant items
  | _ => true
termination_by structural v => v

def areConstant : List Value → Bool
  | [] => true
  | v :: vs => isConstant v && areConstant vs
termination_by structural vs => vs

end

end Value

namespace Compile

open Encode

abbrev FormCompiler := Value → Encode Unit

/-- The shortest code that pushes a value. -/
def literal (v : Value) : Encode Unit :=
  match v with
  | .null => emit .nullLit
  | .bool true => emit .trueLit
  | .bool false => emit .falseLit
  | .integer n =>
    let size := n.toInt.natAbs
    if size ≤ maxOperand then emitWith (if n < 0 then .negInt else .posInt) size
    else emitConst v
  | _ => emitConst v

def resolveLater (name : String) : Encode Unit := do
  emitConst (.symbol name)
  emit .resolve

/-- A global bound by now is a constant; others are looked up when reached. -/
def symbol (name : String) : Encode Unit := do
  match ← resolve name with
  | some cell => load cell
  | none =>
    match ← global? name with
    | some v => emitConst v
    | none => resolveLater name

/-- Keeps the value of the last form; that of no form is the empty list. -/
def block (form : FormCompiler) : List Value → Encode Unit
  | [] => emit .nullLit
  | [v] => form v
  | v :: vs => do
    form v
    emit .pop
    block form vs

/-- The last argument comes first, so that the first ends on top. -/
def arguments (form : FormCompiler) (args : List Value) : Encode Unit :=
  args.reverse.forM form

def emitCall : Nat → Encode Unit
  | 0 => emit .call0
  | 1 => emit .call1
  | n => emitWith .call n

/-- A call of a value known by now, under the name it has in the form. -/
def knownCall (form : FormCompiler) (name : String) (target : Value) (args : List Value) :
    Encode Unit := do
  if let .ok arity := target.callable? then
    if !arity.accepts args.length then reject (.arityMismatch name arity args.length)
  arguments form args
  emitConst target
  emitCall args.length

def expansion? (b : Builtin) (count : Nat) : Option (Opcode × Nat) :=
  b.intrinsic.bind (·.expand? count)

/-- A call whose head is a global bound by now. -/
def staticCall (form : FormCompiler) (special : SpecialForm → List Value → Encode Unit)
    (name : String) (target : Value) (args : List Value) : Encode Unit :=
  match target with
  | .special s => special s args
  | .builtin b =>
    match expansion? b args.length with
    | some (op, times) => do
      arguments form args
      (List.replicate times op).forM emit
    | none => knownCall form name target args
  | _ => knownCall form name target args

def call (form : FormCompiler) (special : SpecialForm → List Value → Encode Unit) (v : Value) :
    Encode Unit := do
  match ← liftError (formItems "call" v) with
  | [] => reject (.badForm "call" .emptyCall)
  | head :: args =>
    let dynamic (push : Encode Unit) : Encode Unit := do
      arguments form args
      push
      emitCall args.length
    match head with
    | .symbol name =>
      if ← isLexical name then dynamic (form head)
      else match ← global? name with
        | some target => staticCall form special name target args
        | none => dynamic (resolveLater name)
    | _ => dynamic (form head)

/-- A vector with parts to evaluate. -/
def vector (form : FormCompiler) (items : List Value) : Encode Unit := do
  arguments form items
  emitConst (.builtin .vector)
  emitCall items.length

end Compile

end StackLisp
