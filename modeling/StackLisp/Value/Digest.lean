import StackLisp.Value

/-!
What a hash of a value is computed from. The items of a spine follow one another without a mark of
their own, so some unequal values share a digest; names and namespaces of procedures are left out. All
doubles that are not a number share one, having the same bits here.
-/

namespace StackLisp

inductive Token where
  | kind (k : Kind)
  | truth (b : Bool)
  | whole (n : Int64)
  | bits (n : UInt64)
  | text (s : String)
  | size (n : Nat)
  | arity (a : Arity)
  | code (c : List Instruction)
  | place (id : Nat)
deriving DecidableEq

namespace Value

mutual

def digestAt (inTail : Bool) : Value → List Token
  | null => [.kind .null]
  | bool b => [.kind .boolean, .truth b]
  | integer n => [.kind .integer, .whole n]
  | float x => [.kind .float, .bits x.toBits]
  | string s => [.kind .string, .text s]
  | symbol s => [.kind .symbol, .text s]
  | pair car cdr =>
    (if inTail then [] else [.kind .pair]) ++ (digestAt false car ++ digestAt true cdr)
  | vector items => .kind .vector :: .size items.length :: digestEach items
  | procedure p => .kind .procedure :: digestProcedure p
  | closure p captured =>
    .kind .closure :: (digestProcedure p ++ .size captured.length :: digestEach captured)
  | builtin b => [.kind .builtin, .text b.name]
  | special form => [.kind .special, .text form.name]
  | ref id => [.kind .reference, .place id]
termination_by structural v => v

def digestEach : List Value → List Token
  | [] => []
  | v :: vs => digestAt false v ++ digestEach vs
termination_by structural vs => vs

def digestProcedure : Procedure Value → List Token
  | ⟨_, _, arity, code, constants, _, _, _, _, _, _⟩ =>
    .arity arity :: .code code :: .size constants.length :: digestEach constants
termination_by structural p => p

end

def digest (v : Value) : List Token :=
  digestAt false v

end Value

end StackLisp
