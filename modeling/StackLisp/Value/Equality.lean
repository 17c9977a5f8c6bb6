import StackLisp.Value

/-!
Equality of values looks at structure: doubles by their bits, procedures by arity, code, constants and
namespace, builtins and special forms by name, references by their place. It takes no notice of
names of procedures. All doubles that are not a number have the same bits here.
-/

namespace StackLisp

namespace Value

mutual

def same : Value → Value → Bool
  | null, null => true
  | bool a, bool b => a == b
  | integer a, integer b => a == b
  | float a, float b => a.toBits == b.toBits
  | string a, string b => a == b
  | symbol a, symbol b => a == b
  | pair a b, pair c d => same a c && same b d
  | vector as, vector bs => sameEach as bs
  | procedure p, procedure q => sameProcedure p q
  | closure p as, closure q bs => sameProcedure p q && sameEach as bs
  | builtin a, builtin b => a.name == b.name
  | special a, special b => a == b
  | ref a, ref b => a == b
  | _, _ => false
termination_by structural v => v

def sameEach : List Value → List Value → Bool
  | [], [] => true
  | a :: as, b :: bs => same a b && sameEach as bs
  | _, _ => false
termination_by structural vs => vs

def sameProcedure : Procedure Value → Procedure Value → Bool
  | ⟨_, _, arity, code, constants, _, _, _, _, globals, _⟩, q =>
    arity == q.arity && code == q.code && sameEach constants q.constants && globals == q.globals
termination_by structural p => p

end

instance : BEq Value := ⟨same⟩

end Value

def Closure.same (a b : Closure) : Bool :=
  a.value == b.value

/-- The place of a constant: that of the first equal one, or a new last place. -/
def poolConstant (constants : List Value) (v : Value) : Nat × List Value :=
  match constants.findIdx? (· == v) with
  | some i => (i, constants)
  | none => (constants.length, constants ++ [v])

end StackLisp
