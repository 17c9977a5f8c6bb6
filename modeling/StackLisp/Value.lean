import StackLisp.Arity
import StackLisp.Instruction
import StackLisp.Number

/-!
Values: the data of the language and its callables. Namespaces and references live in a store and
are known by their place in it.
-/

namespace StackLisp

abbrev NamespaceId := Nat

abbrev RefId := Nat

/-- The numeric comparisons. None of them holds between numbers without an order. -/
inductive Comparison where
  | eq
  | lt
  | le
  | gt
  | ge
deriving DecidableEq

def Comparison.holds : Comparison → Option Ordering → Bool
  | _, none => false
  | eq, some o => o.isEq
  | lt, some o => o.isLT
  | le, some o => o.isLE
  | gt, some o => o.isGT
  | ge, some o => o.isGE

/-- How a call of a builtin may be written as operations in place. -/
inductive Intrinsic where
  | unary (op : Opcode)
  | binary (op : Opcode)
  | fold (op : Opcode)
deriving DecidableEq

/-- The operation and how often it stands, for a call with `count` arguments. -/
def Intrinsic.expand? : Intrinsic → Nat → Option (Opcode × Nat)
  | unary op, 1 => some (op, 1)
  | binary op, 2 => some (op, 1)
  | fold op, count + 2 => some (op, count + 1)
  | _, _ => none

def Intrinsic.text : Intrinsic → String
  | unary op => s!"Unary({op.name})"
  | binary op => s!"Binary({op.name})"
  | fold op => s!"Fold({op.name})"

/-- What a builtin does with its arguments. All but the last are those of the language. Of the functions that
a host may add only one is modelled: `note`, which writes its arguments down in the machine's journal and answers
the first of them. -/
inductive Operation where
  | sum
  | difference
  | product
  | quotient
  | remainder
  | same
  | ordered (c : Comparison)
  | not
  | car
  | cdr
  | cons
  | list
  | vector
  | isEmpty
  | nth
  | count
  | apply
  | recover
  | raise
  | note
deriving DecidableEq

structure Builtin where
  name : String
  arity : Arity
  operation : Operation
  intrinsic : Option Intrinsic := none
deriving DecidableEq

def Builtin.text (b : Builtin) : String :=
  let least := match b.arity.atLeast with
    | none => "None"
    | some n => s!"Some({n})"
  let counts := Arity.commas (b.arity.counts.map toString)
  s!"Builtin \x7b name: \"{b.name}\", arity: Arity \x7b fixed: [{counts}], at_least: {least} \x7d \x7d"

/-- The forms that compile by rules of their own. -/
inductive SpecialForm where
  | branch
  | block
  | quote
  | lambda
  | bindings
  | knot
  | define
  | declare
  | hide
deriving DecidableEq

namespace SpecialForm

def table : List (SpecialForm × String) :=
  [(branch, "if"), (block, "do"), (quote, "quote"), (lambda, "lambda"), (bindings, "let"),
   (knot, "letrec"), (define, "def"), (declare, "declare"), (hide, "private")]

def name (form : SpecialForm) : String :=
  (table.lookup form).getD ""

end SpecialForm

/-- A compiled body. `serial` tells procedures apart that were built at different times; `labels`
holds the address of each label that has one. -/
structure Procedure (V : Type) where
  serial : Nat
  name : Option String
  arity : Arity
  code : List Instruction
  constants : List V
  labels : List (Option Nat)
  stackSize : Nat
  localCount : Nat
  labelCount : Nat
  globals : NamespaceId
  inlinable : Bool

namespace Procedure

variable {V : Type}

/-- The slots one call needs. -/
def frameSize (p : Procedure V) : Nat :=
  p.stackSize + p.localCount

end Procedure

inductive Value where
  | null
  | bool (b : Bool)
  | integer (n : Int64)
  | float (x : Float)
  | string (text : String)
  | symbol (name : String)
  | pair (car cdr : Value)
  | vector (items : List Value)
  | procedure (p : Procedure Value)
  | closure (p : Procedure Value) (captured : List Value)
  | builtin (b : Builtin)
  | special (form : SpecialForm)
  | ref (id : RefId)

instance : Inhabited Value := ⟨.null⟩

/-- A procedure with the values its free names had. -/
structure Closure where
  procedure : Procedure Value
  captured : List Value

def Closure.value (c : Closure) : Value :=
  .closure c.procedure c.captured

def Number.value : Number → Value
  | integer n => .integer n
  | float x => .float x

inductive Kind where
  | null
  | boolean
  | integer
  | float
  | string
  | symbol
  | pair
  | vector
  | procedure
  | closure
  | builtin
  | special
  | reference
deriving DecidableEq

def Kind.name : Kind → String
  | null => "null"
  | boolean => "boolean"
  | integer => "integer"
  | float => "float"
  | string => "string"
  | symbol => "symbol"
  | pair => "pair"
  | vector => "vector"
  | procedure => "procedure"
  | closure => "closure"
  | builtin => "builtin"
  | special => "special form"
  | reference => "reference"

namespace Value

def kind : Value → Kind
  | null => .null
  | bool _ => .boolean
  | integer _ => .integer
  | float _ => .float
  | string _ => .string
  | symbol _ => .symbol
  | pair _ _ => .pair
  | vector _ => .vector
  | procedure _ => .procedure
  | closure _ _ => .closure
  | builtin _ => .builtin
  | special _ => .special
  | ref _ => .reference

/-- Everything holds except `false` and the empty list. -/
def holds : Value → Bool
  | null => false
  | bool b => b
  | _ => true

/-- The items as a list that ends in `tail`. -/
def ofListOnto (items : List Value) (tail : Value) : Value :=
  items.foldr pair tail

def ofList (items : List Value) : Value :=
  ofListOnto items null

/-- The items along the spine of pairs, and what the spine ends in. -/
def spine : Value → List Value × Value
  | pair car cdr => (car :: cdr.spine.1, cdr.spine.2)
  | v => ([], v)

theorem ofListOnto_spine (v : Value) : ofListOnto v.spine.1 v.spine.2 = v := by
  induction v using spine.induct with
  | case1 car cdr ih => simpa [spine, ofListOnto] using ih
  | case2 v h => cases v <;> simp_all [spine, ofListOnto]

theorem spine_ofList (items : List Value) : (ofList items).spine = (items, null) := by
  induction items with
  | nil => rfl
  | cons v vs ih =>
    have step : ofList (v :: vs) = pair v (ofList vs) := rfl
    rw [step, spine, ih]

end Value

end StackLisp
