import StackLisp.Primitive

/-!
What a builtin does with arguments whose count it accepts. Most answer or fault at once; `apply` and
`recover` ask for another call.

A host's own function could do more than `note`, which stands for them all: fail, call back into the machine,
or change a namespace while it runs. What holds of calls of builtins here says nothing about such functions.
-/

namespace StackLisp

inductive Reply where
  | answer (v : Value)
  | fault (f : Fault)
  | call (callee : Value) (args : List Value)
  /-- Call the thunk, and the handler if that faults. -/
  | guarded (thunk handler : Value)
  /-- A line for the journal, and an answer. -/
  | noted (line : String) (v : Value)

def Reply.ofResult : Except Fault Value → Reply
  | .ok v => answer v
  | .error f => fault f

namespace Operation

def numbers (args : List Value) : Except Fault (List Number) :=
  args.mapM Value.number?

def missingArgument : Fault :=
  .unmatchedArity (.least 1) 0

def total (f : Number → Number → Number) (start : Number) (args : List Value) :
    Except Fault Value := do
  .ok ((← numbers args).foldl f start).value

def differenceOf (args : List Value) : Except Fault Value := do
  match ← numbers args with
  | [] => .error missingArgument
  | [n] => .ok n.neg.value
  | n :: ns => .ok (ns.foldl Number.sub n).value

def divide (a b : Number) : Except Fault Number :=
  match a.div? b with
  | some n => .ok n
  | none => .error .divideByZero

def quotientOf (args : List Value) : Except Fault Value := do
  match ← numbers args with
  | [] => .error missingArgument
  | [n] => .ok (← divide (.integer 1) n).value
  | n :: ns => .ok (← ns.foldlM divide n).value

/-- Whether a relation holds between each argument and the next. Those after a failure are not looked
at. -/
def chain (holds : Value → Value → Except Fault Bool) : List Value → Except Fault Bool
  | a :: b :: rest => do if ← holds a b then chain holds (b :: rest) else .ok false
  | _ => .ok true

def nth? (sequence index : Value) : Except Fault Value := do
  match index with
  | .integer i =>
    let items ← sequence.items?
    match if i < 0 then none else items[i.toInt.toNat]? with
    | some v => .ok v
    | none => .error (.indexOutOfRange i items.length)
  | v => .error (.mismatch .integer v)

/-- The last argument spread behind those before it. -/
def applyTo (args : List Value) : Reply :=
  match (args.getLastD .null).items?, args.dropLast with
  | .error f, _ => .fault f
  | .ok spread, callee :: firsts => .call callee (firsts ++ spread)
  | .ok _, [] => .fault missingArgument

end Operation

def Builtin.note (b : Builtin) (args : List Value) : Reply :=
  let words := Arity.commas (args.map Value.text)
  .noted s!"{b.name}({words})" (args.head?.getD .null)

def Builtin.reply (b : Builtin) (args : List Value) : Reply :=
  match b.operation, args with
  | .sum, args => .ofResult (Operation.total .add (.integer 0) args)
  | .product, args => .ofResult (Operation.total .mul (.integer 1) args)
  | .difference, args => .ofResult (Operation.differenceOf args)
  | .quotient, args => .ofResult (Operation.quotientOf args)
  | .remainder, [x, y] => .ofResult (arithmetic Number.rem? x y)
  | .same, args => .ofResult ((Operation.chain (fun x y => .ok (x == y)) args).map .bool)
  | .ordered c, args => .ofResult ((Operation.chain (compareNumbers c) args).map .bool)
  | .not, [v] => .answer (.bool !v.holds)
  | .car, [v] => .ofResult v.car?
  | .cdr, [v] => .ofResult v.cdr?
  | .cons, [item, v] => .ofResult (v.prepend? item)
  | .list, args => .answer (.ofList args)
  | .vector, args => .answer (.vector args)
  | .isEmpty, [v] => .ofResult (v.isEmpty?.map .bool)
  | .nth, [v, index] => .ofResult (Operation.nth? v index)
  | .count, [v] => .ofResult (v.items?.map fun items => .integer (Int64.ofNat items.length))
  | .apply, args => Operation.applyTo args
  | .recover, [thunk, handler] => .guarded thunk handler
  | .raise, [v] => .fault (.raised v)
  | .note, args => b.note args
  | _, args => .fault (.unmatchedArity b.arity args.length)

end StackLisp
