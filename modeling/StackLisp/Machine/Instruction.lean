import StackLisp.Machine.Activation
import StackLisp.Primitive
import StackLisp.Store

/-!
The meaning of each instruction: what it does to the activation and to the store, and how control goes
on from it. The code was checked before it became a procedure, so depths and labels are trusted.
-/

namespace StackLisp

/-- How control goes on. `call` comes back to the activation with a value; `leave` gives its own value
for that of the activation; `switch` puts another closure in its place. -/
inductive Move where
  | go
  | answer (v : Value)
  | call (callee : Value) (args : List Value)
  | leave (callee : Value) (args : List Value)
  | switch (c : Closure) (args : List Value)

namespace Act

/-- A step that leaves the store alone and goes on. -/
def quietly (store : Store) (act : Act Unit) : Act (Move × Store) := do
  act
  return (.go, store)

def pushResult (store : Store) (act : Act Value) : Act (Move × Store) :=
  quietly store do push (← act)

def captured (i : Nat) : Act Value := do
  require ((← get).closure.captured[i]?)

def makeClosure (count : Nat) : Act Value := do
  let template ← pop
  let captured ← popMany count
  match template with
  | .procedure p => return .closure p captured
  | v => fault (.mismatch .procedure v)

/-- A tail call of a closure starts again in place if it has the same procedure. -/
def tailCall (count : Nat) : Act Move := do
  let callee ← pop
  let args ← popMany count
  match callee with
  | .closure p captured =>
    lift (p.arity.check args.length)
    if p.serial = (← get).procedure.serial then
      restart ⟨p, captured⟩ args
      return .go
    else return .switch ⟨p, captured⟩ args
  | v => return .leave v args

def pushArgs (count : Nat) : Act Unit := do
  let staged ← popMany count
  modify fun a => { a with saved := a.args :: a.saved, args := staged }

def popArgs : Act Unit := do
  let a ← get
  match a.saved with
  | [] => breach (.argumentUnderflow (a.pc - 1))
  | args :: saved => set { a with args, saved }

def symbolOnTop : Act String := do
  lift (← pop).symbol?

def call (count : Nat) : Act Move := do
  let callee ← pop
  return .call callee (← popMany count)

/-- An instruction of code that sees the globals of a namespace. -/
def performIn (globals : NamespaceId) (store : Store) (i : Instruction) : Act (Move × Store) := do
  match i.op with
  | .label | .noOp => return (.go, store)
  | .jump => quietly store (jump i.operand)
  | .condJump => quietly store do if (← pop).holds then jump i.operand
  | .ret => return (.answer (← pop), store)
  | .retNull => return (.answer .null, store)
  | .retTrue => return (.answer (.bool true), store)
  | .retFalse => return (.answer (.bool false), store)
  | .panic => fault (.raised (← pop))
  | .nullLit => pushResult store (pure .null)
  | .trueLit => pushResult store (pure (.bool true))
  | .falseLit => pushResult store (pure (.bool false))
  | .posInt => pushResult store (pure (.integer (Int64.ofNat i.operand)))
  | .negInt => pushResult store (pure (.integer (-Int64.ofNat i.operand)))
  | .const => pushResult store do require ((← get).procedure.constants[i.operand]?)
  | .arg => pushResult store do require ((← get).args[i.operand]?)
  | .argLen => pushResult store do return .integer (Int64.ofNat (← get).args.length)
  | .restArg => pushResult store do return .ofList ((← get).args.drop i.operand)
  | .load => pushResult store (loadLocal i.operand)
  | .store => quietly store do storeLocal i.operand (← pop)
  | .newRef =>
    let (id, store) := store.newRef
    pushResult store (pure (.ref id))
  | .bindRef =>
    let cell ← pop
    let v ← pop
    return (.go, ← lift (store.fillRef (← lift cell.ref?) v))
  | .deref => pushResult store do lift (store.deref (← lift (← pop).ref?))
  | .capture => pushResult store (captured i.operand)
  | .current => pushResult store do return (← get).closure.value
  | .makeClosure => pushResult store (makeClosure i.operand)
  | .pop => quietly store do let _ ← pop
  | .call0 => return (← call 0, store)
  | .call1 => return (← call 1, store)
  | .call => return (← call i.operand, store)
  | .tailCall => return (← tailCall i.operand, store)
  | .pushArgs => quietly store (pushArgs i.operand)
  | .popArgs => quietly store popArgs
  | .resolve => pushResult store do lift (store.resolve globals (← symbolOnTop))
  | .declare => return (.go, store.declare globals (← symbolOnTop))
  | .hide => return (.go, store.hide globals (← symbolOnTop))
  | .bind =>
    let name ← pop
    let v ← pop
    return (.go, ← lift (store.bind globals (← lift name.symbol?) v))
  | op =>
    match op.binary?, op.unary? with
    | some f, _ => pushResult store do
        let left ← pop
        let right ← pop
        lift (f left right)
    | none, some f => pushResult store do lift (f (← pop))
    | none, none => return (.go, store)

/-- The instruction at an address that the activation has just gone past. -/
def perform (store : Store) (i : Instruction) : Act (Move × Store) := do
  performIn (← get).procedure.globals store i

end Act

end StackLisp
