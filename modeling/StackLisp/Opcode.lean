/-!
The operations of the machine, their static effects and the numbers that stand for them.
-/

namespace StackLisp

inductive Opcode where
  | label | jump | condJump
  | ret | retNull | retTrue | retFalse | panic
  | nullLit | trueLit | falseLit | posInt | negInt | const
  | arg | argLen | restArg
  | load | store
  | newRef | bindRef | deref
  | capture | current | makeClosure
  | pop
  | call0 | call1 | call | tailCall | pushArgs | popArgs
  | resolve | declare | hide | bind
  | add | sub | mul | div | mod | neg
  | numEq | numLt | numLte | numGt | numGte
  | eq | not
  | car | cdr | cons | empty
  | noOp
deriving DecidableEq

/-- What an operand counts or points into. -/
inductive OperandKind where
  | nothing
  | stack
  | locals
  | labels
  | constants
  | arguments
  | captured
  | immediate
deriving DecidableEq

/-- How an operation moves the stack and the control. `counted` adds the operand to `pops`; `exits` says
that control does not go on to the next instruction; `anchors` that a label operand is set, not
followed. -/
structure Effect where
  pops : Nat
  pushes : Nat
  operand : OperandKind := .nothing
  counted : Bool := false
  exits : Bool := false
  anchors : Bool := false
deriving DecidableEq

def OperandKind.name : OperandKind → String
  | .nothing => "Nothing"
  | .stack => "Stack"
  | .locals => "Locals"
  | .labels => "Labels"
  | .constants => "Constants"
  | .arguments => "Arguments"
  | .captured => "Captured"
  | .immediate => "Immediate"

namespace Opcode

/-- Every operation with its name, in the order of its number. -/
def table : List (Opcode × String) :=
  [(label, "Label"), (jump, "Jump"), (condJump, "CondJump"), (ret, "Return"), (retNull, "RetNull"),
   (retTrue, "RetTrue"), (retFalse, "RetFalse"), (panic, "Panic"), (nullLit, "Nil"), (trueLit, "True"),
   (falseLit, "False"), (posInt, "PosInt"), (negInt, "NegInt"), (const, "Const"), (arg, "Arg"),
   (argLen, "ArgLen"), (restArg, "RestArg"), (load, "Load"), (store, "Store"), (newRef, "NewRef"),
   (bindRef, "BindRef"), (deref, "Deref"), (capture, "Capture"), (current, "Current"),
   (makeClosure, "MakeClosure"), (pop, "Pop"), (call0, "Call0"), (call1, "Call1"), (call, "Call"),
   (tailCall, "TailCall"), (pushArgs, "PushArgs"), (popArgs, "PopArgs"), (resolve, "Resolve"),
   (declare, "Declare"), (hide, "Private"), (bind, "Bind"), (add, "Add"), (sub, "Sub"),
   (mul, "Mul"), (div, "Div"), (mod, "Mod"), (neg, "Neg"), (numEq, "NumEq"), (numLt, "NumLt"),
   (numLte, "NumLte"), (numGt, "NumGt"), (numGte, "NumGte"), (eq, "Eq"), (not, "Not"),
   (car, "Car"), (cdr, "Cdr"), (cons, "Cons"), (empty, "Empty"), (noOp, "NoOp")]

def name (op : Opcode) : String :=
  (table.lookup op).getD ""

def byte (op : Opcode) : Nat :=
  (table.map Prod.fst).idxOf op

def ofByte? (n : Nat) : Option Opcode :=
  table[n]?.map Prod.fst

def ofName? (name : String) : Option Opcode :=
  (table.find? fun entry => entry.2 = name).map Prod.fst

theorem ofByte?_byte (op : Opcode) : ofByte? op.byte = some op := by
  cases op <;> rfl

theorem ofName?_name (op : Opcode) : ofName? op.name = some op := by
  cases op <;> rfl

def effect : Opcode → Effect
  | label => { pops := 0, pushes := 0, operand := .labels, anchors := true }
  | jump => { pops := 0, pushes := 0, operand := .labels, exits := true }
  | condJump => { pops := 1, pushes := 0, operand := .labels }
  | ret | panic => { pops := 1, pushes := 0, exits := true }
  | retNull | retTrue | retFalse => { pops := 0, pushes := 0, exits := true }
  | tailCall =>
    { pops := 1, pushes := 0, operand := .stack, counted := true, exits := true }
  | nullLit | trueLit | falseLit | argLen | newRef | current => { pops := 0, pushes := 1 }
  | posInt | negInt => { pops := 0, pushes := 1, operand := .immediate }
  | const => { pops := 0, pushes := 1, operand := .constants }
  | arg | restArg => { pops := 0, pushes := 1, operand := .arguments }
  | load => { pops := 0, pushes := 1, operand := .locals }
  | store => { pops := 1, pushes := 0, operand := .locals }
  | capture => { pops := 0, pushes := 1, operand := .captured }
  | makeClosure | call => { pops := 1, pushes := 1, operand := .stack, counted := true }
  | pushArgs => { pops := 0, pushes := 0, operand := .stack, counted := true }
  | popArgs | noOp => { pops := 0, pushes := 0 }
  | pop | declare | hide => { pops := 1, pushes := 0 }
  | bindRef | bind => { pops := 2, pushes := 0 }
  | deref | call0 | resolve | neg | not | car | cdr | empty => { pops := 1, pushes := 1 }
  | call1 | add | sub | mul | div | mod | numEq | numLt | numLte | numGt | numGte | eq | cons =>
    { pops := 2, pushes := 1 }

def hasOperand (op : Opcode) : Bool :=
  op.effect.operand ≠ .nothing

/-- Whether the operand is a label that control may go to. -/
def jumps (op : Opcode) : Bool :=
  op.effect.operand = .labels && !op.effect.anchors

end Opcode

end StackLisp
