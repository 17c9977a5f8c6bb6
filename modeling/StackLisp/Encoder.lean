import StackLisp.Chunk.Inline

/-!
The encoder: code under construction for one body, with the lexical scopes that are open in it. A body
sees the bodies around it; a name found in one of those is captured, and the enclosing body loads the
captured names once the inner body is finished.
-/

namespace StackLisp

/-- How a lexical name holds its value: as it is, behind a reference, or as the rest of the arguments. -/
inductive CellKind where
  | value
  | reference
  | rest
deriving DecidableEq

def CellKind.name : CellKind → String
  | value => "Value"
  | reference => "Reference"
  | rest => "Rest"

/-- Where a lexical name lives in a call. -/
inductive ScopeKind where
  | args
  | locals
  | captured
  | current
deriving DecidableEq

def ScopeKind.name : ScopeKind → String
  | args => "Args"
  | locals => "Locals"
  | captured => "Captured"
  | current => "Current"

structure Cell where
  kind : CellKind
  scope : ScopeKind
  index : Nat
deriving DecidableEq

/-- The kind an inner body sees once it has captured the cell. -/
def Cell.capturedKind (c : Cell) : CellKind :=
  match c.kind with
  | .reference => .reference
  | .value | .rest => .value

structure Scope where
  kind : ScopeKind
  cells : List (String × Cell) := []

/-- One body. Scopes stand innermost first, captured names in the order of their capture. -/
structure Body where
  name : Option String := none
  code : List Instruction := []
  constants : List Value := []
  scopes : List Scope := []
  captured : List (String × CellKind) := []
  nextLocal : Nat := 0
  localCount : Nat := 0
  labelCount : Nat := 0

namespace Body

/-- The cell of a name bound in the body itself: in the innermost scope that has it, or captured before,
or the body's own name. -/
def lexical? (b : Body) (name : String) : Option Cell :=
  match b.scopes.findSome? fun s => s.cells.lookup name with
  | some cell => some cell
  | none =>
    match b.captured.findIdx? (·.1 = name), b.captured.lookup name with
    | some i, some kind => some ⟨kind, .captured, i⟩
    | _, _ => if b.name = some name then some ⟨.value, .current, 0⟩ else none

/-- The kind of a name as seen from inside the first of the bodies, innermost first. -/
def visible? : List Body → String → Option CellKind
  | [], _ => none
  | b :: around, name =>
    match b.lexical? name with
    | some cell => some cell.capturedKind
    | none => visible? around name

end Body

structure Encoder where
  globals : NamespaceId
  options : CompileOptions
  body : Body := {}
  /-- The bodies around this one, innermost first. -/
  around : List Body := []

/-- An encoder for a body inside this one. -/
def Encoder.child (e : Encoder) (name : Option String) : Encoder :=
  { e with body := { name }, around := e.body :: e.around }

/-- An encoder at work on a store. -/
structure Workshop where
  encoder : Encoder
  store : Store

/-- Steps of encoding. What a step has emitted stays when it is rejected. -/
abbrev Encode := ExceptT Rejection (StateM Workshop)

namespace Encode

def reject {α : Type} (e : CompileError) : Encode α :=
  throw (.error e)

def breach {α : Type} (b : Breach) : Encode α :=
  throw (.breach b)

def lift {α : Type} (r : Except Rejection α) : Encode α :=
  ExceptT.mk (pure r)

def liftError {α : Type} (r : Except CompileError α) : Encode α :=
  lift (r.mapError .error)

def body : Encode Body := do
  return (← get).encoder.body

def modifyBody (f : Body → Body) : Encode Unit :=
  modify fun w => { w with encoder := { w.encoder with body := f w.encoder.body } }

/-- Builds a procedure from the store of the workshop. -/
def build {α : Type} (act : Build α) : Encode α := fun w =>
  let (r, store) := act.run w.store
  (r, { w with store })

def append (i : Instruction) : Encode Unit :=
  modifyBody fun b => { b with code := b.code ++ [i] }

def emit (op : Opcode) : Encode Unit :=
  append op.bare

def emitWith (op : Opcode) (operand : Nat) : Encode Unit := do
  append (← lift (op.withOperand operand))

def addConstant (v : Value) : Encode Nat := do
  let (i, constants) := poolConstant (← body).constants v
  modifyBody fun b => { b with constants }
  return i

def emitConst (v : Value) : Encode Unit := do
  emitWith .const (← addConstant v)

def newLabel : Encode Nat := do
  let label := (← body).labelCount
  modifyBody fun b => { b with labelCount := label + 1 }
  return label

def anchor (label : Nat) : Encode Unit :=
  emitWith .label label

def pushScope (kind : ScopeKind) : Encode Unit :=
  modifyBody fun b => { b with scopes := { kind } :: b.scopes }

/-- Leaves the innermost scope; the slots of its locals are free again. -/
def popScope : Encode Unit := do
  match (← body).scopes with
  | [] => return
  | scope :: scopes =>
    modifyBody fun b => { b with scopes }
    if scope.kind = .locals then
      let next := (← body).nextLocal
      if next < scope.cells.length then breach .slotUnderflow
      else modifyBody fun b => { b with nextLocal := next - scope.cells.length }

/-- Binds a name in the innermost scope. -/
def declare (name : String) (cell : Cell) : Encode Unit := do
  match (← body).scopes with
  | [] => breach (.bindingOutsideScope name)
  | scope :: scopes =>
    if (scope.cells.lookup name).isSome then reject (.duplicateBinding name)
    else
      let scope := { scope with cells := (name, cell) :: scope.cells }
      modifyBody fun b => { b with scopes := scope :: scopes }

/-- Binds a parameter. -/
def bindArg (name : String) (kind : CellKind) (index : Nat) : Encode Cell := do
  let cell : Cell := ⟨kind, .args, index⟩
  declare name cell
  return cell

/-- Binds a name to the next free local slot. -/
def bindLocal (name : String) (kind : CellKind) : Encode Cell := do
  let slot := (← body).nextLocal
  let cell : Cell := ⟨kind, .locals, slot⟩
  declare name cell
  modifyBody fun b =>
    { b with nextLocal := slot + 1, localCount := max b.localCount (slot + 1) }
  return cell

/-- Whether the name is bound here or in a body around. -/
def isLexical (name : String) : Encode Bool := do
  let e := (← get).encoder
  return (Body.visible? (e.body :: e.around) name).isSome

/-- The cell of a name, captured now if only a body around binds it; `none` for a global name. -/
def resolve (name : String) : Encode (Option Cell) := do
  let e := (← get).encoder
  match e.body.lexical? name with
  | some cell => return some cell
  | none =>
    match Body.visible? e.around name with
    | none => return none
    | some kind =>
      modifyBody fun b => { b with captured := b.captured ++ [(name, kind)] }
      return some ⟨kind, .captured, e.body.captured.length⟩

/-- Pushes what the cell holds, which may be a reference. -/
def loadRaw (cell : Cell) : Encode Unit :=
  match cell.scope, cell.kind with
  | .args, .rest => emitWith .restArg cell.index
  | .args, _ => emitWith .arg cell.index
  | .locals, _ => emitWith .load cell.index
  | .captured, _ => emitWith .capture cell.index
  | .current, _ => emit .current

/-- Pushes the value of the cell. -/
def load (cell : Cell) : Encode Unit := do
  loadRaw cell
  if cell.kind = .reference then emit .deref

/-- What a global name is bound to at this time. -/
def global? (name : String) : Encode (Option Value) := do
  let w ← get
  return w.store.namespaces.resolve? w.encoder.globals name

/-- The body under construction as a chunk. -/
def finish : Encode Chunk := do
  let e := (← get).encoder
  let b := e.body
  return ⟨b.code, b.constants, b.localCount, b.labelCount, e.globals, b.name⟩

/-- Encodes an inner body and comes back to this one, which stays as it is. -/
def inner {α : Type} (name : Option String) (act : Encode α) : Encode α := fun w =>
  let (r, v) := act.run { w with encoder := w.encoder.child name }
  (r, { w with store := v.store })

end Encode

end StackLisp
