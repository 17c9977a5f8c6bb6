import StackLisp.Fault
import StackLisp.Frame

/-!
One call of a closure. Its frame holds the operand stack, which grows down from the stack size of the
procedure, and above it the local slots.
-/

namespace StackLisp

structure Activation where
  closure : Closure
  args : List Value
  /-- Argument lists put aside by inlined bodies, the last first. -/
  saved : List (List Value) := []
  frame : Frame
  sp : Nat
  pc : Nat := 0

/-- Steps of one activation. What a step has done stays when it fails. -/
abbrev Act := ExceptT Failure (StateM Activation)

namespace Activation

def procedure (a : Activation) : Procedure Value :=
  a.closure.procedure

/-- The first local slot, where the empty stack begins. -/
def base (a : Activation) : Nat :=
  a.procedure.stackSize

def depth (a : Activation) : Nat :=
  a.base - a.sp

def enter (c : Closure) (args : List Value) (frame : Frame) : Activation :=
  { closure := c, args, frame, sp := c.procedure.stackSize }

end Activation

namespace Act

def fault {α : Type} (f : Fault) : Act α :=
  throw (.fault f)

def breach {α : Type} (b : Breach) : Act α :=
  throw (.breach b)

def lift {α : Type} (r : Except Fault α) : Act α :=
  ExceptT.mk (pure (r.mapError .fault))

/-- The value, or a breach where there is none. -/
def require {α : Type} : Option α → Act α
  | some a => pure a
  | none => breach .outOfRange

def writeSlot (i : Nat) (v : Value) : Act Unit := fun a =>
  let { closure, args, saved, frame, sp, pc } := a
  if i < frame.length then
    (.ok (), { closure, args, saved, frame := ⟨frame.slots.setIfInBounds i v, frame.span⟩, sp, pc })
  else (.error (.breach .outOfRange), { closure, args, saved, frame, sp, pc })

def push (v : Value) : Act Unit := do
  match (← get).sp with
  | 0 => breach .outOfRange
  | sp + 1 =>
    writeSlot sp v
    modify fun a => { a with sp }

/-- Takes the top of the stack and leaves null in its slot. -/
def pop : Act Value := do
  let sp := (← get).sp
  let v ← require ((← get).frame.read? sp)
  writeSlot sp .null
  modify fun a => { a with sp := sp + 1 }
  return v

/-- The top values, the topmost first. -/
def popMany : Nat → Act (List Value)
  | 0 => return []
  | n + 1 => do
    let v ← pop
    return v :: (← popMany n)

def loadLocal (slot : Nat) : Act Value := do
  let a ← get
  require (a.frame.read? (a.base + slot))

def storeLocal (slot : Nat) (v : Value) : Act Unit := do
  writeSlot ((← get).base + slot) v

/-- Goes to the anchor of a label. -/
def jump (label : Nat) : Act Unit := do
  let target ← require ((← get).procedure.labels[label]?.bind id)
  modify fun a => { a with pc := target }

/-- Empties the operand stack and starts the code again for another closure over the same procedure. -/
def restart (c : Closure) (args : List Value) : Act Unit := do
  let _ ← popMany (← get).depth
  modify fun a => { a with closure := c, args, saved := [], pc := 0 }

end Act

end StackLisp
