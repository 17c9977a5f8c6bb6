import StackLisp.Fault

/-!
What the compiler and the machine report about their work, and the line each report prints as. Names are
those of procedures.
-/

namespace StackLisp

inductive Event where
  | built (name : Option String) (length stackSize locals : Nat) (inlinable : Bool)
  | inlined (name : Option String) (count : Nat) (tail : Bool)
  | foreignGlobals (name : Option String)
  | notInlinable (name : Option String)
  | countMismatch (name : Option String) (count : Nat)
  | refilled (capacity entries : Nat)
  | unwound (name : Option String) (fault : Fault)
  | executed (name : Option String) (pc : Nat) (instruction : Instruction) (depth : Nat)

namespace Event

def nameField : Option String → String
  | none => ""
  | some name => s!" name={name}"

def optional : Option String → String
  | none => "None"
  | some name =>
    let quoted := String.ofList (Text.quoted name)
    s!"Some({quoted})"

def title (name : Option String) : String :=
  name.getD "<anonymous>"

def line : Event → String
  | built name length stackSize locals inlinable =>
    let sizes := s!"code_len={length} stack_size={stackSize} locals={locals}"
    s!"DEBUG built procedure{nameField name} {sizes} inlinable={inlinable}"
  | inlined name count tail => s!"DEBUG inlined call{nameField name} count={count} tail={tail}"
  | foreignGlobals name => s!"DEBUG not inlining: different globals name={optional name}"
  | notInlinable name => s!"DEBUG not inlining: callee is not inlinable name={optional name}"
  | countMismatch name count =>
    s!"DEBUG not inlining: arity mismatch name={optional name} count={count}"
  | refilled capacity entries =>
    s!"DEBUG refilled frame class capacity={capacity} entries={entries}"
  | unwound name fault => s!"DEBUG fault unwinding procedure={title name} fault={fault.message}"
  | executed name pc instruction depth =>
    s!"TRACE {title name}@{Instruction.address pc} {instruction.text} [depth {depth}]"

end Event

end StackLisp
