import Mathlib.Order.Lattice
import StackLisp.Proofs.Returns
import StackLisp.Proofs.Sameness

/-!
Outlooks: what is known of an activation before an instruction, whatever the path there. An outlook has a
kind of operand for each on the stack, a number of arguments that there are at least, here and in each of
the argument lists put aside, and the local slots that are stored to.
-/

namespace StackLisp

/-- What is known of an operand: nothing, or that it is a number, the argument count, a Boolean that only
holds if there are so many arguments, or a procedure with some code. -/
inductive Operand where
  | any
  | number (n : Nat)
  | count
  | test (n : Nat)
  | template (code : List Instruction)

/-- The first says all that the second says. -/
instance : LE Operand :=
  ⟨fun a b => b = .any ∨ a = b⟩

namespace Operand

theorem le_any (a : Operand) : a ≤ .any :=
  .inl rfl

theorem le_self (a : Operand) : a ≤ a :=
  .inr rfl

theorem le_iff {a b : Operand} : a ≤ b ↔ b = .any ∨ a = b :=
  .rfl

/-- What is known of a constant. -/
def ofConstant : Option Value → Operand
  | some (.procedure p) => .template p.code
  | _ => .any

theorem ofConstant_congr {u v : Value} (h : (u == v) = true) :
    ofConstant (some u) = ofConstant (some v) := by
  cases u <;> cases v <;> first
    | rfl
    | exact congrArg template (Value.sameProcedure_iff.mp h).2.1
    | cases h

/-- What is known of the comparison of the two topmost operands. -/
def compared : List Operand → Operand
  | .count :: .number n :: _ => .test n
  | _ => .any

/-- So many arguments there are at least where the topmost operand holds, if there are `least`. -/
def leastIf (least : Nat) : List Operand → Nat
  | .test n :: _ => max least n
  | _ => least

/-- No more is known than how many operands there are. -/
def forget (stack : List Operand) : List Operand :=
  List.replicate stack.length .any

variable {stack other : List Operand}

/-- Stacks compare operand by operand. -/
abbrev Each (stack other : List Operand) : Prop :=
  List.Forall₂ (· ≤ ·) stack other

theorem each_refl (stack : List Operand) : Each stack stack :=
  List.forall₂_same.mpr fun a _ => le_self a

theorem each_trans {third : List Operand} (h : Each stack other) (g : Each other third) :
    Each stack third := by
  induction h generalizing third with
  | nil => exact g
  | @cons a b as bs first _ ih =>
    obtain ⟨c, cs, next, rest, rfl⟩ := List.forall₂_cons_left_iff.mp g
    refine .cons ?_ (ih rest)
    rcases next with rfl | rfl
    · exact le_any a
    · exact first

theorem each_forget (h : stack.length = other.length) : Each stack (forget other) := by
  refine List.forall₂_iff_get.mpr ⟨by simpa [forget] using h, fun k _ _ => ?_⟩
  simp only [forget, List.get_eq_getElem, List.getElem_replicate]
  exact le_any _

@[simp] theorem length_forget (stack : List Operand) : (forget stack).length = stack.length :=
  List.length_replicate

theorem forget_append (stack other : List Operand) :
    forget (stack ++ other) = forget stack ++ forget other := by
  rw [forget, List.length_append, ← List.replicate_append_replicate, forget, forget]

@[simp] theorem forget_forget (stack : List Operand) : forget (forget stack) = forget stack := by
  rw [forget, length_forget, forget]

end Operand

theorem forall₂_trans {as bs cs : List Nat} (h : List.Forall₂ (· ≤ ·) as bs)
    (g : List.Forall₂ (· ≤ ·) bs cs) : List.Forall₂ (· ≤ ·) as cs := by
  induction h generalizing cs with
  | nil => exact g
  | cons first _ ih =>
    obtain ⟨c, cs, next, rest, rfl⟩ := List.forall₂_cons_left_iff.mp g
    exact .cons (Nat.le_trans first next) (ih rest)

structure Outlook where
  /-- The operands, the topmost first. -/
  stack : List Operand := []
  least : Nat
  saved : List Nat := []
  stored : Nat → Prop := fun _ => False

namespace Outlook

/-- The first knows all that the second knows. -/
structure Knows (X Y : Outlook) : Prop where
  stack : Operand.Each X.stack Y.stack
  least : Y.least ≤ X.least
  saved : List.Forall₂ (· ≤ ·) Y.saved X.saved
  stored : ∀ slot, Y.stored slot → X.stored slot

instance : Preorder Outlook where
  le := Knows
  le_refl X := ⟨Operand.each_refl _, Nat.le_refl _, List.forall₂_refl _, fun _ => id⟩
  le_trans _ _ _ h g := ⟨Operand.each_trans h.stack g.stack, Nat.le_trans g.least h.least,
    forall₂_trans g.saved h.saved, fun slot => h.stored slot ∘ g.stored slot⟩

theorem le_iff {X Y : Outlook} : X ≤ Y ↔ X.Knows Y :=
  .rfl

/-- With more operands on top. -/
def push (X : Outlook) (given : List Operand) : Outlook :=
  { X with stack := given ++ X.stack }

/-- What an instruction asks for. A return asks for its value alone, so that code in its place leaves the
stack as a call would. -/
structure Allows (X : Outlook) (i : Instruction) : Prop where
  pops : i.pops ≤ X.stack.length
  exits : i.op.effect.exits → i.op ≠ .panic → i.op ≠ .jump → X.stack.length = i.pops
  args : i.op = .arg → i.operand < X.least
  slots : i.op = .load → X.stored i.operand
  saved : i.op = .popArgs → X.saved ≠ []
  template : i.op = .makeClosure → ∃ code rest, X.stack = .template code :: rest ∧
    ∀ j ∈ code, j.op = .capture → j.operand < i.operand

/-- Past an instruction that goes on. Nothing is kept of the operands below a call: they may stand below
a body that takes its place, with other arguments. -/
def after (constants : List Value) (X : Outlook) (i : Instruction) : Outlook :=
  let below := X.stack.drop i.pops
  match i.op with
  | .posInt => { X with stack := .number i.operand :: below }
  | .argLen => { X with stack := .count :: below }
  | .const => { X with stack := .ofConstant constants[i.operand]? :: below }
  | .numEq | .numGte => { X with stack := .compared X.stack :: below }
  | .store => { X with stack := below, stored := fun slot => slot = i.operand ∨ X.stored slot }
  | .call0 | .call1 | .call => { X with stack := .any :: Operand.forget below }
  | .pushArgs =>
    { X with stack := Operand.forget below, least := i.operand, saved := X.least :: X.saved }
  | .popArgs =>
    { X with stack := Operand.forget below, least := X.saved.headD 0, saved := X.saved.tail }
  | _ => { X with stack := List.replicate i.pushes .any ++ below }

/-- Where a jump goes. -/
def taken (X : Outlook) (i : Instruction) : Outlook :=
  { X with
    stack := X.stack.drop i.pops
    least := if i.op = .condJump then Operand.leastIf X.least X.stack else X.least }

variable {X Y : Outlook} {i : Instruction} {constants : List Value}

theorem push_le (h : X ≤ Y) {given other : List Operand} (on : Operand.Each given other) :
    X.push given ≤ Y.push other :=
  ⟨List.rel_append on h.stack, h.least, h.saved, h.stored⟩

theorem length_after (X : Outlook) (i : Instruction) :
    (X.after constants i).stack.length = X.stack.length - i.pops + i.pushes := by
  unfold after
  dsimp only
  split
  case h_12 => simp [Nat.add_comm]
  all_goals
    rename_i op
    simp [Instruction.pushes, op, Opcode.effect]

/-- Only staged arguments put an argument list aside. -/
theorem saved_after (empty : X.saved = []) (pushes : i.op ≠ .pushArgs) (pops : i.op ≠ .popArgs) :
    (X.after constants i).saved = [] := by
  unfold after
  dsimp only
  split
  case h_10 op => exact absurd op pushes
  case h_11 op => exact absurd op pops
  all_goals exact empty

theorem stored_after (X : Outlook) (i : Instruction) {slot : Nat}
    (h : (X.after constants i).stored slot) : X.stored slot ∨ i.op = .store ∧ i.operand = slot := by
  unfold after at h
  dsimp only at h
  split at h
  case h_6 stores => exact h.elim (fun same => .inr ⟨stores, same.symm⟩) .inl
  all_goals exact .inl h

end Outlook

end StackLisp
