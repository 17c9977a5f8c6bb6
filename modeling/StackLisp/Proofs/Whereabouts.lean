import StackLisp.Proofs.Views

/-!
Where references are. The operands of an activation hold none but where one is on its way: from where it is
made to the slot it is kept in, from there to where it is filled or looked into, or into a closure that
captures it. A slot that keeps a reference that is not filled yet keeps the only one that will fill it.
-/

namespace StackLisp

/-- What an operand or a local slot holds: `plain` is no reference, `pending` is one that is not filled and
is here only. Of the operands alone, `own` is the pending one in a slot and `ready` is a template for what
the operands beneath it hold. -/
inductive Content where
  | any
  | plain
  | reference
  | pending
  | own (slot : Nat)
  | ready
deriving DecidableEq

namespace Content

instance : PartialOrder Content where
  le c d := d = .any ∨ c = d
  le_refl c := .inr rfl
  le_trans := by
    rintro c d e (rfl | rfl) (rfl | rfl) <;> simp
  le_antisymm := by
    rintro c d (rfl | rfl) (same | same) <;> simp_all

theorem le_iff {c d : Content} : c ≤ d ↔ d = .any ∨ c = d :=
  Iff.rfl

theorem le_any (c : Content) : c ≤ .any :=
  .inl rfl

theorem eq_of_le {c d : Content} (h : c ≤ d) (known : d ≠ .any) : c = d :=
  h.resolve_left known

/-- A value of this content suits a captured name that is a reference, or one that is not. -/
def Suits (c : Content) : Bool → Prop
  | true => c = .reference ∨ ∃ slot, c = .own slot
  | false => c = .plain

/-- What is pushed from a slot. -/
def loaded (slot : Nat) : Content → Content
  | .plain => .plain
  | .reference => .reference
  | .pending => .own slot
  | _ => .any

/-- What is pushed of the constants. -/
def ofConstant : Option Value → Content
  | some (.ref _) => .reference
  | some (.procedure _) => .ready
  | _ => .plain

/-- With slots that are numbered from `base` on. -/
def shift (base : Nat) : Content → Content
  | .own slot => .own (slot + base)
  | c => c

end Content

/-- What the operands hold, counted from the top, and what the local slots hold. -/
structure Whereabouts where
  tops : Nat → Content := fun _ => .plain
  slots : Nat → Content := fun _ => .any

/-- Which of the captured values are references, and what templates may capture. -/
structure Setting where
  captured : Nat → Bool
  serves : Value → (Nat → Bool) → Prop

/-- Operations that have to do with references, or may go on while one is among the operands. -/
def Opcode.conveys (op : Opcode) : Bool :=
  op ∈ [.const, .capture, .load, .arg, .restArg, .current, .newRef, .store, .bindRef, .deref, .makeClosure]

theorem Opcode.operand_of_ordinary {op : Opcode} (h : op.conveys = false) :
    op.effect.operand ≠ .constants ∧ op.effect.operand ≠ .locals ∧ op ≠ .capture := by
  revert h
  cases op <;> decide

namespace Whereabouts

instance : PartialOrder Whereabouts where
  le X Y := X.tops ≤ Y.tops ∧ X.slots ≤ Y.slots
  le_refl X := ⟨le_refl _, le_refl _⟩
  le_trans _ _ _ h g := ⟨le_trans h.1 g.1, le_trans h.2 g.2⟩
  le_antisymm := by
    rintro ⟨tops, slots⟩ ⟨others, more⟩ h g
    obtain rfl := le_antisymm h.1 g.1
    obtain rfl := le_antisymm h.2 g.2
    rfl

/-- No operand is a reference. -/
def Bare (X : Whereabouts) : Prop :=
  ∀ j, X.tops j = .plain

/-- Without the references among the operands. -/
def bare (X : Whereabouts) : Whereabouts :=
  { slots := X.slots }

def push (X : Whereabouts) (c : Content) : Whereabouts :=
  { X with tops := fun | 0 => c | j + 1 => X.tops j }

/-- With something in a slot, and no reference among the operands. -/
def put (X : Whereabouts) (slot : Nat) (c : Content) : Whereabouts :=
  { slots := fun k => if k = slot then c else X.slots k }

/-- What is known of the slots below a number. -/
def below (X : Whereabouts) (n : Nat) : Whereabouts :=
  { X with slots := fun k => if k < n then X.slots k else .any }

variable {X Y : Whereabouts} {g : Setting} {pool more : List Value} {i : Instruction} {n m : Nat} {c : Content}

@[simp] theorem bare_bare (X : Whereabouts) : X.bare.Bare := fun _ => rfl

theorem Bare.bare (h : X.Bare) : X.bare = X := by
  obtain ⟨tops, slots⟩ := X
  obtain rfl : tops = fun _ => .plain := funext h
  rfl

theorem Bare.push (h : X.Bare) : X.push .plain = X := by
  obtain ⟨tops, slots⟩ := X
  obtain rfl : tops = fun _ => .plain := funext h
  refine congrArg (Whereabouts.mk · slots) (funext fun j => ?_)
  cases j <;> rfl

@[simp] theorem bare_put (X : Whereabouts) (slot : Nat) (c : Content) : (X.put slot c).Bare := fun _ => rfl

theorem Bare.below (h : X.Bare) (n : Nat) : (X.below n).Bare := h

theorem below_below (X : Whereabouts) (n m : Nat) : (X.below n).below m = X.below (min n m) := by
  unfold Whereabouts.below
  refine congrArg (Whereabouts.mk X.tops) (funext fun k => ?_)
  dsimp only
  grind

theorem le_below (X : Whereabouts) (n : Nat) : X ≤ X.below n := by
  refine ⟨le_refl _, fun k => ?_⟩
  unfold below
  dsimp only
  split
  · exact le_refl _
  · exact Content.le_any _

/-- Where nothing is known of the slots from a number on, nothing is to be given up there. -/
theorem below_of_le (h : X.below n = X) (le : n ≤ m) : X.below m = X := by
  rw [← h, below_below, Nat.min_eq_left le]

/-- Only the slots count for what is known of the free ones. -/
theorem below_congr (h : X.below n = X) (slots : Y.slots = X.slots) : Y.below n = Y := by
  obtain ⟨tops, own⟩ := Y
  obtain rfl : own = X.slots := slots
  exact congrArg (Whereabouts.mk tops) (congrArg Whereabouts.slots h)

theorem Bare.below_put (h : X.Bare) {slot : Nat} (beyond : n ≤ slot) (c : Content) :
    (X.put slot c).below n = X.below n := by
  unfold Whereabouts.below put
  refine congrArg₂ Whereabouts.mk (funext fun j => (h j).symm) (funext fun k => ?_)
  dsimp only
  split
  · rw [if_neg (by omega)]
  · rfl

/-- What is known after an instruction. -/
def after (g : Setting) (pool : List Value) (i : Instruction) (X : Whereabouts) : Whereabouts :=
  match i.op with
  | .const => X.push (.ofConstant pool[i.operand]?)
  | .capture => X.push (if g.captured i.operand then .reference else .plain)
  | .load => X.push ((X.slots i.operand).loaded i.operand)
  | .arg | .restArg | .current => X.push .plain
  | .newRef => X.push .pending
  | .store => X.put i.operand (X.tops 0)
  | .bindRef =>
    match X.tops 0 with
    | .own slot => X.put slot .reference
    | _ => {}
  | _ => X.bare

/-- What an instruction asks for. -/
def Allows (g : Setting) (pool : List Value) (X : Whereabouts) (i : Instruction) : Prop :=
  match i.op with
  | .const => ∀ p, pool[i.operand]? = some (.procedure p) →
      ∃ refs, g.serves (.procedure p) refs ∧ ∀ j, (X.tops j).Suits (refs j)
  | .capture | .load | .arg | .restArg | .current | .newRef => True
  | .store => (X.tops 0 = .plain ∨ X.tops 0 = .pending) ∧ ∀ j, X.tops (j + 1) = .plain
  | .bindRef => (∃ slot, X.tops 0 = .own slot ∧ X.slots slot = .pending) ∧ ∀ j, X.tops (j + 1) = .plain
  | .deref => (X.tops 0).Suits true ∧ ∀ j, X.tops (j + 1) = .plain
  | .makeClosure => X.tops 0 = .ready ∧ ∀ j, i.operand ≤ j → X.tops (j + 1) = .plain
  | _ => X.Bare

theorem allows_of_ordinary (op : i.op.conveys = false) : X.Allows g pool i ↔ X.Bare := by
  obtain ⟨op', operand, small⟩ := i
  cases op' <;> first | exact Iff.rfl | cases op

theorem after_of_ordinary (op : i.op.conveys = false) : X.after g pool i = X.bare := by
  obtain ⟨op', operand, small⟩ := i
  cases op' <;> first | rfl | cases op

/-- What is known of references along code of a procedure in a setting. -/
def view (g : Setting) : View Whereabouts where
  allows := Allows g
  after := after g
  taken _ X := X
  allows_congr {pool more i} same X h := by
    obtain ⟨op, operand, small⟩ := i
    cases op <;> first | exact h | exact fun p found => h p ((same rfl).trans found)
  after_congr {pool more i} same := by
    obtain ⟨op, operand, small⟩ := i
    refine funext fun X => ?_
    cases op <;> first | rfl | exact congrArg (fun v => X.push (.ofConstant v)) (same rfl)

end Whereabouts

end StackLisp
