import StackLisp.Value

/-!
Frames: the slots of one call. Frames cut from one span are told by its number.
-/

namespace StackLisp

structure Frame where
  slots : Array Value
  span : Nat

def Value.isNull : Value → Bool
  | .null => true
  | _ => false

namespace Frame

def blank (length span : Nat) : Frame :=
  ⟨Array.replicate length .null, span⟩

def length (f : Frame) : Nat :=
  f.slots.size

def isClear (f : Frame) : Bool :=
  f.slots.all Value.isNull

def clear (f : Frame) : Frame :=
  blank f.length f.span

def read? (f : Frame) (i : Nat) : Option Value :=
  f.slots[i]?

def write? (f : Frame) (i : Nat) (v : Value) : Option Frame :=
  if i < f.length then some { f with slots := f.slots.setIfInBounds i v } else none

/-- The value of a slot, which is left null. -/
def take? (f : Frame) (i : Nat) : Option (Value × Frame) :=
  match f.slots[i]? with
  | some v => some (v, { f with slots := f.slots.setIfInBounds i .null })
  | none => none

@[simp] theorem length_blank (length span : Nat) : (blank length span).length = length := by
  simp [blank, Frame.length]

@[simp] theorem length_clear (f : Frame) : f.clear.length = f.length := by
  simp [clear]

theorem isClear_blank (length span : Nat) : (blank length span).isClear = true := by
  rw [isClear, Array.all_eq_true]
  intro i _
  simp [blank, Value.isNull]

end Frame

end StackLisp
