import Mathlib.Data.List.TakeWhile
import StackLisp.Proofs.Promotion
import StackLisp.Reader

/-!
Words: the texts of atoms. The text of an integer is a numeral of its digits, so that it is read as that
integer. A word that is neither a numeral nor one of the language's own words is a symbol.
-/

namespace StackLisp

namespace Decimal

variable {c : Char} {cs : List Char}

theorem isDigit_of_mem_numeral {n : Nat} (member : c ∈ numeral n) : isDigit c = true :=
  Nat.isDigit_of_mem_toDigits (by decide) (by decide) member

theorem numeral_ne_nil (n : Nat) : numeral n ≠ [] :=
  Nat.toDigits_ne_nil

theorem ofDigits_numeral (n : Nat) : ofDigits (numeral n) = n :=
  Nat.ofDigitChars_ten_toDigits

theorem integerText_ne_nil (n : Int) : integerText n ≠ [] := by
  unfold integerText
  split
  · simp
  · exact numeral_ne_nil _

theorem mem_integerText {n : Int} (member : c ∈ integerText n) : c = '-' ∨ isDigit c = true := by
  unfold integerText at member
  split at member
  · exact (List.mem_cons.mp member).imp_right isDigit_of_mem_numeral
  · exact .inr (isDigit_of_mem_numeral member)

theorem ne_minus_of_isDigit (digit : isDigit c = true) : c ≠ '-' := by
  rintro rfl
  exact absurd digit (by decide)

namespace Numeral

theorem sign?_of_ne (other : c ≠ '-') : sign? (c :: cs) = (false, c :: cs) := by
  unfold sign?
  split
  next same => exact absurd (List.cons.inj same).1 other
  next => rfl

/-- Digits behind a sign or behind none, and nothing else. -/
theorem parse?_digits {negative : Bool} {ds : List Char} (sign : sign? cs = (negative, ds))
    (digits : ∀ c ∈ ds, isDigit c = true) (nonempty : ds ≠ []) :
    parse? cs = some ⟨negative, ds, none, none⟩ := by
  have whole : ds.takeWhile isDigit = ds := List.takeWhile_eq_self_iff.mpr digits
  have nothing : ds.dropWhile isDigit = [] := List.dropWhile_eq_nil_iff.mpr digits
  simp [parse?, sign, whole, nothing, fraction?, exponent?, nonempty]

theorem sign?_numeral (n : Nat) : sign? (numeral n) = (false, numeral n) := by
  obtain ⟨d, ds, found⟩ := List.exists_cons_of_ne_nil (numeral_ne_nil n)
  have first : isDigit d = true := isDigit_of_mem_numeral (n := n) (by simp [found])
  rw [found]
  exact sign?_of_ne (ne_minus_of_isDigit first)

theorem parse?_integerText (n : Int) : ∃ m, parse? (integerText n) = some m ∧ m.integer? = some n := by
  have digits : ∀ c ∈ numeral n.natAbs, isDigit c = true := fun c => isDigit_of_mem_numeral
  have nonempty := numeral_ne_nil n.natAbs
  unfold integerText
  split
  next negative =>
    refine ⟨_, parse?_digits rfl digits nonempty, ?_⟩
    simp only [integer?, ofDigits_numeral, if_pos]
    congr 1
    omega
  next positive =>
    refine ⟨_, parse?_digits (sign?_numeral _) digits nonempty, ?_⟩
    simp only [integer?, ofDigits_numeral, Bool.false_eq_true, if_false]
    congr 1
    omega

/-- Behind its signs a numeral begins with a digit. -/
theorem begins_of_parse? {m : Numeral} (parsed : parse? cs = some m) :
    (cs.dropWhile (· = '-')).head?.any isDigit = true := by
  have whole : (sign? cs).2.takeWhile isDigit ≠ [] := by
    intro none
    simp [parse?, none] at parsed
  obtain ⟨d, ds, unsigned, digit⟩ : ∃ d ds, (sign? cs).2 = d :: ds ∧ isDigit d = true := by
    cases unsigned : (sign? cs).2 with
    | nil => simp [unsigned] at whole
    | cons d ds =>
      refine ⟨d, ds, rfl, ?_⟩
      by_contra other
      simp [unsigned, other] at whole
  have other := ne_minus_of_isDigit digit
  unfold sign? at unsigned
  split at unsigned
  all_goals
    subst unsigned
    simp [other, digit]

end Numeral

end Decimal

namespace Reader

open Decimal

variable {cs : List Char} {m : Numeral}

/-- The words of the language. -/
def reserved : List (List Char) :=
  [['t', 'r', 'u', 'e'], ['f', 'a', 'l', 's', 'e'], ['n', 'u', 'l', 'l']]

theorem mem_reserved_iff :
    cs ∈ reserved ↔ cs = ['t', 'r', 'u', 'e'] ∨ cs = ['f', 'a', 'l', 's', 'e'] ∨ cs = ['n', 'u', 'l', 'l'] := by
  simp [reserved]

theorem not_reserved_of_parse? (parsed : Numeral.parse? cs = some m) : cs ∉ reserved := by
  intro member
  have begins := Numeral.begins_of_parse? parsed
  obtain rfl | rfl | rfl := mem_reserved_iff.mp member
  all_goals exact absurd begins (by decide)

theorem kind_atom_of_reserved (member : cs ∈ reserved) : (atom cs).kind = .boolean ∨ (atom cs).kind = .null := by
  obtain rfl | rfl | rfl := mem_reserved_iff.mp member
  · exact .inl rfl
  · exact .inl rfl
  · exact .inr rfl

/-- The number that a numeral is read as. -/
def numeralValue (m : Numeral) : Value :=
  match m.integer? with
  | some i => if Number.fits i then .integer (Int64.ofInt i) else .float m.toFloat
  | none => .float m.toFloat

theorem kind_numeralValue (m : Numeral) : (numeralValue m).kind = .integer ∨ (numeralValue m).kind = .float := by
  unfold numeralValue
  split
  · split
    · exact .inl rfl
    · exact .inr rfl
  · exact .inr rfl

theorem atom_of_parse? (parsed : Numeral.parse? cs = some m) : atom cs = numeralValue m := by
  have begins := Numeral.begins_of_parse? parsed
  have free := not_reserved_of_parse? parsed
  simp only [mem_reserved_iff, not_or] at free
  simp only [atom, free, begins, parsed, if_true, if_false]
  rfl

theorem atom_of_not_reserved (free : cs ∉ reserved) (other : Numeral.parse? cs = none) :
    atom cs = .symbol (String.ofList cs) := by
  simp only [mem_reserved_iff, not_or] at free
  simp [atom, free, other]

theorem atom_integerText (n : Int64) : atom (integerText n.toInt) = .integer n := by
  obtain ⟨m, parsed, whole⟩ := Numeral.parse?_integerText n.toInt
  rw [atom_of_parse? parsed]
  simp [numeralValue, whole, Number.fits_toInt]

end Reader

end StackLisp
