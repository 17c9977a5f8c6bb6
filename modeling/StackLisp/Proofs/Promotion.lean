import Mathlib.Algebra.Field.Rat
import Mathlib.Data.Int.Cast.Lemmas
import StackLisp.Proofs.Intrinsics

/-!
Arithmetic on integers of 64 bits. Each operation has a mathematical result, a rational number. Where that
is an integer of 64 bits, it is what the operation comes to; everywhere else the operation comes to a double,
and never to another integer. A zero divisor is the only fault.
-/

namespace StackLisp

namespace Number

variable {l r : Int64} {real : Float}

/-- What an operation on integers comes to if `q` is its mathematical result and `real` its result in
doubles. -/
inductive Renders (q : ℚ) (real : Float) : Number → Prop
  | whole (k : Int64) (exact : (k.toInt : ℚ) = q) : Renders q real (.integer k)
  | rounded (other : ∀ k : Int64, (k.toInt : ℚ) ≠ q) : Renders q real (.float real)

theorem toInt_ofInt_of_fits {n : Int} (h : fits n = true) : (Int64.ofInt n).toInt = n := by
  rw [fits, Bool.and_eq_true, decide_eq_true_eq, decide_eq_true_eq] at h
  exact Int64.toInt_ofInt_of_le h.1 (Int.lt_of_le_of_lt h.2 (by decide))

theorem fits_toInt (k : Int64) : fits k.toInt = true := by
  rw [fits, Bool.and_eq_true, decide_eq_true_eq, decide_eq_true_eq]
  exact ⟨k.minValue_le_toInt, k.toInt_le⟩

theorem fits_iff {n : Int} : fits n = true ↔ ∃ k : Int64, k.toInt = n := by
  constructor
  · intro h
    exact ⟨_, toInt_ofInt_of_fits h⟩
  · rintro ⟨k, rfl⟩
    exact fits_toInt k

theorem renders_exactOr (n : Int) (real : Float) : Renders n real (exactOr n real) := by
  unfold exactOr
  split
  next within => exact .whole _ (congrArg _ (toInt_ofInt_of_fits within))
  next beyond =>
    refine .rounded fun k same => beyond (fits_iff.mpr ⟨k, ?_⟩)
    exact_mod_cast same

theorem isZero_integer : (integer r).isZero = decide (r = 0) := rfl

theorem toInt_ne_zero (nonzero : r ≠ 0) : r.toInt ≠ 0 := fun zero =>
  nonzero (Int64.toInt_inj.mp zero)

/-! ### Division -/

theorem tdiv_exact (nonzero : r ≠ 0) (none : l.toInt.tmod r.toInt = 0) :
    ((l.toInt.tdiv r.toInt : Int) : ℚ) = l.toInt / r.toInt := by
  refine (eq_div_iff (Int.cast_ne_zero.mpr (toInt_ne_zero nonzero))).mpr ?_
  exact_mod_cast Int.tdiv_mul_cancel_of_tmod_eq_zero none

/-- If a quotient is an integer, nothing remains. -/
theorem tmod_eq_zero_of_quotient (nonzero : r ≠ 0) {n : Int} (whole : (n : ℚ) = l.toInt / r.toInt) :
    l.toInt.tmod r.toInt = 0 := by
  have divisor : (r.toInt : ℚ) ≠ 0 := Int.cast_ne_zero.mpr (toInt_ne_zero nonzero)
  have product : n * r.toInt = l.toInt := by exact_mod_cast (eq_div_iff divisor).mp whole
  exact Int.tmod_eq_zero_of_dvd (Dvd.intro_left n product)

theorem renders_div? (nonzero : r ≠ 0) :
    ∃ n, div? (.integer l) (.integer r) = some n ∧
      Renders (l.toInt / r.toInt) (round l / round r) n := by
  have divisor : (integer r).isZero = false := by rw [isZero_integer, decide_eq_false nonzero]
  refine ⟨_, by unfold div?; rw [divisor]; rfl, ?_⟩
  split
  next none =>
    rw [← tdiv_exact nonzero none]
    exact renders_exactOr _ _
  next some => exact .rounded fun k same => some (tmod_eq_zero_of_quotient nonzero same)

theorem div?_eq_none_iff : div? (.integer l) (.integer r) = none ↔ r = 0 := by
  constructor
  · intro failed
    by_contra nonzero
    obtain ⟨n, divided, -⟩ := renders_div? (l := l) nonzero
    cases failed.symm.trans divided
  · rintro rfl
    rfl

/-! ### Remainders -/

/-- A remainder is smaller than its divisor, and so has room in 64 bits wherever the divisor has. -/
theorem fits_tmod (nonzero : r ≠ 0) : fits (l.toInt.tmod r.toInt) = true := by
  have size : (l.toInt.tmod r.toInt).natAbs = l.toInt.natAbs % r.toInt.natAbs := Int.natAbs_tmod ..
  have less : l.toInt.natAbs % r.toInt.natAbs < r.toInt.natAbs :=
    Nat.mod_lt _ (Int.natAbs_pos.mpr (toInt_ne_zero nonzero))
  have low := r.le_toInt
  have high := r.toInt_lt
  have least : Int64.minValue.toInt = -2 ^ 63 := rfl
  have most : Int64.maxValue.toInt = 2 ^ 63 - 1 := rfl
  rw [fits, Bool.and_eq_true, decide_eq_true_eq, decide_eq_true_eq, least, most]
  omega

theorem rem?_integers (nonzero : r ≠ 0) :
    ∃ k : Int64, rem? (.integer l) (.integer r) = some (.integer k) ∧ k.toInt = l.toInt.tmod r.toInt := by
  have divisor : (integer r).isZero = false := by rw [isZero_integer, decide_eq_false nonzero]
  refine ⟨_, by unfold rem?; rw [divisor]; rfl, toInt_ofInt_of_fits (fits_tmod nonzero)⟩

theorem rem?_eq_none_iff : rem? (.integer l) (.integer r) = none ↔ r = 0 := by
  constructor
  · intro failed
    by_contra nonzero
    obtain ⟨k, divided, -⟩ := rem?_integers (l := l) nonzero
    cases failed.symm.trans divided
  · rintro rfl
    rfl

end Number

/-! ### Opcodes -/

/-- The operation on two numbers that an opcode stands for; `none` for a zero divisor. -/
def Opcode.computes? : Opcode → Option (Number → Number → Option Number)
  | .add => some fun a b => some (a.add b)
  | .sub => some fun a b => some (a.sub b)
  | .mul => some fun a b => some (a.mul b)
  | .div => some Number.div?
  | .mod => some Number.rem?
  | _ => none

theorem Opcode.binary?_of_computes {op : Opcode} {f : Number → Number → Option Number}
    (computes : op.computes? = some f) : op.binary? = some (arithmetic f) := by
  cases op <;> cases computes <;> rfl

/-- What an operation on numbers leaves on the stack; a missing result is a zero divisor. -/
def Number.result : Option Number → Except Fault Value
  | some n => .ok n.value
  | none => .error .divideByZero

theorem arithmetic_values (f : Number → Number → Option Number) (a b : Number) :
    arithmetic f a.value b.value = Number.result (f a b) := by
  unfold arithmetic
  rw [a.number?_value, b.number?_value]
  show (match f a b with
    | some n => Except.ok n.value
    | none => .error Fault.divideByZero) = _
  cases f a b <;> rfl

namespace Machine.State

/-- With two numbers on the stack, one step of an arithmetic operation puts its result in their place, or a
zero divisor ends the call. -/
theorem results_numbers {op : Opcode} {f : Number → Number → Option Number} (computes : op.computes? = some f)
    {m : Machine} {pending : List Pending} {act : Activation} {s : Scene} {a b : Number}
    (shows : act.Shows ((s.push b.value).push a.value)) (here : act.procedure.code[act.pc]? = some op.bare) :
    Results ⟨m, .running act, pending⟩ s 1 (Number.result (f a b)) := by
  have only : ∀ k < [b.value].length, act.procedure.code[act.pc + k]? = some op.bare := by
    intro k first
    obtain rfl := Nat.lt_one_iff.mp first
    exact here
  have results : Results ⟨m, .running act, pending⟩ s 1 _ :=
    results_binary (Opcode.binary?_of_computes computes) shows only
  rw [List.foldlM_cons, arithmetic_values] at results
  simp only [List.foldlM_nil, bind_pure] at results
  exact results

theorem results_neg {m : Machine} {pending : List Pending} {act : Activation} {s : Scene} {a : Number}
    (shows : act.Shows (s.push a.value)) (here : act.procedure.code[act.pc]? = some Opcode.neg.bare) :
    Results ⟨m, .running act, pending⟩ s 1 (.ok a.neg.value) := by
  have results : Results ⟨m, .running act, pending⟩ s 1 _ :=
    results_unary (show Opcode.neg.unary? = some _ from rfl) shows here
  rwa [a.number?_value] at results

end Machine.State

namespace Number

/-- Sums, differences, products, negations and quotients of integers are exact integers where their
mathematical results are integers of 64 bits, and doubles elsewhere; remainders are exact integers. Divisors
must not be zero, and nothing else can fail: the machine does each operation in a step, and puts its result
on the stack or raises the fault of a zero divisor. -/
theorem integers_exact (l r : Int64) :
    Renders (l.toInt + r.toInt) (round l + round r) (add (.integer l) (.integer r)) ∧
      Renders (l.toInt - r.toInt) (round l - round r) (sub (.integer l) (.integer r)) ∧
      Renders (l.toInt * r.toInt) (round l * round r) (mul (.integer l) (.integer r)) ∧
      Renders (-l.toInt) (-round l) (neg (.integer l)) ∧
      (r ≠ 0 → ∃ n, div? (.integer l) (.integer r) = some n ∧
        Renders (l.toInt / r.toInt) (round l / round r) n) ∧
      (r ≠ 0 → ∃ k : Int64, rem? (.integer l) (.integer r) = some (.integer k) ∧
        k.toInt = l.toInt.tmod r.toInt) ∧
      (div? (.integer l) (.integer r) = none ↔ r = 0) ∧ (rem? (.integer l) (.integer r) = none ↔ r = 0) ∧
      ∀ (m : Machine) (pending : List Pending) (a : Activation) (s : Scene) (op : Opcode),
        a.procedure.code[a.pc]? = some op.bare →
        (∀ f, op.computes? = some f → a.Shows ((s.push (.integer r)).push (.integer l)) →
          Machine.State.Results ⟨m, .running a, pending⟩ s 1 (result (f (.integer l) (.integer r)))) ∧
        (op = .neg → a.Shows (s.push (.integer l)) →
          Machine.State.Results ⟨m, .running a, pending⟩ s 1 (.ok (neg (.integer l)).value)) := by
  refine ⟨?_, ?_, ?_, ?_, renders_div?, rem?_integers, div?_eq_none_iff, rem?_eq_none_iff, ?_⟩
  · exact_mod_cast renders_exactOr (l.toInt + r.toInt) _
  · exact_mod_cast renders_exactOr (l.toInt - r.toInt) _
  · exact_mod_cast renders_exactOr (l.toInt * r.toInt) _
  · exact_mod_cast renders_exactOr (-l.toInt) _
  · rintro m pending a s op here
    refine ⟨fun f computes shows => ?_, ?_⟩
    · exact Machine.State.results_numbers (a := .integer l) (b := .integer r) computes shows here
    · rintro rfl shows
      exact Machine.State.results_neg (a := .integer l) shows here

/-- A procedure that divides. -/
def dividing : Procedure Value where
  serial := 0
  name := none
  arity := .fixed 0
  code := [Opcode.div.bare, Opcode.ret.bare]
  constants := []
  labels := []
  stackSize := 2
  localCount := 0
  labelCount := 0
  globals := 0
  inlinable := true

def dividingScene : Scene :=
  .enter dividing.chunk ⟨dividing, []⟩ []

/-- A call of it that has two operands. -/
def dividingCall (l r : Int64) : Activation where
  closure := ⟨dividing, []⟩
  args := []
  frame := ⟨#[.integer l, .integer r], 0⟩
  sp := 0

theorem shows_dividingCall (l r : Int64) :
    (dividingCall l r).Shows ((dividingScene.push (.integer r)).push (.integer l)) where
  closure := rfl
  chunk := rfl
  args := rfl
  saved := rfl
  pc := rfl
  level := rfl
  operands := by
    intro k v found
    match k, found with
    | 0, found | 1, found => exact found
  locals := nofun
  room := Nat.le_refl 2

/-- No integer of 64 bits is the quotient of the least one by -1, so the machine comes to a double. -/
theorem integers_exact_least :
    ∃ x, div? (.integer Int64.minValue) (.integer (-1)) = some (.float x) ∧
      rem? (.integer Int64.minValue) (.integer (-1)) = some (.integer 0) ∧
      Machine.State.Results ⟨.new {} {}, .running (dividingCall Int64.minValue (-1)), []⟩ dividingScene 1
        (.ok (.float x)) := by
  obtain ⟨-, -, -, -, quotient, remainder, -, -, steps⟩ := integers_exact Int64.minValue (-1)
  obtain ⟨n, divided, renders⟩ := quotient (by decide)
  obtain ⟨k, left, exact⟩ := remainder (by decide)
  obtain rfl : k = 0 := Int64.toInt_inj.mp (exact.trans (by decide))
  have step := (steps (.new {} {}) [] (dividingCall Int64.minValue (-1)) dividingScene .div rfl).1
    div? rfl (shows_dividingCall _ _)
  rw [divided] at step
  cases renders with
  | whole k exact =>
    have nonzero : (((-1 : Int64).toInt : Int) : ℚ) ≠ 0 := Int.cast_ne_zero.mpr (by decide)
    have product : k.toInt * (-1 : Int64).toInt = Int64.minValue.toInt := by
      exact_mod_cast (eq_div_iff nonzero).mp exact
    have least : Int64.minValue.toInt = -2 ^ 63 := rfl
    have negative : (-1 : Int64).toInt = -1 := rfl
    have high := k.toInt_lt
    rw [least, negative] at product
    omega
  | rounded => exact ⟨_, divided, left, step⟩

end Number

end StackLisp
