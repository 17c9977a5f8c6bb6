import StackLisp.Proofs.Charts
import StackLisp.Proofs.Hereditary

/-!
Safe values: closures capture as many values as their code looks for, procedures run as a chart says, and
builtins that are written in place are operations on values.
-/

namespace StackLisp

/-- Whether an operation takes so many operands to one, which is no closure made of them. -/
def Intrinsic.computes : Intrinsic → Bool
  | .unary op => op.effect.pops = 1 && op.effect.pushes = 1 && op ≠ .makeClosure
  | .binary op | .fold op => op.effect.pops = 2 && op.effect.pushes = 1

/-- A builtin is written in place, if at all, as operations on its arguments. -/
def Builtin.Proper (b : Builtin) : Prop :=
  ∀ intrinsic, b.intrinsic = some intrinsic → intrinsic.computes

namespace Procedure

/-- What the code captures is among so many values. -/
def Captures (p : Procedure Value) (count : Nat) : Prop :=
  ∀ i ∈ p.code, i.op = .capture → i.operand < count

/-- The code runs as a chart says on the arguments that the procedure accepts, and stages no arguments if it
may be copied. -/
structure Safe (p : Procedure Value) : Prop where
  mapped : ∃ least, p.chunk.Mapped least ∧ ∀ n, p.arity.accepts n → least ≤ n
  inlinable : p.inlinable → ∀ i ∈ p.code, i.op ≠ .pushArgs

end Procedure

/-- Values with known procedures only, in closures that have what their code captures. -/
inductive Value.Safe (known : Procedure Value → Prop) : Value → Prop
  | scalar {v : Value} (scalar : v.isScalar) : Safe known v
  | pair {a b : Value} (car : Safe known a) (cdr : Safe known b) : Safe known (.pair a b)
  | vector {items : List Value} (each : ∀ v ∈ items, Safe known v) : Safe known (.vector items)
  | procedure {p : Procedure Value} (body : known p) : Safe known (.procedure p)
  | closure {p : Procedure Value} {captured : List Value} (body : known p)
    (whole : p.Captures captured.length) (each : ∀ v ∈ captured, Safe known v) :
    Safe known (.closure p captured)
  | builtin {b : Builtin} (proper : b.Proper) : Safe known (.builtin b)

variable {known : Procedure Value → Prop}

theorem Value.hereditary_safe : Hereditary (Value.Safe known) where
  scalar scalar _ := .scalar scalar
  pair := ⟨fun h => by
    cases h with
    | scalar scalar => cases scalar
    | pair car cdr => exact ⟨car, cdr⟩, fun h => .pair h.1 h.2⟩
  vector := ⟨fun h => by
    cases h with
    | scalar scalar => cases scalar
    | vector each => exact each, .vector⟩

theorem Value.Safe.of_procedure {p : Procedure Value} (h : (Value.procedure p).Safe known) : known p := by
  cases h with
  | scalar scalar => cases scalar
  | procedure body => exact body

theorem Value.Safe.of_closure {p : Procedure Value} {captured : List Value}
    (h : (Value.closure p captured).Safe known) :
    known p ∧ p.Captures captured.length ∧ ∀ v ∈ captured, v.Safe known := by
  cases h with
  | scalar scalar => cases scalar
  | closure body whole each => exact ⟨body, whole, each⟩

theorem Value.Safe.of_builtin {b : Builtin} (h : (Value.builtin b).Safe known) : b.Proper := by
  cases h with
  | scalar scalar => cases scalar
  | builtin proper => exact proper

theorem Value.Safe.mono {more : Procedure Value → Prop} (wider : ∀ {p}, known p → more p) {v : Value}
    (h : v.Safe known) : v.Safe more := by
  induction h with
  | scalar scalar => exact .scalar scalar
  | pair _ _ car cdr => exact .pair car cdr
  | vector _ each => exact .vector each
  | procedure body => exact .procedure (wider body)
  | closure body whole _ each => exact .closure (wider body) whole each
  | builtin proper => exact .builtin proper

theorem Value.Safe.within {v : Value} (h : v.Safe known) : v.Within known := by
  induction h with
  | @scalar v scalar => cases v <;> cases scalar <;> constructor
  | pair _ _ car cdr => exact .pair car cdr
  | vector _ each => exact .vector (twins_of_within each)
  | procedure body => exact .procedure ⟨rfl, body⟩
  | closure body _ _ each => exact Value.Matches.closure ⟨rfl, body⟩ (twins_of_within each)
  | builtin => exact .builtin _

/-- Known procedures, checked and safe, with different numbers and safe constants. -/
structure Library (known : Procedure Value → Prop) : Prop where
  verified : ∀ {p : Procedure Value}, known p → ∃ checked, p.Verified checked
  identity : ∀ {p q : Procedure Value}, known p → known q → p.serial = q.serial → p = q
  safe : ∀ {p : Procedure Value}, known p → p.Safe
  constants : ∀ {p : Procedure Value}, known p → ∀ v ∈ p.constants, v.Safe known

theorem Library.roster (library : Library known) : Roster known where
  verified := library.verified
  identity := library.identity
  constants body v member := (library.constants body v member).within

theorem Library.careful (library : Library known) {p : Procedure Value} (body : known p) :
    p.chunk.Careful := by
  obtain ⟨least, mapped, -⟩ := (library.safe body).mapped
  exact mapped.careful

theorem Store.Bears.matches {S : Value → Prop} {P : Procedure Value → Procedure Value → Prop} {σ : Store}
    (h : σ.Bears S) (same : ∀ {v : Value}, S v → v.Matches P v) : σ.Matches P σ where
  namespaces := List.forall₂_same.mpr fun n member => by
    refine ⟨rfl, rfl, List.forall₂_same.mpr fun entry inside => ⟨rfl, rfl, ?_⟩⟩
    cases bound : entry.2.value with
    | none => exact .none
    | some v => exact .some (same (h.namespaces n member entry inside bound))
  refs := List.forall₂_same.mpr fun ref member => by
    cases ref with
    | none => exact .none
    | some v => exact .some (same (h.refs (Array.mem_toList_iff.mp member)))

/-- A store of safe values has known procedures only. -/
theorem Store.Bears.within {σ : Store} (h : σ.Bears (Value.Safe known)) : σ.Within known :=
  h.matches Value.Safe.within

end StackLisp
