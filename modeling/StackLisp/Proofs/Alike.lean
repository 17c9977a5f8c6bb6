import StackLisp.Proofs.Sameness
import StackLisp.Proofs.Within

/-!
Values that equality does not tell apart. Equality takes a builtin for any other of its name; among values
whose builtins have different names, equal values differ in nothing but procedures with the same code.
-/

namespace StackLisp

open Value (Matches)

/-- Known procedures that equality does not tell apart. -/
def Alike (known : Procedure Value → Prop) (p q : Procedure Value) : Prop :=
  known p ∧ known q ∧ Value.sameProcedure p q = true

/-- The value has known procedures and builtins only. -/
inductive Value.Made (known : Procedure Value → Prop) (genuine : Builtin → Prop) : Value → Prop where
  | null : Made known genuine .null
  | bool (b : Bool) : Made known genuine (.bool b)
  | integer (n : Int64) : Made known genuine (.integer n)
  | float (x : Float) : Made known genuine (.float x)
  | string (s : String) : Made known genuine (.string s)
  | symbol (s : String) : Made known genuine (.symbol s)
  | pair {a b : Value} (car : Made known genuine a) (cdr : Made known genuine b) :
    Made known genuine (.pair a b)
  | vector {items : List Value} (each : ∀ v ∈ items, Made known genuine v) :
    Made known genuine (.vector items)
  | procedure {p : Procedure Value} (body : known p) : Made known genuine (.procedure p)
  | closure {p : Procedure Value} {captured : List Value} (body : known p)
    (each : ∀ v ∈ captured, Made known genuine v) : Made known genuine (.closure p captured)
  | builtin {b : Builtin} (h : genuine b) : Made known genuine (.builtin b)
  | special (form : SpecialForm) : Made known genuine (.special form)
  | ref (id : RefId) : Made known genuine (.ref id)

/-- Procedures with such values for constants, and builtins no two of which have one name. -/
structure Distinct (known : Procedure Value → Prop) (genuine : Builtin → Prop) : Prop where
  constants : ∀ {p : Procedure Value}, known p → ∀ v ∈ p.constants, v.Made known genuine
  names : ∀ {b c : Builtin}, genuine b → genuine c → b.name = c.name → b = c

variable {known : Procedure Value → Prop} {genuine : Builtin → Prop}

theorem Alike.alikeness : Alikeness (Alike known) where
  arity h := (Value.sameProcedure_iff.mp h.2.2).1
  same := by
    intro p q r s h g
    rw [Bool.eq_iff_iff]
    constructor
    · exact fun same => Value.sameProcedure_trans (Value.sameProcedure_comm h.2.2)
        (Value.sameProcedure_trans same g.2.2)
    · exact fun same => Value.sameProcedure_trans h.2.2
        (Value.sameProcedure_trans same (Value.sameProcedure_comm g.2.2))

theorem Alike.refl {p : Procedure Value} (h : known p) : Alike known p p :=
  ⟨h, h, Value.sameProcedure_self p⟩

theorem Alike.symm {p q : Procedure Value} (h : Alike known p q) : Alike known q p :=
  ⟨h.2.1, h.1, Value.sameProcedure_comm h.2.2⟩

theorem Alike.trans {p q r : Procedure Value} (h : Alike known p q) (g : Alike known q r) : Alike known p r :=
  ⟨h.1, g.2.1, Value.sameProcedure_trans h.2.2 g.2.2⟩

theorem Alike.code {p q : Procedure Value} (h : Alike known p q) : p.code = q.code :=
  (Value.sameProcedure_iff.mp h.2.2).2.1

theorem Alike.globals {p q : Procedure Value} (h : Alike known p q) : p.globals = q.globals :=
  (Value.sameProcedure_iff.mp h.2.2).2.2.2

namespace Value

mutual

theorem matches_of_same (names : ∀ {b c : Builtin}, genuine b → genuine c → b.name = c.name → b = c) :
    ∀ {v w : Value}, v.Made known genuine → w.Made known genuine →
    same v w = true → v.Matches (Alike known) w
  | null, w, _, _, h => by cases w <;> first | exact .null | cases h
  | bool a, w, _, _, h => by
    cases w with
    | bool b =>
      obtain rfl : a = b := by simpa [same] using h
      exact .bool a
    | _ => cases h
  | integer a, w, _, _, h => by
    cases w with
    | integer b =>
      obtain rfl : a = b := by simpa [same] using h
      exact .integer a
    | _ => cases h
  | float a, w, _, _, h => by
    cases w with
    | float b =>
      obtain rfl : a = b := toBits_inj.mp (by simpa [same] using h)
      exact .float a
    | _ => cases h
  | string a, w, _, _, h => by
    cases w with
    | string b =>
      obtain rfl : a = b := by simpa [same] using h
      exact .string a
    | _ => cases h
  | symbol a, w, _, _, h => by
    cases w with
    | symbol b =>
      obtain rfl : a = b := by simpa [same] using h
      exact .symbol a
    | _ => cases h
  | pair a b, w, made, other, h => by
    cases w with
    | pair c d =>
      obtain ⟨car, cdr⟩ := (Bool.and_eq_true _ _).mp h
      cases made with
      | pair madeCar madeCdr =>
        cases other with
        | pair otherCar otherCdr =>
          exact .pair (matches_of_same names madeCar otherCar car) (matches_of_same names madeCdr otherCdr cdr)
    | _ => cases h
  | vector items, w, made, other, h => by
    cases w with
    | vector others =>
      cases made with
      | vector each =>
        cases other with
        | vector each' => exact .vector (matches_of_sameEach names each each' h)
    | _ => cases h
  | procedure p, w, made, other, h => by
    cases w with
    | procedure q =>
      cases made with
      | procedure body =>
        cases other with
        | procedure body' => exact .procedure ⟨body, body', h⟩
    | _ => cases h
  | closure p captured, w, made, other, h => by
    cases w with
    | closure q others =>
      obtain ⟨bodies, each⟩ := (Bool.and_eq_true _ _).mp h
      cases made with
      | closure body values =>
        cases other with
        | closure body' values' =>
          exact .closure ⟨body, body', bodies⟩ (matches_of_sameEach names values values' each)
    | _ => cases h
  | builtin a, w, made, other, h => by
    cases w with
    | builtin b =>
      cases made with
      | builtin first =>
        cases other with
        | builtin second =>
          obtain rfl : a = b := names first second (by simpa [same] using h)
          exact .builtin a
    | _ => cases h
  | special a, w, _, _, h => by
    cases w with
    | special b =>
      obtain rfl : a = b := by simpa [same] using h
      exact .special a
    | _ => cases h
  | ref a, w, _, _, h => by
    cases w with
    | ref b =>
      obtain rfl : a = b := by simpa [same] using h
      exact .ref a
    | _ => cases h
termination_by structural v => v

theorem matches_of_sameEach
    (names : ∀ {b c : Builtin}, genuine b → genuine c → b.name = c.name → b = c) : ∀ {vs ws : List Value}, (∀ v ∈ vs, v.Made known genuine) →
    (∀ w ∈ ws, w.Made known genuine) → sameEach vs ws = true → List.Forall₂ (Matches (Alike known)) vs ws
  | [], ws, _, _, h => by cases ws <;> first | exact .nil | cases h
  | v :: vs, ws, made, other, h => by
    cases ws with
    | nil => cases h
    | cons w ws =>
      obtain ⟨first, rest⟩ := (Bool.and_eq_true _ _).mp h
      obtain ⟨madeFirst, madeRest⟩ := List.forall_mem_cons.mp made
      obtain ⟨otherFirst, otherRest⟩ := List.forall_mem_cons.mp other
      exact .cons (matches_of_same names madeFirst otherFirst first)
        (matches_of_sameEach names madeRest otherRest rest)
termination_by structural vs => vs

end

mutual

/-- Values that differ in nothing but procedures alike are equal. -/
theorem Matches.equal {v w : Value} (h : v.Matches (Alike known) w) : Value.same v w = true := by
  cases h with
  | pair car cdr => simp only [Value.same, Matches.equal car, Matches.equal cdr, Bool.and_self]
  | vector items => exact Matches.equalEach items
  | procedure bodies => exact bodies.2.2
  | closure bodies captured => simp only [Value.same, bodies.2.2, Matches.equalEach captured, Bool.and_self]
  | _ => exact same_self _

theorem Matches.equalEach {vs ws : List Value} (h : List.Forall₂ (Matches (Alike known)) vs ws) :
    Value.sameEach vs ws = true := by
  cases h with
  | nil => rfl
  | cons first rest => simp only [Value.sameEach, Matches.equal first, Matches.equalEach rest, Bool.and_self]

end

end Value

theorem Alike.constants (distinct : Distinct known genuine) {p q : Procedure Value} (h : Alike known p q) :
    List.Forall₂ (Matches (Alike known)) p.constants q.constants :=
  Value.matches_of_sameEach distinct.names (distinct.constants h.1) (distinct.constants h.2.1)
    (Value.sameProcedure_iff.mp h.2.2).2.2.1

theorem Value.Within.alike {v : Value} (h : v.Within known) : v.Matches (Alike known) v :=
  h.mono fun twins => twins.1 ▸ Alike.refl twins.2

end StackLisp
