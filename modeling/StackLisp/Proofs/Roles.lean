import StackLisp.Proofs.Hereditary
import StackLisp.Proofs.Charts
import StackLisp.Proofs.Whereabouts

/-!
The roles of values: those that programs hand around, references, and templates for closures. A plain value
has no reference in it but those that closures have captured, where their code expects them. Equal
procedures serve as templates for the same captured values.
-/

namespace StackLisp

/-- What a value is there for. A template says which of the captured values are references. -/
inductive Role where
  | plain
  | reference
  | template (refs : Nat → Bool)

/-- The role of a captured value. -/
def Role.ofCaptured : Bool → Role
  | true => .reference
  | false => .plain

/-- Whether an operation in place of a call asks for operands only, none of them a reference. -/
def Opcode.operates (op : Opcode) : Bool :=
  !op.conveys && !op.effect.exits && op.effect.operand = .nothing

/-- Calls of the builtin are written in place, if at all, as operations on the arguments. -/
def Builtin.Operates (b : Builtin) : Prop :=
  ∀ {count : Nat} {op : Opcode} {times : Nat},
    b.intrinsic.bind (·.expand? count) = some (op, times) → op.operates

/-- The values that have a role. A procedure is charted for the captured values it is a template for. -/
inductive Value.Serves : Role → Value → Prop
  | scalar {v : Value} (scalar : v.isScalar) (other : ∀ id, v ≠ .ref id) : Serves .plain v
  | pair {car cdr : Value} (first : Serves .plain car) (rest : Serves .plain cdr) :
    Serves .plain (.pair car cdr)
  | vector {items : List Value} (each : ∀ v ∈ items, Serves .plain v) : Serves .plain (.vector items)
  | builtin {b : Builtin} (operates : b.Operates) : Serves .plain (.builtin b)
  | reference (id : RefId) : Serves .reference (.ref id)
  | template {p : Procedure Value} {refs : Nat → Bool} (serves : Value → (Nat → Bool) → Prop)
    (role : Value → Role) (formed : p.chunk.Formed)
    (chart : ∃ D, (Whereabouts.view ⟨refs, serves⟩).Charted p.constants p.code D ∧ some {} ≤ D 0)
    (constants : ∀ v ∈ p.constants, Serves (role v) v)
    (each : ∀ v refs, serves v refs → Serves (.template refs) v) : Serves (.template refs) (.procedure p)
  | closure {p : Procedure Value} {captured : List Value} {refs : Nat → Bool}
    (body : Serves (.template refs) (.procedure p))
    (each : ∀ {k : Nat} {v : Value}, captured[k]? = some v → Serves (.ofCaptured (refs k)) v) :
    Serves .plain (.closure p captured)

/-- A setting where templates are what serves as such. -/
def Setting.genuine (refs : Nat → Bool) : Setting :=
  ⟨refs, fun v refs => v.Serves (.template refs)⟩

namespace Whereabouts

variable {refs : Nat → Bool} {serves genuine : Value → (Nat → Bool) → Prop} {pool more : List Value}
  {code : List Instruction} {D : Nat → Option Whereabouts}

/-- A chart that makes do with some templates for some constants makes do with others for others that are
pushed alike. -/
theorem charted_of_templates (h : (view ⟨refs, serves⟩).Charted pool code D)
    (pushed : ∀ k : Nat, Content.ofConstant pool[k]? = Content.ofConstant more[k]?)
    (each : ∀ {k : Nat} {p q : Procedure Value} {refs : Nat → Bool}, pool[k]? = some (.procedure p) → more[k]? = some (.procedure q) →
      serves (.procedure p) refs → genuine (.procedure q) refs) :
    (view ⟨refs, genuine⟩).Charted more code D where
  allows {pc X} known := by
    obtain ⟨i, here, allows⟩ := h.allows known
    refine ⟨i, here, ?_⟩
    obtain ⟨op, operand, small⟩ := i
    cases op <;> try exact allows
    intro q found
    have ready := pushed operand
    rw [found] at ready
    obtain ⟨p, own⟩ : ∃ p, pool[operand]? = some (.procedure p) := by
      cases there : pool[operand]? with
      | none => rw [there] at ready; cases ready
      | some v => rw [there] at ready; cases v <;> first | exact ⟨_, rfl⟩ | cases ready
    obtain ⟨refs, serves, suits⟩ := allows p own
    exact ⟨refs, each own found serves, suits⟩
  next {pc i} here := by
    have same : (view ⟨refs, genuine⟩).onward more i (D pc) = (view ⟨refs, serves⟩).onward pool i (D pc) := by
      unfold View.onward
      refine congrArg (fun f => if i.op.effect.exits then none else (D pc).map f) (funext fun X => ?_)
      obtain ⟨op, operand, small⟩ := i
      cases op <;> first | rfl | exact congrArg X.push (pushed operand).symm
    rw [same]
    exact h.next here
  target known here jumps := h.target known here jumps

end Whereabouts

theorem Value.sameEach_at {us vs : List Value} (h : sameEach us vs = true) (k : Nat) :
    (us[k]? = none ∧ vs[k]? = none) ∨ ∃ u v, us[k]? = some u ∧ vs[k]? = some v ∧ (u == v) = true := by
  induction us generalizing vs k with
  | nil =>
    cases vs with
    | nil => exact .inl ⟨rfl, rfl⟩
    | cons v vs => cases h
  | cons u us ih =>
    cases vs with
    | nil => cases h
    | cons v vs =>
      rw [sameEach, Bool.and_eq_true] at h
      cases k with
      | zero => exact .inr ⟨u, v, rfl, rfl, h.1⟩
      | succ k => exact ih h.2 k

theorem Content.ofConstant_congr {u v : Value} (h : (u == v) = true) :
    ofConstant (some u) = ofConstant (some v) := by
  cases u <;> cases v <;> first | rfl | cases h

/-- A value with a role. -/
def Value.HasRole (v : Value) : Prop :=
  ∃ r, v.Serves r

namespace Value.Serves

variable {u v : Value} {r s : Role} {refs : Nat → Bool}

theorem of_reference (h : v.Serves .reference) : ∃ id, v = .ref id := by
  cases h with
  | reference id => exact ⟨id, rfl⟩

theorem ne_ref (h : v.Serves .plain) (id : RefId) : v ≠ .ref id := by
  rintro rfl
  cases h with
  | scalar _ other => exact other id rfl

theorem ne_procedure (h : v.Serves .plain) (p : Procedure Value) : v ≠ .procedure p := by
  rintro rfl
  cases h with
  | scalar scalar => cases scalar

theorem of_template (h : v.Serves (.template refs)) : ∃ p, v = .procedure p ∧ p.chunk.Formed ∧
    (∃ D, (Whereabouts.view (.genuine refs)).Charted p.constants p.code D ∧ some {} ≤ D 0) ∧
      ∀ v ∈ p.constants, v.HasRole := by
  cases h with
  | @template p refs serves role formed chart constants each =>
    obtain ⟨D, charted, start⟩ := chart
    refine ⟨p, rfl, formed, ⟨D, Whereabouts.charted_of_templates charted (fun _ => rfl) ?_, start⟩,
      fun v member => ⟨role v, constants v member⟩⟩
    intro k p q refs here there serves
    obtain rfl := Value.procedure.inj (Option.some.inj (here.symm.trans there))
    exact each _ _ serves

/-- A procedure with a chart, all of whose constants have roles, is a template. -/
theorem of_chart {p : Procedure Value} (formed : p.chunk.Formed)
    (chart : ∃ D, (Whereabouts.view (.genuine refs)).Charted p.constants p.code D ∧ some {} ≤ D 0)
    (constants : ∀ v ∈ p.constants, v.HasRole) : (Value.procedure p).Serves (.template refs) := by
  have roles : ∀ v : Value, ∃ r, v ∈ p.constants → v.Serves r := fun v => by
    by_cases member : v ∈ p.constants
    · obtain ⟨r, serves⟩ := constants v member
      exact ⟨r, fun _ => serves⟩
    · exact ⟨.plain, fun other => absurd other member⟩
  choose role serves using roles
  exact .template (fun v refs => v.Serves (.template refs)) role formed chart serves fun _ _ => id

theorem of_closure {p : Procedure Value} {captured : List Value} (h : (Value.closure p captured).Serves .plain) :
    ∃ refs, (Value.procedure p).Serves (.template refs) ∧
      ∀ {k : Nat} {v : Value}, captured[k]? = some v → v.Serves (.ofCaptured (refs k)) := by
  cases h with
  | scalar scalar => cases scalar
  | closure body each => exact ⟨_, body, each⟩

theorem of_builtin {b : Builtin} (h : (Value.builtin b).Serves .plain) : b.Operates := by
  cases h with
  | scalar scalar => cases scalar
  | builtin operates => exact operates

theorem plain_of_same (h : v.Serves .plain) (g : u.Serves s) (same : (u == v) = true) : u.Serves .plain := by
  cases g with
  | reference id =>
    cases v <;> try cases same
    exact absurd rfl (h.ne_ref _)
  | template =>
    cases v <;> try cases same
    exact absurd rfl (h.ne_procedure _)
  | scalar scalar other => exact .scalar scalar other
  | pair first rest => exact .pair first rest
  | vector each => exact .vector each
  | builtin operates => exact .builtin operates
  | closure body each => exact .closure body each

/-- A value that equals one in a role, and has a role itself, has that one. -/
theorem congr (h : v.Serves r) (g : u.Serves s) (same : (u == v) = true) : u.Serves r := by
  induction h generalizing u s with
  | scalar scalar other => exact plain_of_same (.scalar scalar other) g same
  | pair first rest => exact plain_of_same (.pair first rest) g same
  | vector each => exact plain_of_same (.vector each) g same
  | builtin operates => exact plain_of_same (.builtin operates) g same
  | closure body each => exact plain_of_same (.closure body each) g same
  | reference id =>
    cases u <;> try cases same
    exact .reference _
  | @template p refs serves role formed chart constants each _ ih =>
    cases u <;> try cases same
    rename_i q
    obtain ⟨-, code, equal, -⟩ := Value.sameProcedure_iff.mp same
    cases g with
    | scalar scalar => cases scalar
    | @template _ _ _ others formed' chart' constants' each' =>
      obtain ⟨D, charted, start⟩ := chart
      refine .template (fun v refs => v.Serves (.template refs)) others formed' ⟨D, ?_, start⟩ constants'
        fun _ _ => id
      rw [code]
      refine Whereabouts.charted_of_templates charted (fun k => ?_) fun {k p' q' refs'} here there serves => ?_
      · rcases Value.sameEach_at equal k with ⟨none, none'⟩ | ⟨u, v, there, here, alike⟩
        · rw [none, none']
        · rw [there, here]
          exact (Content.ofConstant_congr alike).symm
      · rcases Value.sameEach_at equal k with ⟨none, -⟩ | ⟨u, v, there', here', alike⟩
        · cases none.symm.trans there
        · obtain rfl := Option.some.inj (there.symm.trans there')
          obtain rfl := Option.some.inj (here.symm.trans here')
          exact ih _ _ serves (constants' _ (List.mem_of_getElem? there)) alike

end Value.Serves

theorem Value.hereditary_plain : Hereditary (Value.Serves .plain) where
  scalar := .scalar
  pair := ⟨fun h => by
    cases h with
    | scalar scalar => cases scalar
    | pair first rest => exact ⟨first, rest⟩, fun h => .pair h.1 h.2⟩
  vector := ⟨fun h => by
    cases h with
    | scalar scalar => cases scalar
    | vector each => exact each, .vector⟩

end StackLisp
