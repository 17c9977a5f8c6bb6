import StackLisp.Proofs.Parallel

/-!
Values, stores and scenes with known procedures only. Such a scene comes to nothing with an unknown
procedure: a value is made of operands, constants, arguments, local slots and captured values.
-/

namespace StackLisp

open Value (Matches)

variable {known : Procedure Value → Prop}

/-- A known procedure beside itself. -/
def Twins (known : Procedure Value → Prop) (p q : Procedure Value) : Prop :=
  p = q ∧ known p

theorem Twins.alikeness : Alikeness (Twins known) where
  arity h := by rw [h.1]
  same h g := by rw [h.1, g.1]

/-- Every procedure in the value is known. -/
def Value.Within (known : Procedure Value → Prop) (v : Value) : Prop :=
  v.Matches (Twins known) v

mutual

theorem Value.Matches.eq_of_twins {v w : Value} (h : v.Matches (Twins known) w) : v = w := by
  cases h with
  | pair car cdr => rw [car.eq_of_twins, cdr.eq_of_twins]
  | vector items => rw [eq_of_twinsEach items]
  | procedure bodies => rw [bodies.1]
  | closure bodies captured => rw [bodies.1, eq_of_twinsEach captured]
  | _ => rfl

theorem eq_of_twinsEach {as bs : List Value} (h : List.Forall₂ (Matches (Twins known)) as bs) :
    as = bs := by
  cases h with
  | nil => rfl
  | cons first rest => rw [first.eq_of_twins, eq_of_twinsEach rest]

end

theorem within_of_twins {as bs : List Value} (h : List.Forall₂ (Matches (Twins known)) as bs) :
    ∀ v ∈ as, v.Within known := by
  obtain rfl := eq_of_twinsEach h
  show ∀ v ∈ as, v.Matches (Twins known) v
  exact List.forall₂_same.mp h

theorem twins_of_within {as : List Value} (h : ∀ v ∈ as, v.Within known) :
    List.Forall₂ (Matches (Twins known)) as as :=
  List.forall₂_same.mpr h

def Store.Within (known : Procedure Value → Prop) (s : Store) : Prop :=
  s.Matches (Twins known) s

theorem eq_of_forall₂ {α : Type} {R : α → α → Prop} (equal : ∀ {a b : α}, R a b → a = b) {as bs : List α}
    (h : List.Forall₂ R as bs) : as = bs := by
  have same : List.Forall₂ (· = ·) as bs := h.imp fun _ _ => equal
  rwa [List.forall₂_eq_eq_eq] at same

theorem eq_of_rel {α : Type} {R : α → α → Prop} (equal : ∀ {a b : α}, R a b → a = b) {x y : Option α}
    (h : Option.Rel R x y) : x = y := by
  cases h with
  | none => rfl
  | some value => rw [equal value]

/-- Stores that match by known procedures beside themselves hold the same. -/
theorem Store.Matches.eq_of_twins {s t : Store} (h : s.Matches (Twins known) t) :
    s.namespaces = t.namespaces ∧ s.refs = t.refs := by
  have entry {e f : String × Entry} (h : Entry.Matches (Twins known) e f) : e = f := by
    obtain ⟨name, hidden, value⟩ := e
    obtain ⟨other, hidden', value'⟩ := f
    obtain ⟨rfl, rfl, values⟩ := h
    have value := eq_of_rel Value.Matches.eq_of_twins values
    simp only at value
    rw [value]
  have space {m n : Namespace} (h : m.Matches (Twins known) n) : m = n := by
    obtain ⟨name, parent, entries⟩ := m
    obtain ⟨name', parent', entries'⟩ := n
    obtain ⟨rfl, rfl, same⟩ := h
    have entries := eq_of_forall₂ entry same
    simp only at entries
    rw [entries]
  exact ⟨eq_of_forall₂ space h.namespaces,
    Array.toList_inj.mp (eq_of_forall₂ (eq_of_rel Value.Matches.eq_of_twins) h.refs)⟩

def Fault.Within (known : Procedure Value → Prop) (f : Fault) : Prop :=
  f.Matches (Twins known) f

structure Scene.Within (known : Procedure Value → Prop) (s : Scene) : Prop where
  procedure : known s.closure.procedure
  constants : ∀ v ∈ s.chunk.constants, v.Within known
  captured : ∀ v ∈ s.closure.captured, v.Within known
  args : ∀ v ∈ s.args, v.Within known
  saved : ∀ vs ∈ s.saved, ∀ v ∈ vs, v.Within known
  stack : ∀ v ∈ s.stack, v.Within known
  locals : ∀ v, some v ∈ s.locals → v.Within known

namespace Scene

variable {s : Scene} {σ : Store}

theorem within_iff : s.Within known ↔ s.Matches (Twins known) s := by
  constructor
  · intro h
    refine ⟨⟨rfl, twins_of_within h.constants, twins_of_within h.captured, twins_of_within h.args, ?_,
      twins_of_within h.stack, ?_⟩, ⟨rfl, h.procedure⟩, rfl, rfl⟩
    · exact List.forall₂_same.mpr fun vs member => twins_of_within (h.saved vs member)
    · intro k
      cases found : s.slot? k with
      | none => exact .none
      | some v =>
        refine .some (h.locals v (List.mem_of_getElem? (i := k) ?_))
        exact Option.join_eq_some_iff.mp found
  · intro h
    refine ⟨h.body.2, within_of_twins h.constants, within_of_twins h.captured,
      within_of_twins h.args, ?_, within_of_twins h.stack, ?_⟩
    · exact fun vs member => within_of_twins (List.forall₂_same.mp h.saved vs member)
    · intro v member
      obtain ⟨k, found⟩ := List.getElem?_of_mem member
      have entry := h.locals k
      rw [show s.slot? k = some v from Option.join_eq_some_iff.mpr found] at entry
      cases entry with
      | some value => exact value

theorem Within.push (h : s.Within known) {v : Value} (value : v.Within known) :
    (s.push v).Within known :=
  { h with stack := List.forall_mem_cons.mpr ⟨value, h.stack⟩ }

end Scene

/-- What a turn gives away has known procedures only. -/
def Turn.Within (known : Procedure Value → Prop) : Turn → Prop
  | .go s σ => s.Within known ∧ σ.Within known
  | .answer v => v.Within known
  | .call callee args s => callee.Within known ∧ (∀ v ∈ args, v.Within known) ∧ s.Within known
  | .leave callee args => callee.Within known ∧ ∀ v ∈ args, v.Within known
  | .fault f => f.Within known
  | .breach _ | .stray => True

namespace Scene

variable {s : Scene} {σ : Store}

theorem within_of_agrees {x : Turn} (h : x.Agrees (Twins known) x) : x.Within known := by
  cases h with
  | go scenes stores => exact ⟨within_iff.mpr scenes, stores⟩
  | answer value => exact value
  | call callee args scenes => exact ⟨callee, within_of_twins args, within_iff.mpr scenes⟩
  | leave callee args => exact ⟨callee, within_of_twins args⟩
  | fault fault => exact fault
  | breach | stray => trivial

/-- No instruction comes by a procedure that is not known. -/
theorem turn_within (h : s.Within known) (store : σ.Within known) (i : Instruction) :
    (s.turn σ i).Within known :=
  within_of_agrees (turn_agrees Twins.alikeness (within_iff.mp h) store i fun _ => Iff.rfl)

end Scene

end StackLisp
