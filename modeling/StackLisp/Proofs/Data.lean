import StackLisp.Proofs.Runs
import StackLisp.Reader

/-!
Data: the values that a reader makes of a text. They are made of the empty list, Booleans, numbers, strings
and symbols, in pairs and vectors.
-/

namespace StackLisp

/-- A value without procedures, callables and references. -/
inductive Value.IsData : Value → Prop
  | null : IsData .null
  | bool (b : Bool) : IsData (.bool b)
  | integer (n : Int64) : IsData (.integer n)
  | float (x : Float) : IsData (.float x)
  | string (text : String) : IsData (.string text)
  | symbol (name : String) : IsData (.symbol name)
  | pair {car cdr : Value} (first : IsData car) (rest : IsData cdr) : IsData (.pair car cdr)
  | vector {items : List Value} (each : ∀ v ∈ items, IsData v) : IsData (.vector items)

theorem Value.isData_ofListOnto {items : List Value} {tail : Value} (each : ∀ v ∈ items, v.IsData)
    (last : tail.IsData) : (ofListOnto items tail).IsData := by
  induction items with
  | nil => exact last
  | cons v vs ih =>
    obtain ⟨first, rest⟩ := List.forall_mem_cons.mp each
    exact .pair first (ih rest)

namespace Reader

/-- The items of the open forms are data. -/
def Context.IsData : Context → Prop
  | .list items | .dotted items | .vector items => ∀ v ∈ items, v.IsData
  | .closing items tail => (∀ v ∈ items, v.IsData) ∧ tail.IsData
  | .quote => True

structure State.IsData (s : State) : Prop where
  contexts : ∀ c ∈ s.contexts, c.IsData
  forms : ∀ v ∈ s.forms, v.IsData

variable {s t : State} {v : Value} {forms : List Value} {contexts : List Context} {c : Char}

theorem isData_atom (cs : List Char) : (atom cs).IsData := by
  unfold atom
  repeat' split
  all_goals constructor

theorem each_reverse {items : List Value} (h : ∀ v ∈ items, v.IsData) : ∀ v ∈ items.reverse, v.IsData :=
  fun v member => h v (List.mem_reverse.mp member)

theorem isData_deliver (outer : ∀ c ∈ contexts, c.IsData) (before : ∀ v ∈ forms, v.IsData)
    (value : v.IsData) (h : deliver v forms contexts = .ok s) : s.IsData := by
  induction contexts generalizing v with
  | nil =>
    obtain rfl := Except.ok.inj h
    exact ⟨outer, List.forall_mem_cons.mpr ⟨value, before⟩⟩
  | cons context contexts ih =>
    obtain ⟨first, rest⟩ := List.forall_mem_cons.mp outer
    cases context with
    | list items =>
      unfold deliver at h
      split at h
      all_goals obtain rfl := Except.ok.inj h
      · exact ⟨List.forall_mem_cons.mpr ⟨first, rest⟩, before⟩
      · exact ⟨List.forall_mem_cons.mpr ⟨List.forall_mem_cons.mpr ⟨value, first⟩, rest⟩, before⟩
    | dotted items =>
      obtain rfl := Except.ok.inj h
      exact ⟨List.forall_mem_cons.mpr ⟨⟨first, value⟩, rest⟩, before⟩
    | vector items =>
      obtain rfl := Except.ok.inj h
      exact ⟨List.forall_mem_cons.mpr ⟨List.forall_mem_cons.mpr ⟨value, first⟩, rest⟩, before⟩
    | quote => exact ih rest (.pair (.symbol "quote") (.pair value .null)) h
    | closing items tail => cases h

theorem isData_start (outer : ∀ c ∈ contexts, c.IsData) (before : ∀ v ∈ forms, v.IsData)
    (h : start contexts forms c = .ok s) : s.IsData := by
  unfold start at h
  split at h
  · exact Except.ok.inj h ▸ ⟨outer, before⟩
  split at h
  · exact Except.ok.inj h ▸ ⟨outer, before⟩
  split at h
  next items tail rest =>
    obtain ⟨first, others⟩ := List.forall_mem_cons.mp outer
    exact isData_deliver others before (Value.isData_ofListOnto (each_reverse first.1) first.2) h
  next => cases h
  next items rest _ =>
    obtain ⟨first, others⟩ := List.forall_mem_cons.mp outer
    exact isData_deliver others before (Value.isData_ofListOnto (each_reverse first) .null) h
  next items rest _ =>
    obtain ⟨first, others⟩ := List.forall_mem_cons.mp outer
    exact isData_deliver others before (.vector (each_reverse first)) h
  next => exact Except.ok.inj h ▸ ⟨List.forall_mem_cons.mpr ⟨fun _ => nofun, outer⟩, before⟩
  next => exact Except.ok.inj h ▸ ⟨List.forall_mem_cons.mpr ⟨fun _ => nofun, outer⟩, before⟩
  next => exact Except.ok.inj h ▸ ⟨List.forall_mem_cons.mpr ⟨trivial, outer⟩, before⟩
  next => exact Except.ok.inj h ▸ ⟨outer, before⟩
  next =>
    split at h
    · cases h
    · exact Except.ok.inj h ▸ ⟨outer, before⟩

theorem State.IsData.step (data : s.IsData) (h : step s c = .ok t) : t.IsData := by
  unfold Reader.step at h
  split at h
  next => exact isData_start data.contexts data.forms h
  next => exact Except.ok.inj h ▸ ⟨data.contexts, data.forms⟩
  next cs =>
    split at h
    next =>
      obtain ⟨u, delivered, started⟩ := bind_eq_ok.mp h
      have later := isData_deliver data.contexts data.forms (isData_atom _) delivered
      exact isData_start later.contexts later.forms started
    next => exact Except.ok.inj h ▸ ⟨data.contexts, data.forms⟩
  next cs =>
    split at h
    next => exact isData_deliver data.contexts data.forms (.string _) h
    next =>
      split at h <;> exact Except.ok.inj h ▸ ⟨data.contexts, data.forms⟩
  next => exact Except.ok.inj h ▸ ⟨data.contexts, data.forms⟩

theorem State.IsData.steps {cs : List Char} (data : s.IsData) (h : cs.foldlM Reader.step s = .ok t) :
    t.IsData := by
  induction cs generalizing s with
  | nil => exact Except.ok.inj h ▸ data
  | cons c cs ih =>
    obtain ⟨u, first, rest⟩ := bind_eq_ok.mp h
    exact ih (data.step first) rest

theorem State.IsData.close {vs : List Value} (data : s.IsData) (h : close s = .ok vs) : ∀ v ∈ vs, v.IsData := by
  unfold Reader.close at h
  split at h
  next => exact Except.ok.inj h ▸ each_reverse data.forms
  all_goals cases h

theorem State.IsData.finish {vs : List Value} (data : s.IsData) (h : finish s = .ok vs) :
    ∀ v ∈ vs, v.IsData := by
  unfold Reader.finish at h
  split at h
  next => exact data.close h
  next => exact data.close h
  next cs =>
    obtain ⟨u, delivered, closed⟩ := bind_eq_ok.mp h
    exact (isData_deliver data.contexts data.forms (isData_atom _) delivered).close closed
  all_goals cases h

end Reader

/-- All that is read is data. -/
theorem read_isData {text : String} {vs : List Value} (h : read text = .ok vs) : ∀ v ∈ vs, v.IsData := by
  obtain ⟨s, steps, finished⟩ := bind_eq_ok.mp h
  have data : Reader.State.IsData {} := ⟨fun _ => nofun, fun _ => nofun⟩
  exact (data.steps steps).finish finished

end StackLisp
