import StackLisp.Proofs.Beside
import StackLisp.Proofs.Staging

/-!
Tail calls as calls that are returned from. The machine makes a tail call in the frame at hand, in place or
after a change of frames. Its runs end as they would if every tail call were a call in a scene of its own,
with a return after it.
-/

namespace StackLisp

/-- The scene with nothing left to do but to return what it is given. -/
def Scene.returning (s : Scene) : Scene :=
  { s with chunk := { s.chunk with code := [Opcode.ret.bare] }, pc := 0 }

/-- A tail call from a scene is a call, and the scene returns its value. -/
def Turn.nest (s : Scene) : Turn → Turn
  | .leave callee args => .call callee args s.returning
  | t => t

/-- Tail calls wait for their values. -/
def Reading.nested : Reading :=
  ⟨Procedure.chunk, fun σ s i => (s.turn σ i).nest (s.past i)⟩

theorem Turn.edits_nest (s : Scene) (change : Option Edit) (t : Turn) :
    (t.nest s).edits change = t.edits change := by
  cases t <;> rfl

theorem Scene.spent_returning (s : Scene) : Reading.nested.Spent s.returning :=
  fun _ _ _ => ⟨2, rfl, rfl⟩

variable {known : Procedure Value → Prop}

theorem Fault.Matches.eq_of_twins {f g : Fault} (h : f.Matches (Twins known) g) : f = g := by
  cases h with
  | plain => rfl
  | raised value => rw [value.eq_of_twins]

theorem Outcome.Alike.eq_of_twins {a b : Outcome} (h : a.Alike (.matching (Twins known)) b) : a = b := by
  cases h with
  | value value => rw [Value.Matches.eq_of_twins value]
  | fault fault => rw [Fault.Matches.eq_of_twins fault]
  | breach breach => exact congrArg Outcome.breach breach

theorem Edit.Matches.eq_of_twins {e f : Edit} (h : e.Matches (Twins known) f) : e = f := by
  cases h with
  | declare | hide => rfl
  | bind globals name value => rw [value.eq_of_twins]

namespace Play

theorem enters_nested (constants : ∀ {p : Procedure Value}, known p → ∀ v ∈ p.constants, v.Within known) :
    Enters (.matching (Twins known)) .nested .plain := by
  refine enters_matching ?_
  rintro p q ⟨rfl, inside⟩
  exact ⟨rfl, rfl, rfl, twins_of_within (constants inside)⟩

/-- A tail call waits in a spent scene on one side, and not at all on the other. -/
theorem alike_follow_nest {L : Likeness} {σ τ : Store} {ws xs : List Waiting} (s : Scene)
    (stores : σ.Matches L.bodies τ) (waits : L.Waits .nested ws xs) {x y : Turn} (turns : x.Alike L y) :
    Alike L .nested (follow σ ws (x.nest s)) (follow τ xs y) := by
  cases turns with
  | leave callee args => exact ⟨stores, .calling callee args, .spent s.spent_returning waits⟩
  | go scenes kept => exact ⟨kept, .running scenes, waits⟩
  | answer value => exact ⟨stores, .returning value, waits⟩
  | call callee args push => exact ⟨stores, .calling callee args, .resume push waits⟩
  | fault fault => exact ⟨stores, .unwinding fault, waits⟩
  | breach breach => exact ⟨stores, .breaching breach, waits⟩
  | stray => exact ⟨stores, .straying, waits⟩

/-- A tail call that waits leaves a spent scene; all else is the same. -/
theorem meets_nested {s t : Scene} {σ τ : Store} {ws xs : List Waiting}
    (scenes : (Likeness.matching (Twins known)).scenes s t) (stores : σ.Matches (Twins known) τ)
    (waits : (Likeness.matching (Twins known)).Waits .nested ws xs) :
    Meets (.matching (Twins known)) .nested .plain ⟨σ, .running s, ws⟩ ⟨τ, .running t, xs⟩ := by
  obtain ⟨scenes, slots⟩ := scenes
  have same : s.chunk.code[s.pc]? = t.chunk.code[t.pc]? := by rw [scenes.code, scenes.pc]
  cases here : s.chunk.code[s.pc]? with
  | none => exact meets_beyond stores waits here (same ▸ here)
  | some i =>
    have turns := Scene.turn_alike Twins.alikeness scenes slots stores i
    have there := same ▸ here
    have changes := turns.edits (i.rel_edit? s.chunk.globals scenes.stack)
    refine .once ?_ ?_
    · rw [edits_running here, edits_running there, ← scenes.globals]
      exact (Turn.edits_nest (s.past i) _ (s.turn σ i)).symm ▸ changes
    · rw [step_running here, step_running there]
      exact alike_follow_nest (s.past i) stores waits turns

end Play

namespace Machine.State

/-- The machine ends just if the nested reading does, with the same value, fault or breach, after the same
changes to the globals, and with the same globals and references. -/
theorem ends_iff_nested (registry : Registry known)
    (careful : ∀ {p : Procedure Value}, known p → p.chunk.Careful) {m : Machine} (pool : m.pool.Tidy)
    (store : m.store.Within known) {callee : Value} {args : List Value} (called : callee.Within known)
    (values : ∀ v ∈ args, v.Within known) :
    (∀ o σ edits, (Play.system .nested).Ends ⟨m.store, .calling callee args, []⟩ (o, σ) edits →
      ∃ n : Machine, State.system.Ends ⟨m, .calling callee args, []⟩ (o, n) edits ∧
        n.store.namespaces = σ.namespaces ∧ n.store.refs = σ.refs) ∧
    ∀ o n edits, State.system.Ends ⟨m, .calling callee args, []⟩ (o, n) edits →
      ∃ σ : Store, (Play.system .nested).Ends ⟨m.store, .calling callee args, []⟩ (o, σ) edits ∧
        n.store.namespaces = σ.namespaces ∧ n.store.refs = σ.refs := by
  obtain ⟨staged, played⟩ := ends_iff registry.roster
    (follows_start registry.roster careful pool store called values)
  have start : Play.Alike (.matching (Twins known)) .nested ⟨m.store, .calling callee args, []⟩
      ⟨m.store, .calling callee args, []⟩ := ⟨store, .calling called (twins_of_within values), .nil⟩
  obtain ⟨forth, back⟩ := System.together_of_progress
    (Play.going_of_alike Twins.alikeness (Play.enters_nested registry.constants) Play.meets_nested) start
  refine ⟨fun o σ edits ends => ?_, fun o n edits ends => ?_⟩
  · obtain ⟨⟨_, τ⟩, more, plays, ⟨outcomes, stores⟩, changes⟩ := forth _ _ ends
    obtain rfl := outcomes.eq_of_twins
    obtain rfl := eq_of_forall₂ Edit.Matches.eq_of_twins changes
    obtain ⟨n, machine, same⟩ := staged _ _ _ plays
    obtain ⟨namespaces, refs⟩ := Store.Matches.eq_of_twins stores
    exact ⟨n, machine, (congrArg Store.namespaces same).trans namespaces.symm,
      (congrArg Store.refs same).trans refs.symm⟩
  · obtain ⟨τ, plays, same⟩ := played _ _ _ ends
    obtain ⟨⟨_, σ⟩, more, nested, ⟨outcomes, stores⟩, changes⟩ := back _ _ plays
    obtain rfl := outcomes.eq_of_twins
    obtain rfl := eq_of_forall₂ Edit.Matches.eq_of_twins changes
    obtain ⟨namespaces, refs⟩ := Store.Matches.eq_of_twins stores
    exact ⟨σ, nested, (congrArg Store.namespaces same).trans namespaces.symm,
      (congrArg Store.refs same).trans refs.symm⟩

end Machine.State

/-- A body of one parameter that hands it on to the callable that its closure has captured. -/
def handingOn : Procedure Value where
  serial := 0
  name := none
  arity := .fixed 1
  code := [⟨.arg, 0, Nat.zero_le _⟩, ⟨.capture, 0, Nat.zero_le _⟩, ⟨.tailCall, 1, one_le_maxOperand⟩]
  constants := []
  labels := []
  stackSize := 2
  localCount := 0
  labelCount := 0
  globals := 0
  inlinable := true

theorem built_handingOn : Yields (handingOn.chunk.build (.fixed 1) .withoutInlining) {} handingOn
    { built := 1, events := [.built none 3 2 0 true] } := by
  show @Eq _ _ _
  with_unfolding_all rfl

theorem registry_handingOn : Registry (· = handingOn) where
  built := by
    rintro p rfl
    exact ⟨_, _, _, _, _, built_handingOn⟩
  identity := by
    rintro p q rfl rfl _
    rfl
  constants := by
    rintro p rfl
    exact nofun

theorem careful_handingOn : handingOn.chunk.Careful := by
  obtain ⟨checked, verified⟩ := (registry_handingOn.built rfl).verified
  exact Chunk.careful_of_no_slots verified.accepted (by decide)

/-- A closure hands null on to another closure over its procedure, in place, and that to a builtin. -/
theorem ends_iff_nested_handingOn : ∃ n : Machine,
    Machine.State.system.Ends ⟨.new {} {}, .calling (.closure handingOn
      [.closure handingOn [.builtin Builtin.vector]]) [.null], []⟩ (.value (.vector [.null]), n) [] := by
  have called : (Value.closure handingOn [.closure handingOn [.builtin Builtin.vector]]).Within (· = handingOn) :=
    Value.Matches.closure ⟨rfl, rfl⟩ (.cons (.closure ⟨rfl, rfl⟩ (.cons (.builtin _) .nil)) .nil)
  have values : ∀ v ∈ [Value.null], v.Within (· = handingOn) := by
    intro v member
    rw [List.mem_singleton.mp member]
    exact .null
  have ends := (Machine.State.ends_iff_nested registry_handingOn (by rintro p rfl; exact careful_handingOn)
    (m := .new {} {}) (Pool.tidy_new {}) ⟨.nil, .nil⟩ called values).1
  obtain ⟨n, machine, -⟩ := ends (.value (.vector [.null])) {} [] ⟨16, rfl, rfl⟩
  exact ⟨n, machine⟩

end StackLisp
