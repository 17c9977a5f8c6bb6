import StackLisp.Proofs.Sessions
import StackLisp.Proofs.Standing
import StackLisp.Proofs.Templates

/-!
References stay where they belong. Whatever a host evaluates, no value that the program hands around is a
reference or has one in its data. Where code looks into a reference or fills it, one is on top of the operands,
and each is filled once; all that can go wrong with one is that it is looked into too early.
-/

namespace StackLisp

/-- A reference comes to light when pairs and vectors are taken apart. -/
inductive Value.Leaks : Value → Prop
  | ref (id : RefId) : Leaks (.ref id)
  | car {car cdr : Value} (leaks : Leaks car) : Leaks (.pair car cdr)
  | cdr {car cdr : Value} (leaks : Leaks cdr) : Leaks (.pair car cdr)
  | item {items : List Value} {v : Value} (member : v ∈ items) (leaks : Leaks v) : Leaks (.vector items)

namespace Value.Serves

variable {v : Value}

theorem not_leaks (h : v.Serves .plain) : ¬v.Leaks := by
  intro leaks
  induction leaks with
  | ref id => exact h.ne_ref id rfl
  | car _ ih => exact ih (Value.hereditary_plain.pair.mp h).1
  | cdr _ ih => exact ih (Value.hereditary_plain.pair.mp h).2
  | item member _ ih => exact ih (Value.hereditary_plain.vector.mp h _ member)

end Value.Serves

/-- Of the values with a role, only references themselves leak. -/
theorem Value.HasRole.ref_of_leaks {v : Value} (h : v.HasRole) (leaks : v.Leaks) : ∃ id, v = .ref id := by
  obtain ⟨r, serves⟩ := h
  cases r with
  | plain => exact absurd leaks serves.not_leaks
  | reference => exact serves.of_reference
  | template refs =>
    obtain ⟨p, rfl, -⟩ := serves.of_template
    cases leaks

/-- References are operands or captured as such, and those that are to be looked into or filled are where they
are looked for. One that is to be filled is not filled yet. -/
structure Activation.Confines (σ : Store) (a : Activation) : Prop where
  args : ∀ v ∈ a.args, ¬v.Leaks
  saved : ∀ vs ∈ a.saved, ∀ v ∈ vs, ¬v.Leaks
  bare : ∀ v ∈ a.operands ++ a.closure.captured, v.Leaks → ∃ id, v = .ref id
  deref : ∀ {i}, a.procedure.code[a.pc]? = some i → i.op = .deref → ∃ id rest, a.operands = .ref id :: rest
  bindRef : ∀ {i}, a.procedure.code[a.pc]? = some i → i.op = .bindRef →
    ∃ id v rest, a.operands = .ref id :: v :: rest ∧ σ.refs[id]? = some none ∧ ¬v.Leaks

/-- The activation is about to look into a reference that is not filled yet. -/
def Activation.LooksEarly (σ : Store) (a : Activation) : Prop :=
  ∃ i id rest, a.procedure.code[a.pc]? = some i ∧ i.op = .deref ∧ a.operands = .ref id :: rest ∧
    ∀ v, σ.refs[id]? ≠ some (some v)

namespace Machine

/-- No reference leaks to where values are bound, passed, returned or raised. A fault that has to do with a
reference tells of one that was looked into too early. -/
structure State.Confines (s : State) : Prop where
  store : s.machine.store.Bears fun v => ¬v.Leaks
  active : ∀ {a}, s.control = .running a → a.Confines s.machine.store
  passed : ∀ {callee args}, s.control = .calling callee args → ¬callee.Leaks ∧ ∀ v ∈ args, ¬v.Leaks
  returned : ∀ {v}, s.control = .returning v → ¬v.Leaks
  raised : ∀ {f}, s.control = .unwinding f → ¬f.payload.Leaks ∧ (f.concernsRefs → f = .unboundRef)
  early : ∀ {f}, s.step.control = .unwinding f → f.concernsRefs →
    s.control = .unwinding f ∨ ∃ a, s.control = .running a ∧ a.LooksEarly s.machine.store

end Machine

variable {known : Procedure Value → Prop} {σ : Store} {low : Nat}

namespace Scene

variable {s : Scene} {i : Instruction}

/-- What holds where a steady scene looks into a reference or fills one. -/
theorem Steady.finds (h : s.Steady (σ.Unfilled low)) (here : s.chunk.code[s.pc]? = some i) (pops : i.pops ≤ s.stack.length) :
    (i.op = .deref → ∃ id rest, s.stack = .ref id :: rest) ∧
      (i.op = .bindRef → ∃ id v rest, s.stack = .ref id :: v :: rest ∧ σ.refs[id]? = some none ∧ v.Serves .plain) := by
  obtain ⟨refs, X, allows, orderly⟩ := h.allows here
  have tops {j : Nat} {v : Value} (there : s.stack[j]? = some v) := orderly.accords.tops there
  obtain ⟨op, k, small⟩ := i
  constructor
  · rintro rfl
    obtain ⟨suits, -⟩ := allows
    cases stack : s.stack with
    | nil => simp [stack, Instruction.pops, Opcode.effect] at pops
    | cons v rest =>
      have top : s.stack[0]? = some v := stack ▸ rfl
      obtain ⟨id, rfl⟩ := ((tops top).serves suits).of_reference
      exact ⟨id, rest, rfl⟩
  · rintro rfl
    obtain ⟨⟨slot, own, pending⟩, plain⟩ := allows
    rcases stack : s.stack with _ | ⟨v, _ | ⟨w, rest⟩⟩
    · simp [stack, Instruction.pops, Opcode.effect] at pops
    · simp [stack, Instruction.pops, Opcode.effect] at pops
    · have first : s.stack[0]? = some v := stack ▸ rfl
      have second : s.stack[1]? = some w := stack ▸ rfl
      have top := tops first
      have under := tops second
      rw [own] at top
      rw [plain 0] at under
      obtain ⟨serves, there⟩ := top
      obtain ⟨id, rfl⟩ := serves.of_reference
      exact ⟨id, w, rest, rfl, (orderly.accords.mine (p := .slot slot) pending there).2, under⟩

/-- A turn that fails for a reference that is not filled looks into it. -/
theorem turn_unbound (h : s.turn σ i = .fault .unboundRef) :
    i.op = .deref ∧ ∃ id rest, s.stack = .ref id :: rest ∧ ∀ v, σ.refs[id]? ≠ some (some v) := by
  by_cases other : i.op ∈ [.newRef, .deref, .bindRef]
  · obtain ⟨op, k, small⟩ := i
    simp only [List.mem_cons, List.not_mem_nil, or_false] at other
    unfold turn at h
    rcases other with rfl | rfl | rfl
    · cases h
    · refine ⟨rfl, ?_⟩
      cases stack : s.stack with
      | nil =>
        rw [stack] at h
        cases h
      | cons v rest =>
        rw [stack] at h
        change (s.past _).giveResult σ (v.ref?.bind σ.deref) = _ at h
        cases v <;> try cases h
        rename_i id
        refine ⟨id, rest, rfl, fun v filled => ?_⟩
        have found : σ.deref id = .ok v := by
          unfold Store.deref
          rw [filled]
        change (s.past _).giveResult σ (σ.deref id) = _ at h
        rw [found] at h
        cases h
    · match stack : s.stack with
      | [] | [_] =>
        rw [stack] at h
        cases h
      | v :: w :: rest =>
        rw [stack] at h
        change (s.past _).keep (v.ref?.bind fun id => σ.fillRef id w) = _ at h
        cases v <;> try cases h
        rename_i id
        change (s.past _).keep (σ.fillRef id w) = _ at h
        unfold Store.fillRef at h
        split at h <;> cases h
  · have spares : (s.turn σ i).Spares σ := act_spares other _
    rw [h] at spares
    cases spares

end Scene

namespace Play

theorem unwinding_of_follow {waiting : List Waiting} {t : Turn} {f : Fault}
    (h : (follow σ waiting t).doing = .unwinding f) : t = .fault f := by
  cases t <;> cases h
  rfl

/-- A call comes to no fault that has to do with references. -/
theorem call_spares {waiting : List Waiting} {callee : Value} {args : List Value} {f : Fault}
    (h : (call .plain σ waiting callee args).doing = .unwinding f) : f.concernsRefs = false := by
  unfold call at h
  split at h
  next g refused =>
    have spares := callee.spares_callable.bind fun a => spares_check a args.length
    change Spares (callee.callable?.bind (·.check args.length)) at spares
    rw [refused] at spares
    exact Doing.unwinding.inj h ▸ spares
  next accepted =>
    cases callee with
    | builtin b =>
      have spares := b.reply_spares args
      change (reply σ waiting (b.reply args)).doing = _ at h
      cases replied : b.reply args with
      | fault g =>
        rw [replied] at h spares
        exact Doing.unwinding.inj h ▸ spares
      | answer | call | guarded | noted =>
        rw [replied] at h
        cases h
    | closure p captured => cases h
    | _ => exact Doing.unwinding.inj h ▸ rfl

/-- A play comes to a fault that has to do with a reference only where it looks into one too early. -/
theorem Stands.early {p : Play} (h : p.Stands) {f : Fault} (fails : (Play.step .plain p).doing = .unwinding f)
    (concerns : f.concernsRefs) : p.doing = .unwinding f ∨ ∃ s i id rest, p.doing = .running s ∧
      s.chunk.code[s.pc]? = some i ∧ i.op = .deref ∧ s.stack = .ref id :: rest ∧
        ∀ v, p.store.refs[id]? ≠ some (some v) := by
  obtain ⟨σ, doing, waiting⟩ := p
  obtain ⟨store, low, le, does, waits⟩ := h
  cases doing with
  | running s =>
    change (Play.run .plain σ waiting s).doing = _ at fails
    unfold Play.run at fails
    split at fails
    next i here =>
      have turned := unwinding_of_follow fails
      have abides := Scene.Steady.turn does store le here
      change s.turn σ i = _ at turned
      rw [turned] at abides
      obtain rfl := abides.2 concerns
      obtain ⟨looks, id, rest, stack, unfilled⟩ := Scene.turn_unbound turned
      exact .inr ⟨s, i, id, rest, rfl, here, looks, stack, unfilled⟩
    · cases fails
  | calling callee args => cases concerns.symm.trans (call_spares fails)
  | returning v => cases waits <;> cases fails
  | unwinding g =>
    cases waits with
    | nil | resume => exact .inl fails
    | guard => cases fails
  | breaching b => cases waits <;> cases fails
  | straying => cases fails

end Play

namespace Machine.State

variable {p : Play} {s : State}

theorem refs_of_plays (h : s.Plays p) : s.machine.store.refs = p.store.refs := by
  have refs : s.machine.store.mute.refs = p.store.mute.refs := congrArg Store.refs h.store
  exact refs

theorem bears_of_plays {S : Value → Prop} (h : s.Plays p) (bears : p.store.Bears S) : s.machine.store.Bears S := by
  have namespaces : s.machine.store.mute.namespaces = p.store.mute.namespaces := congrArg Store.namespaces h.store
  exact ⟨fun n member => bears.namespaces n (namespaces ▸ member), refs_of_plays h ▸ bears.refs⟩

theorem unwinding_of_plays (h : s.Plays p) {f : Fault} : s.control = .unwinding f ↔ p.doing = .unwinding f := by
  have control := h.control
  constructor
  · intro fails
    rw [fails] at control
    cases doing : p.doing <;> rw [doing] at control <;> cases control
    rfl
  · intro fails
    rw [fails] at control
    cases same : s.control <;> rw [same] at control <;> cases control
    rfl

/-- An activation that shows a steady scene confines its references. -/
theorem confines_running (roster : Roster known) {a : Activation} {t s : Scene} (keeps : a.Keeps known t 0)
    (shows : a.Shows s) (steady : s.Steady (σ.Unfilled low)) : a.Confines σ := by
  obtain ⟨checked, verified⟩ := roster.verified keeps.procedure
  obtain ⟨j, stands⟩ := keeps.stands verified
  have count : s.stack.length = t.stack.length := shows.depth.symm.trans keeps.shows.depth
  have code : s.chunk.code[s.pc]? = some j := by
    rw [← shows.chunk, ← shows.pc]
    exact stands.here
  obtain ⟨looks, fills⟩ := steady.finds code (count ▸ stands.pops)
  have only {i : Instruction} (here : a.procedure.code[a.pc]? = some i) : j = i :=
    Option.some.inj (stands.here.symm.trans here)
  obtain ⟨refs, D, X, guided, -, orderly⟩ := steady
  refine ⟨fun v member => (orderly.args v (shows.args ▸ member)).not_leaks,
    fun vs inside v member => (orderly.saved vs (shows.saved ▸ inside) v member).not_leaks, fun v member => ?_,
    fun here op => shows.operands_eq ▸ looks (only here ▸ op), fun here op => ?_⟩
  · rcases List.mem_append.mp member with operand | captured
    · obtain ⟨k, there⟩ := List.mem_iff_getElem?.mp (shows.operands_eq ▸ operand)
      exact (orderly.accords.tops there).role.ref_of_leaks
    · obtain ⟨k, there⟩ := List.mem_iff_getElem?.mp (shows.closure ▸ captured)
      exact Value.HasRole.ref_of_leaks ⟨_, guided.captured there⟩
  · obtain ⟨id, v, rest, stack, unfilled, plain⟩ := fills (only here ▸ op)
    exact ⟨id, v, rest, shows.operands_eq.trans stack, unfilled, plain.not_leaks⟩

theorem early_of_stands (roster : Roster known) (h : Follows known p s) (stands : p.Stands) {f : Fault}
    (fails : s.step.control = .unwinding f) (concerns : f.concernsRefs) :
    s.control = .unwinding f ∨ ∃ a, s.control = .running a ∧ a.LooksEarly s.machine.store := by
  rcases h.moves roster with still | ⟨-, once⟩ | ⟨calls, -, twice⟩
  · exact .inl ((unwinding_of_plays h.plays).mpr ((unwinding_of_plays still).mp fails))
  · rcases stands.early ((unwinding_of_plays once).mp fails) concerns with
      there | ⟨t, i, id, rest, there, here, looks, stack, unfilled⟩
    · exact .inl ((unwinding_of_plays h.plays).mpr there)
    · have control := h.plays.control
      rw [there] at control
      cases same : s.control <;> rw [same] at control <;> cases control
      rename_i a shows
      refine .inr ⟨a, rfl, i, id, rest, ?_, looks, shows.operands_eq.trans stack, refs_of_plays h.plays ▸ unfilled⟩
      rw [← shows.chunk, ← shows.pc] at here
      exact here
  · cases concerns.symm.trans (Play.call_spares ((unwinding_of_plays twice).mp fails))

theorem confines_of_stands (roster : Roster known) (h : Follows known p s) (stands : p.Stands) : s.Confines := by
  obtain ⟨low, le, does, -⟩ := stands.queue
  have control := h.plays.control
  refine ⟨(bears_of_plays h.plays stands.store).mono Value.Serves.not_leaks, fun {a} same => ?_, fun same => ?_,
    fun same => ?_, fun same => ?_, early_of_stands roster h stands⟩
  all_goals rw [same] at control
  · have keeps := h.keeps.control
    rw [same] at keeps
    obtain ⟨t, keeps⟩ := keeps
    cases doing : p.doing <;> rw [doing] at control does <;> cases control
    rename_i shows
    have steady : Scene.Steady (s.machine.store.Unfilled low) _ := does.imp fun id free =>
      ⟨free.1, (congrArg (·[id]?) (refs_of_plays h.plays)).trans free.2⟩
    exact confines_running roster keeps shows steady
  · cases doing : p.doing <;> rw [doing] at control does <;> cases control
    exact ⟨does.1.not_leaks, fun v member => (does.2 v member).not_leaks⟩
  · cases doing : p.doing <;> rw [doing] at control does <;> cases control
    exact does.not_leaks
  · cases doing : p.doing <;> rw [doing] at control does <;> cases control
    exact ⟨does.payload.not_leaks, does.2⟩

theorem stands_iterate (roster : Roster known) (h : Follows known p s) (stands : p.Stands) (k : Nat) :
    ∃ q, Follows known q (State.step^[k] s) ∧ q.Stands := by
  induction k generalizing p s with
  | zero => exact ⟨p, h, stands⟩
  | succ k ih =>
    obtain ⟨j, later⟩ := h.step roster
    exact ih later (stands.iterate j)

end Machine.State

end StackLisp
