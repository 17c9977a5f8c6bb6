import StackLisp.Proofs.Lambdas
import StackLisp.Proofs.Sound
import StackLisp.Proofs.Staging

/-!
What a machine keeps up: a store of safe values with a library, and a tidy pool. Calls and evaluations of
safe values keep it up, and none of them comes to a breach.
-/

namespace StackLisp

variable {known more : Procedure Value → Prop} {σ τ : Store} {m n : Machine} {fuel : Nat}

/-- A store in which only building went on has kept what it had. -/
theorem Store.Keeps.grow (h : σ.Keeps known) (grown : σ.Grown τ) : τ.Keeps known where
  library := h.library
  numbered body := Nat.lt_of_lt_of_le (h.numbered body) grown.built
  bears := ⟨grown.namespaces ▸ h.bears.namespaces, grown.refs ▸ h.bears.refs⟩

/-- Stores that differ in reports only keep the same. -/
theorem Store.Keeps.of_mute (h : σ.Keeps known) (same : τ.mute = σ.mute) : τ.Keeps known := by
  have namespaces : τ.mute.namespaces = σ.mute.namespaces := congrArg Store.namespaces same
  have refs : τ.mute.refs = σ.mute.refs := congrArg Store.refs same
  have built : τ.mute.built = σ.mute.built := congrArg Store.built same
  exact h.grow ⟨namespaces, refs, built.ge⟩

/-- A safe value or the fault of one. -/
def Outcome.Safe (known : Procedure Value → Prop) : Outcome → Prop
  | .value v => v.Safe known
  | .fault f => f.Bears (Value.Safe known)
  | .breach _ => False

theorem Play.Sound.outcome {p : Play} (h : p.Sound known) {o : Outcome} (ended : p.ended? = some (o, σ)) :
    o.Safe known ∧ σ.Keeps known := by
  obtain ⟨store, does, -⟩ := h
  unfold Play.ended? at ended
  split at ended
  next =>
    obtain ⟨rfl, rfl⟩ := Prod.mk.inj (Option.some.inj ended)
    exact ⟨does, store⟩
  next =>
    obtain ⟨rfl, rfl⟩ := Prod.mk.inj (Option.some.inj ended)
    exact ⟨does, store⟩
  next => exact does.elim
  · cases ended

namespace Machine

theorem State.ends_of_run {s : State} {o : Outcome} (h : State.run fuel s = some (o, n)) :
    ∃ edits, State.system.Ends s (o, n) edits := by
  induction fuel generalizing s with
  | zero => cases h
  | succ fuel ih =>
    unfold State.run at h
    split at h
    next o outcome =>
      obtain ⟨rfl, rfl⟩ := Prod.mk.inj (Option.some.inj h)
      exact ⟨[], 0, congrArg (Option.map (·, s.machine)) outcome, rfl⟩
    next =>
      obtain ⟨edits, ends⟩ := ih h
      exact ⟨_, System.Ends.earlier (k := 1) ends⟩

theorem State.run_of_ends {s : State} {b : Outcome × Machine} {edits : List Edit} (h : State.system.Ends s b edits) :
    ∃ fuel, State.run fuel s = some b := by
  obtain ⟨k, ends⟩ := h
  induction k generalizing s edits with
  | zero =>
    obtain ⟨o, outcome, made⟩ := Option.map_eq_some_iff.mp ends.ended
    change s.outcome? = some o at outcome
    refine ⟨1, ?_⟩
    unfold State.run
    rw [outcome]
    exact congrArg some made
  | succ k ih =>
    obtain ⟨rest, -, later⟩ := ends.later 1
    obtain ⟨fuel, runs⟩ := ih later
    change State.run fuel s.step = some b at runs
    refine ⟨fuel + 1, ?_⟩
    unfold State.run
    cases outcome : s.outcome? with
    | none => exact runs
    | some o =>
      -- At its end the state stays, and that it did so is what the longer run found.
      rw [(State.step_of_outcome outcome).1] at runs
      cases fuel with
      | zero => cases runs
      | succ fuel =>
        unfold State.run at runs
        rwa [outcome] at runs

theorem State.machine_of_run {s : State} {o : Outcome} (h : State.run fuel s = some (o, n)) :
    ∃ k, (State.step^[k] s).machine = n := by
  obtain ⟨edits, k, ends⟩ := ends_of_run h
  obtain ⟨o, -, made⟩ := Option.map_eq_some_iff.mp ends.ended
  exact ⟨k, congrArg Prod.snd made⟩

structure Sound (known : Procedure Value → Prop) (m : Machine) : Prop where
  store : m.store.Keeps known
  pool : m.pool.Tidy

/-- A call of safe values is followed by a play. -/
theorem Sound.follows (h : m.Sound known) {callee : Value} {args : List Value} (called : callee.Safe known)
    (values : ∀ v ∈ args, v.Safe known) :
    State.Follows known ⟨m.store, .calling callee args, []⟩ ⟨m, .calling callee args, []⟩ :=
  State.follows_start h.store.library.roster h.store.library.careful h.pool h.store.bears.within called.within
    fun v member => (values v member).within

/-- A call of safe values ends in one. -/
theorem Sound.call (h : m.Sound known) {callee : Value} {args : List Value} (called : callee.Safe known)
    (values : ∀ v ∈ args, v.Safe known) {o : Outcome} (ended : m.call fuel callee args = some (o, n)) :
    n.Sound known ∧ o.Safe known := by
  obtain ⟨edits, ends⟩ := State.ends_of_run ended
  have roster := h.store.library.roster
  have follows := h.follows called values
  obtain ⟨σ, ⟨k, played⟩, same⟩ := (State.ends_iff roster follows).2 o n edits ends
  have start : Play.Sound known ⟨m.store, .calling callee args, []⟩ := ⟨h.store, ⟨called, values⟩, nofun⟩
  obtain ⟨safe, keeps⟩ := (start.iterate k).outcome played.ended
  refine ⟨⟨keeps.of_mute same, ?_⟩, safe⟩
  obtain ⟨k, rfl⟩ := State.machine_of_run ended
  exact (State.keeps_iterate roster follows.keeps k).machine.pool

/-- A form of safe values is compiled into a closure for the library, unless it is rejected for a flaw of
its own or an operand that is too large. -/
theorem Sound.compile (h : m.Sound known) {form : Value} (safe : form.Safe known) (globals : NamespaceId) :
    ∃ more : Procedure Value → Prop, (∀ {p}, known p → more p) ∧ (m.compile globals form).2.Sound more ∧
      Granted (m.compile globals form).1 fun c => c.value.Safe more := by
  unfold Machine.compile Machine.build
  cases ended : (StackLisp.compile globals m.settings.compile form).run m.store with | mk r t => ?_
  obtain ⟨grown, granted⟩ := compile_grants h.store safe r t ended
  cases r with
  | ok p =>
    obtain ⟨more, wider, keeps, body, captures, -⟩ := granted
    exact ⟨more, wider, ⟨keeps, h.pool⟩, .closure body captures nofun⟩
  | error e => exact ⟨known, id, ⟨h.store.grow grown, h.pool⟩, granted⟩

/-- What an evaluation of safe values comes to. -/
def Evaluation.Safe (known : Procedure Value → Prop) : Evaluation → Prop
  | .outcome o => o.Safe known
  | .rejected e => e.isOfCheck = false

/-- An evaluation of safe values keeps up the machine, with more procedures perhaps. -/
theorem Sound.eval (h : m.Sound known) {form : Value} (safe : form.Safe known) {globals : NamespaceId}
    {e : Evaluation} (ended : m.eval fuel globals form = some (e, n)) :
    ∃ more : Procedure Value → Prop, (∀ {p}, known p → more p) ∧ n.Sound more ∧ e.Safe more := by
  obtain ⟨more, wider, sound, granted⟩ := h.compile safe globals
  unfold Machine.eval at ended
  generalize m.compile globals form = compiled at sound granted ended
  obtain ⟨r, t⟩ := compiled
  match r with
  | .ok c =>
    obtain ⟨⟨o, u⟩, called, made⟩ := Option.map_eq_some_iff.mp ended
    obtain ⟨rfl, rfl⟩ := Prod.mk.inj made
    have none : ∀ v ∈ ([] : List Value), v.Safe more := fun _ => nofun
    obtain ⟨kept, outcome⟩ := Sound.call sound granted none called
    exact ⟨more, wider, kept, outcome⟩
  | .error (.error e) =>
    obtain ⟨rfl, rfl⟩ := Prod.mk.inj (Option.some.inj ended)
    exact ⟨more, wider, sound, granted⟩
  | .error (.breach b) => exact granted.elim

end Machine

end StackLisp
