import StackLisp.Proofs.Careful
import StackLisp.Proofs.Reports

/-!
The machine runs plays. Its activations show the scenes; those that only wait to hand on a value have no
scene any more.
-/

namespace StackLisp

namespace Activation

/-- The operands, the topmost first. -/
def operands (a : Activation) : List Value :=
  (a.frame.slots.toList.drop a.sp).take a.depth

variable {a : Activation} {s : Scene}

theorem Shows.depth (h : a.Shows s) : a.depth = s.stack.length := by
  have level := h.level
  unfold Activation.depth
  omega

theorem Shows.operands_eq (h : a.Shows s) : a.operands = s.stack := by
  refine List.ext_getElem? fun k => ?_
  unfold Activation.operands
  rw [List.getElem?_take, h.depth]
  split
  next inside =>
    have found := List.getElem?_eq_getElem inside
    rw [List.getElem?_drop, Array.getElem?_toList, found]
    exact h.operands found
  next outside => exact (List.getElem?_eq_none (by omega)).symm

/-- Every scene that an activation shows has known values only, if one has that fills the frame. -/
theorem Keeps.within_of_shows {known : Procedure Value → Prop} {t : Scene} {awaited : Nat}
    (keeps : a.Keeps known t awaited) (shows : a.Shows s) : s.Within known := by
  have closure : s.closure = t.closure := shows.closure.symm.trans keeps.shows.closure
  have stack : s.stack = t.stack := shows.operands_eq.symm.trans keeps.shows.operands_eq
  refine ⟨?_, ?_, ?_, ?_, ?_, ?_, ?_⟩
  · rw [closure]
    exact keeps.within.procedure
  · rw [← shows.chunk, keeps.shows.chunk]
    exact keeps.within.constants
  · rw [closure]
    exact keeps.within.captured
  · rw [← shows.args, keeps.shows.args]
    exact keeps.within.args
  · rw [← shows.saved, keeps.shows.saved]
    exact keeps.within.saved
  · rw [stack]
    exact keeps.within.stack
  · intro v member
    obtain ⟨k, found⟩ := List.getElem?_of_mem member
    have slot := shows.locals found
    have whole := keeps.whole
    have inside : a.base + k < a.frame.length := (Array.getElem?_eq_some_iff.mp slot).1
    have below : k < t.locals.length := by omega
    have there := List.getElem?_eq_getElem below
    cases entry : t.locals[k] with
    | none => exact absurd entry (keeps.filled _ (List.getElem_mem _))
    | some w =>
      rw [entry] at there
      obtain rfl := Option.some.inj (slot.symm.trans (keeps.shows.locals there))
      exact keeps.within.locals v (List.mem_of_getElem? there)

theorem shows_start {p : Procedure Value} {captured args : List Value} (closure : a.closure = ⟨p, captured⟩)
    (values : a.args = args) (saved : a.saved = []) (start : a.pc = 0) (empty : a.sp = a.base)
    (room : a.base + p.localCount ≤ a.frame.length) :
    a.Shows (.enter p.chunk ⟨p, captured⟩ args) := by
  refine ⟨closure, ?_, values, saved, start, empty, nofun, ?_, ?_⟩
  · show a.closure.procedure.chunk = p.chunk
    rw [closure]
  · intro k v there
    have unset : (List.replicate p.localCount (none : Option Value))[k]? = some (some v) := there
    rw [List.getElem?_replicate] at unset
    split at unset <;> cases unset
  · show a.base + (List.replicate p.localCount none).length ≤ a.frame.length
    rw [List.length_replicate]
    exact room

theorem shows_enter {p : Procedure Value} {captured args : List Value} {frame : Frame}
    (suits : frame.Suits p.frameSize) :
    (Activation.enter ⟨p, captured⟩ args frame).Shows (.enter p.chunk ⟨p, captured⟩ args) := by
  obtain ⟨length, span, rfl, fits⟩ := suits
  refine shows_start rfl rfl rfl rfl rfl ?_
  show p.stackSize + p.localCount ≤ (Frame.blank length span).length
  rw [Frame.length_blank]
  exact fits

end Activation

/-- A change that is made if control goes on in the activation. -/
def Move.edits (change : Option Edit) : Except Failure (Move × Store) → List Edit
  | .ok (.go, _) => change.toList
  | _ => []

namespace Machine.State

/-- What the next step does to the globals. -/
def edits : State → List Edit
  | ⟨m, .running a, _⟩ =>
    match a.procedure.code[a.pc]? with
    | some i =>
      let (r, _) := (Act.perform (traced m a i).store i).run { a with pc := a.pc + 1 }
      Move.edits (i.edit? a.procedure.globals a.operands) r
    | none => []
  | _ => []

theorem step_of_outcome {s : State} {o : Outcome} (h : s.outcome? = some o) :
    s.step = s ∧ s.edits = [] := by
  unfold outcome? at h
  split at h <;> first | exact ⟨rfl, rfl⟩ | cases h

def system : System State (Outcome × Machine) Edit where
  step
  ended? s := s.outcome?.map (·, s.machine)
  notes := edits
  still h := by
    obtain ⟨o, found, -⟩ := Option.map_eq_some_iff.mp h
    exact (step_of_outcome found).1
  silent h := by
    obtain ⟨o, found, -⟩ := Option.map_eq_some_iff.mp h
    exact (step_of_outcome found).2

end Machine.State

inductive Control.Plays : Control → Doing → Prop where
  | running {a : Activation} {s : Scene} (shows : a.Shows s) : Plays (.running a) (.running s)
  | calling (callee : Value) (args : List Value) : Plays (.calling callee args) (.calling callee args)
  | returning (v : Value) : Plays (.returning v) (.returning v)
  | unwinding (f : Fault) : Plays (.unwinding f) (.unwinding f)
  | breaching (b : Breach) : Plays (.breaching b) (.breaching b)

inductive Waits : List Pending → List Waiting → Prop where
  | nil : Waits [] []
  | resume {a : Activation} {s : Scene} {pending : List Pending} {waiting : List Waiting}
    (shows : a.Shows s) (rest : Waits pending waiting) : Waits (.resume a :: pending) (.resume s :: waiting)
  | finish (a : Activation) {pending : List Pending} {waiting : List Waiting}
    (rest : Waits pending waiting) : Waits (.finish a :: pending) waiting
  | guard (handler : Value) {pending : List Pending} {waiting : List Waiting}
    (rest : Waits pending waiting) : Waits (.guard handler :: pending) (.guard handler :: waiting)

namespace Machine.State

open Machine

/-- The state is that of a play. -/
structure Plays (s : State) (p : Play) : Prop where
  store : s.machine.store.mute = p.store.mute
  control : s.control.Plays p.doing
  waits : Waits s.pending p.waiting

variable {known : Procedure Value → Prop} {m : Machine} {pending : List Pending} {σ : Store}
  {waiting : List Waiting}

theorem store_granted (m : Machine) (g : Grant) : (m.granted g).store.mute = m.store.mute := by
  unfold Machine.granted
  split <;> rfl

theorem store_traced (m : Machine) (a : Activation) (i : Instruction) :
    (traced m a i).store.mute = m.store.mute := by
  unfold traced
  split <;> rfl

/-- Both step, with the same changes to the globals. The play steps once more where the state goes straight on
with what takes the place of an activation. -/
inductive Steps (s : State) (p : Play) : Prop where
  | once (edits : Play.edits .plain p = s.edits) (plays : s.step.Plays (Play.step .plain p))
  | twice {σ : Store} {waiting : List Waiting} {callee : Value} {args : List Value}
    (calls : Play.step .plain p = ⟨σ, .calling callee args, waiting⟩)
    (edits : Play.edits .plain p = s.edits)
    (plays : s.step.Plays (Play.step .plain ⟨σ, .calling callee args, waiting⟩))

theorem Steps.count {s : State} {p : Play} (h : Steps s p) :
    ∃ j, 0 < j ∧ (Play.system .plain).noted j p = s.edits ∧ s.step.Plays ((Play.step .plain)^[j] p) := by
  cases h with
  | once edits plays =>
    refine ⟨1, Nat.one_pos, ?_, plays⟩
    show Play.edits .plain p ++ [] = s.edits
    rw [edits, List.append_nil]
  | twice calls edits plays =>
    refine ⟨2, Nat.two_pos, ?_, ?_⟩
    · show Play.edits .plain p ++ (Play.edits .plain (Play.step .plain p) ++ []) = s.edits
      rw [calls, edits]
      exact List.append_nil _
    · show s.step.Plays (Play.step .plain (Play.step .plain p))
      rw [calls]
      exact plays

theorem step_of_ends {a b : Activation} {i : Instruction} {move : Move} {τ : Store}
    (here : a.procedure.code[a.pc]? = some i)
    (ended : Ends (Act.perform (traced m a i).store i) { a with pc := a.pc + 1 } (.ok (move, τ)) b) :
    State.step ⟨m, .running a, pending⟩ = follow { traced m a i with store := τ } pending b move :=
  runInstruction_of_ends here ended

theorem step_of_fails {a b : Activation} {i : Instruction} {e : Failure}
    (here : a.procedure.code[a.pc]? = some i)
    (ended : Ends (Act.perform (traced m a i).store i) { a with pc := a.pc + 1 } (.error e) b) :
    State.step ⟨m, .running a, pending⟩ = fail (traced m a i) pending b e :=
  runInstruction_of_ends here ended

theorem edits_of_ends {a b : Activation} {i : Instruction} {r : Except Failure (Move × Store)}
    (here : a.procedure.code[a.pc]? = some i)
    (ended : Ends (Act.perform (traced m a i).store i) { a with pc := a.pc + 1 } r b) :
    edits ⟨m, .running a, pending⟩ = Move.edits (i.edit? a.procedure.globals a.operands) r := by
  unfold edits
  simp only [here]
  rw [show (Act.perform (traced m a i).store i).run { a with pc := a.pc + 1 } = (r, b) from ended]

theorem edit?_of_leave {s : Scene} {i : Instruction} {globals : NamespaceId} {callee : Value}
    {args : List Value} (h : s.turn σ i = .leave callee args) : i.edit? globals s.stack = none := by
  have kept : ∀ (u : Scene) (r : Except Fault Store), u.keep r ≠ .leave callee args := by
    intro u r
    cases r <;> nofun
  obtain ⟨op, operand, small⟩ := i
  unfold Scene.turn at h
  unfold Instruction.edit?
  split
  next name rest stack =>
    rw [stack] at h
    split
    next operation =>
      obtain rfl : op = .declare := operation
      cases h
    next operation =>
      obtain rfl : op = .hide := operation
      cases h
    next operation =>
      obtain rfl : op = .bind := operation
      exact absurd h (kept _ _)
    · rfl
  next => rfl

theorem step_refused {p : Procedure Value} {captured args : List Value} {f : Fault}
    (refused : p.arity.check args.length = .error f) :
    Play.step .plain ⟨σ, .calling (.closure p captured) args, waiting⟩ = ⟨σ, .unwinding f, waiting⟩ := by
  show Play.call .plain σ waiting (.closure p captured) args = _
  unfold Play.call
  rw [Play.callable?_closure, refused]

theorem step_accepted {p : Procedure Value} {captured args : List Value}
    (accepted : p.arity.check args.length = .ok ()) :
    Play.step .plain ⟨σ, .calling (.closure p captured) args, waiting⟩ =
      ⟨σ, .running (.enter p.chunk ⟨p, captured⟩ args), waiting⟩ := by
  show Play.call .plain σ waiting (.closure p captured) args = _
  unfold Play.call
  rw [Play.callable?_closure, accepted]
  rfl

/-- An activation takes the turn of its scene. A tail call of a closure takes the play one step more. -/
theorem steps_running (roster : Roster known) (machine : m.Keeps known) {a : Activation}
    {s t : Scene} (keeps : a.Keeps known t 0) (shows : a.Shows s) (store : m.store.mute = σ.mute)
    (waits : Waits pending waiting) (goes : (Play.run .plain σ waiting s).doing ≠ .straying) :
    Steps ⟨m, .running a, pending⟩ ⟨σ, .running s, waiting⟩ := by
  obtain ⟨checked, verified⟩ := roster.verified keeps.procedure
  obtain ⟨i, stands⟩ := keeps.stands verified
  have here := stands.here
  have count : s.stack.length = t.stack.length := shows.depth.symm.trans keeps.shows.depth
  have code : s.chunk.code[s.pc]? = some i := by
    rw [← shows.chunk, ← shows.pc]
    exact here
  have takes := shows.takes verified.anchored here (count ▸ stands.pops) (count ▸ stands.room)
    (traced m a i).store
  have kept := keeps_traced machine a i
  have stores : (traced m a i).store.mute = σ.mute := (store_traced m a i).trans store
  obtain ⟨r, b, ended, settles, -⟩ := keeps.settles roster kept.store verified stands
  have shown {r : Except Failure (Move × Store)} {u : Scene}
      (does : (Act.perform (traced m a i).store i).Does
        { s.past i with stack := s.stack.take i.pops ++ (s.past i).stack } r u) :
      ∃ b, Ends (Act.perform (traced m a i).store i) { a with pc := a.pc + 1 } r b ∧ b.Shows u ∧
        b.Settles known r := by
    obtain ⟨c, finished, shown, -⟩ := does _ (shows.advanced i)
    obtain ⟨rfl, rfl⟩ := finished.unique ended
    exact ⟨c, finished, shown, settles⟩
  have played : Play.run .plain σ waiting s = Play.follow σ waiting (s.turn σ i) := by
    unfold Play.run
    rw [code]
    rfl
  rw [played] at goes
  have plays : Play.step .plain ⟨σ, .running s, waiting⟩ = Play.follow σ waiting (s.turn σ i) := played
  have edits : Play.edits .plain ⟨σ, .running s, waiting⟩ =
      (s.turn σ i).edits (i.edit? s.chunk.globals s.stack) := by
    unfold Play.edits
    simp only [code]
    rfl
  have same := Scene.turn_mute stores s i
  cases turned : s.turn σ i with
  | go u τ =>
    rw [turned] at same plays edits
    obtain ⟨τ', other, equal⟩ := Turn.of_mute_go same
    rw [other] at takes
    obtain ⟨b, ended, shown, -⟩ := shown takes
    refine .once ?_ ?_
    · rw [edits, edits_of_ends here ended, shows.operands_eq, ← shows.chunk]
      rfl
    · rw [plays, step_of_ends here ended]
      exact ⟨equal, .running shown, waits⟩
  | stray =>
    rw [turned] at goes
    exact absurd rfl goes
  | answer v =>
    rw [turned] at same plays edits
    rw [Turn.of_mute same nofun] at takes
    obtain ⟨b, ended, shown, -⟩ := shown takes
    refine .once (edits.trans (edits_of_ends here ended).symm) ?_
    rw [plays, step_of_ends here ended]
    exact ⟨stores, .returning v, waits⟩
  | call callee args u =>
    rw [turned] at same plays edits
    rw [Turn.of_mute same nofun] at takes
    obtain ⟨b, ended, shown, -⟩ := shown takes
    refine .once (edits.trans (edits_of_ends here ended).symm) ?_
    rw [plays, step_of_ends here ended]
    exact ⟨stores, .calling callee args, .resume shown waits⟩
  | fault f =>
    rw [turned] at same plays edits
    rw [Turn.of_mute same nofun] at takes
    obtain ⟨b, ended, shown, -⟩ := shown takes
    refine .once (edits.trans (edits_of_ends here ended).symm) ?_
    rw [plays, step_of_fails here ended]
    exact ⟨stores, .unwinding f, waits⟩
  | breach e =>
    rw [turned] at same plays edits
    rw [Turn.of_mute same nofun] at takes
    obtain ⟨b, ended, shown, -⟩ := shown takes
    refine .once (edits.trans (edits_of_ends here ended).symm) ?_
    rw [plays, step_of_fails here ended]
    exact ⟨stores, .breaching e, waits⟩
  | leave callee args =>
    rw [turned] at same plays edits
    rw [Turn.of_mute same nofun] at takes
    by_cases plain : ∀ p captured, callee ≠ .closure p captured
    · obtain ⟨b, ended, shown, -⟩ := shown (takes.left plain)
      refine .once (edits.trans (edits_of_ends here ended).symm) ?_
      rw [plays, step_of_ends here ended]
      exact ⟨stores, .calling callee args, .finish b waits⟩
    simp only [ne_eq, not_forall, not_not] at plain
    obtain ⟨p, captured, rfl⟩ := plain
    cases checked : p.arity.check args.length with
    | error f =>
      obtain ⟨b, ended, shown, -⟩ := shown (takes.refused rfl checked)
      refine .twice plays (edits.trans (edits_of_ends here ended).symm) ?_
      rw [step_refused checked, step_of_fails here ended]
      exact ⟨stores, .unwinding f, waits⟩
    | ok =>
      by_cases again : p.serial = s.closure.procedure.serial
      · have inside := keeps.within_of_shows shows
        have called := Scene.turn_within inside kept.store i
        rw [Turn.of_mute same nofun] at called
        have equal : p = s.closure.procedure :=
          roster.identity (Value.Within.closure called.1).1 inside.procedure again
        obtain ⟨b, ended, shown, ⟨u, filled⟩, -⟩ := shown (takes.restarted rfl checked equal)
        refine .twice plays ?_ ?_
        · rw [edits, edits_of_ends here ended, shows.operands_eq]
          change [] = (i.edit? a.procedure.globals s.stack).toList
          rw [edit?_of_leave turned]
          rfl
        rw [step_accepted checked, step_of_ends here ended]
        refine ⟨stores, .running (Activation.shows_start shown.closure shown.args shown.saved shown.pc
          shown.level ?_), waits⟩
        have slots := filled.slots
        have whole := filled.whole
        have same : b.procedure = p := congrArg Closure.procedure shown.closure
        rw [same] at slots
        omega
      · obtain ⟨b, ended, shown, -⟩ := shown (takes.switched rfl checked again)
        refine .twice plays (edits.trans (edits_of_ends here ended).symm) ?_
        rw [step_accepted checked, step_of_ends here ended]
        obtain ⟨suits, -⟩ := kept.pool.reserve b.frame p.frameSize
        exact ⟨(store_granted _ _).trans stores, .running (Activation.shows_enter suits), waits⟩

theorem plays_reply (store : m.store.mute = σ.mute) (waits : Waits pending waiting) (r : Reply) :
    (reply m pending r).Plays (Play.reply σ waiting r) := by
  cases r with
  | answer v => exact ⟨store, .returning v, waits⟩
  | fault f => exact ⟨store, .unwinding f, waits⟩
  | call callee args => exact ⟨store, .calling callee args, waits⟩
  | guarded thunk handler => exact ⟨store, .calling thunk [], .guard handler waits⟩
  | noted line v => exact ⟨store, .returning v, waits⟩

theorem steps_calling (machine : m.Keeps known) (store : m.store.mute = σ.mute)
    (waits : Waits pending waiting) (callee : Value) (args : List Value) :
    Steps ⟨m, .calling callee args, pending⟩ ⟨σ, .calling callee args, waiting⟩ := by
  refine .once rfl ?_
  change (callValue m pending callee args).Plays (Play.call .plain σ waiting callee args)
  unfold callValue Play.call
  generalize callee.callable?.bind (·.check args.length) = r
  cases r with
  | error f => exact ⟨store, .unwinding f, waits⟩
  | ok =>
    cases callee with
    | closure p captured =>
      obtain ⟨suits, -⟩ := machine.pool.alloc p.frameSize
      exact ⟨(store_granted _ _).trans store, .running (Activation.shows_enter suits), waits⟩
    | builtin b => exact plays_reply store waits (b.reply args)
    | _ => exact ⟨store, .unwinding _, waits⟩

theorem steps_resuming (roster : Roster known) {a : Activation} {s : Scene} {v : Value}
    (keeps : Keeps known ⟨m, .returning v, .resume a :: pending⟩) (shows : a.Shows s) (store : m.store.mute = σ.mute)
    (waits : Waits pending waiting) :
    Steps ⟨m, .returning v, .resume a :: pending⟩ ⟨σ, .returning v, .resume s :: waiting⟩ := by
  obtain ⟨t, kept⟩ := keeps.pending _ List.mem_cons_self
  have same : a.procedure = s.closure.procedure := congrArg Closure.procedure shows.closure
  have count : s.stack.length = t.stack.length := shows.depth.symm.trans kept.shows.depth
  obtain ⟨b, ended, shown, -⟩ := Act.does_push (v := v) (same ▸ count ▸ kept.room roster) a shows
  refine .once rfl ?_
  change (returnTo m _ v (.resume a)).Plays _
  unfold returnTo
  simp only
  rw [show (Act.push v).run a = (.ok (), b) from ended]
  exact ⟨store, .running shown, waits⟩

/-- Control that has come to an outcome passes the activations that only hand it on. -/
theorem passes_finished {c : Control} (passes : ∀ m a pending, ∃ n : Machine,
      step ⟨m, c, .finish a :: pending⟩ = ⟨n, c, pending⟩ ∧ n.store.mute = m.store.mute ∧
        edits ⟨m, c, .finish a :: pending⟩ = [])
    (waits : Waits pending waiting) (m : Machine) :
    ∃ k n rest, step^[k] ⟨m, c, pending⟩ = ⟨n, c, rest⟩ ∧ n.store.mute = m.store.mute ∧
      system.noted k ⟨m, c, pending⟩ = [] ∧ Waits rest waiting ∧
        ∀ a others, rest ≠ .finish a :: others := by
  induction waits generalizing m with
  | nil => exact ⟨0, m, [], rfl, rfl, rfl, .nil, nofun⟩
  | resume shows rest => exact ⟨0, m, _, rfl, rfl, rfl, .resume shows rest, nofun⟩
  | guard handler rest => exact ⟨0, m, _, rfl, rfl, rfl, .guard handler rest, nofun⟩
  | @finish a pending waiting rest ih =>
    obtain ⟨n, next, store, quiet⟩ := passes m a pending
    obtain ⟨k, n', others, run, stores, silent, waits, other⟩ := ih n
    refine ⟨k + 1, n', others, ?_, stores.trans store, ?_, waits, other⟩
    · rw [Function.iterate_succ_apply, next, run]
    · show edits _ ++ system.noted k (step _) = []
      rw [quiet, next, silent]
      rfl

/-- A state, its play and a promise that the play does not stray. -/
structure Follows (known : Procedure Value → Prop) (p : Play) (s : State) : Prop where
  keeps : s.Keeps known
  plays : s.Plays p
  firm : ∀ n, ((Play.step .plain)^[n] p).doing ≠ .straying

theorem Follows.later {p : Play} {s : State} (roster : Roster known) (h : Follows known p s) {j k : Nat}
    (plays : (State.step^[k] s).Plays ((Play.step .plain)^[j] p)) :
    Follows known ((Play.step .plain)^[j] p) (State.step^[k] s) := by
  refine ⟨keeps_iterate roster h.keeps k, plays, fun n => ?_⟩
  rw [← Function.iterate_add_apply]
  exact h.firm (n + j)

/-- The same outcome, and stores that differ in reports only. -/
def SameOutcome (a : Outcome × Store) (b : Outcome × Machine) : Prop :=
  a.1 = b.1 ∧ b.2.store.mute = a.2.mute

theorem progress_of_steps {p : Play} {s : State} (roster : Roster known) (h : Follows known p s)
    (going : p.ended? = none) (moving : s.outcome? = none) (steps : Steps s p) :
    System.Progress (Play.system .plain) State.system (Follows known) SameOutcome Eq p s := by
  obtain ⟨j, later, edits, plays⟩ := steps.count
  refine .inr ⟨going, ?_, j, 1, later, Nat.one_pos, ?_, h.later roster plays⟩
  · show s.outcome?.map _ = none
    rw [moving]
    rfl
  · rw [edits]
    show List.Forall₂ Eq s.edits (s.edits ++ [])
    rw [List.append_nil]
    exact List.forall₂_same.mpr fun _ _ => rfl

theorem progress_of_outcome {o : Outcome} {p : Play} {s : State} (ended : p.ended? = some (o, p.store))
    (outcome : s.outcome? = some o) (store : s.machine.store.mute = p.store.mute) :
    System.Progress (Play.system .plain) State.system (Follows known) SameOutcome Eq p s := by
  refine .inl ⟨(o, p.store), (o, s.machine), [], [], ⟨0, ended, rfl⟩, ⟨0, ?_, rfl⟩, ⟨rfl, store⟩, .nil⟩
  show s.outcome?.map _ = _
  rw [outcome]
  rfl

/-- Once the activations are passed that only hand on an outcome, the rest is as in the play. -/
theorem progress_of_passing (roster : Roster known) {c : Control} {p : Play}
    (h : Follows known p ⟨m, c, pending⟩) (passes : ∀ m a pending, ∃ n : Machine,
      step ⟨m, c, .finish a :: pending⟩ = ⟨n, c, pending⟩ ∧ n.store.mute = m.store.mute ∧
        edits ⟨m, c, .finish a :: pending⟩ = [])
    (rest : ∀ {m pending}, Follows known p ⟨m, c, pending⟩ → (∀ a others, pending ≠ .finish a :: others) →
      System.Progress (Play.system .plain) State.system (Follows known) SameOutcome Eq p ⟨m, c, pending⟩) :
    System.Progress (Play.system .plain) State.system (Follows known) SameOutcome Eq p ⟨m, c, pending⟩ := by
  obtain ⟨k, n, others, run, same, quiet, waits, other⟩ := passes_finished passes h.plays.waits m
  refine System.Progress.earlier (k := k) quiet ?_
  change System.Progress _ _ _ _ _ _ (step^[k] _)
  have plays : (step^[k] ⟨m, c, pending⟩).Plays p := by
    rw [run]
    exact ⟨same.trans h.plays.store, h.plays.control, waits⟩
  have later := h.later (j := 0) roster plays
  rw [run] at later ⊢
  exact rest later other

/-- A machine and its play come to the same outcome, or both go on. -/
theorem progress_of_follows (roster : Roster known) {p : Play} {s : State} (h : Follows known p s) :
    System.Progress (Play.system .plain) State.system (Follows known) SameOutcome Eq p s := by
  obtain ⟨m, control, pending⟩ := s
  obtain ⟨σ, doing, waiting⟩ := p
  cases h.plays.control with
  | running shows =>
    obtain ⟨t, kept⟩ := h.keeps.control
    exact progress_of_steps roster h rfl rfl
      (steps_running roster h.keeps.machine kept shows h.plays.store h.plays.waits (h.firm 1))
  | calling callee args =>
    exact progress_of_steps roster h rfl rfl
      (steps_calling h.keeps.machine h.plays.store h.plays.waits callee args)
  | returning v =>
    refine progress_of_passing roster h (fun m a pending => ⟨_, rfl, rfl, rfl⟩) fun {m pending} h other => ?_
    cases h.plays.waits with
    | nil => exact progress_of_outcome rfl rfl h.plays.store
    | finish a rest => exact absurd rfl (other _ _)
    | guard handler rest =>
      exact progress_of_steps roster h rfl rfl (.once rfl ⟨h.plays.store, .returning v, rest⟩)
    | resume shows rest => exact progress_of_steps roster h rfl rfl (steps_resuming roster h.keeps shows h.plays.store rest)
  | unwinding f =>
    refine progress_of_passing roster h (fun m a pending => ⟨_, rfl, rfl, rfl⟩) fun {m pending} h other => ?_
    cases h.plays.waits with
    | nil => exact progress_of_outcome rfl rfl h.plays.store
    | finish a rest => exact absurd rfl (other _ _)
    | guard handler rest =>
      exact progress_of_steps roster h rfl rfl (.once rfl ⟨h.plays.store, .calling _ _, rest⟩)
    | resume shows rest =>
      exact progress_of_steps roster h rfl rfl (.once rfl ⟨h.plays.store, .unwinding f, rest⟩)
  | breaching b =>
    refine progress_of_passing roster h (fun m a pending => ⟨_, rfl, rfl, rfl⟩) fun {m pending} h other => ?_
    cases h.plays.waits with
    | nil => exact progress_of_outcome rfl rfl h.plays.store
    | finish a rest => exact absurd rfl (other _ _)
    | guard handler rest =>
      exact progress_of_steps roster h rfl rfl (.once rfl ⟨h.plays.store, .breaching b, rest⟩)
    | resume shows rest =>
      exact progress_of_steps roster h rfl rfl (.once rfl ⟨h.plays.store, .breaching b, rest⟩)

/-- Machine and play both step, unless the machine only passes on what its play has come to. -/
theorem Follows.moves (roster : Roster known) {p : Play} {s : State} (h : Follows known p s) :
    s.step.Plays p ∨ Steps s p := by
  obtain ⟨m, control, pending⟩ := s
  obtain ⟨σ, doing, waiting⟩ := p
  obtain ⟨store, control, waits⟩ := h.plays
  cases control with
  | running shows =>
    obtain ⟨t, kept⟩ := h.keeps.control
    exact .inr (steps_running roster h.keeps.machine kept shows store waits (h.firm 1))
  | calling callee args => exact .inr (steps_calling h.keeps.machine store waits callee args)
  | returning v =>
    cases waits with
    | nil => exact .inl ⟨store, .returning v, .nil⟩
    | finish a rest => exact .inl ⟨store, .returning v, rest⟩
    | guard handler rest => exact .inr (.once rfl ⟨store, .returning v, rest⟩)
    | resume shows rest => exact .inr (steps_resuming roster h.keeps shows store rest)
  | unwinding f =>
    cases waits with
    | nil => exact .inl ⟨store, .unwinding f, .nil⟩
    | finish a rest => exact .inl ⟨store, .unwinding f, rest⟩
    | guard handler rest => exact .inr (.once rfl ⟨store, .calling _ _, rest⟩)
    | resume shows rest => exact .inr (.once rfl ⟨store, .unwinding f, rest⟩)
  | breaching b =>
    cases waits with
    | nil => exact .inl ⟨store, .breaching b, .nil⟩
    | finish a rest => exact .inl ⟨store, .breaching b, rest⟩
    | guard handler rest => exact .inr (.once rfl ⟨store, .breaching b, rest⟩)
    | resume shows rest => exact .inr (.once rfl ⟨store, .breaching b, rest⟩)

/-- After a step the machine follows its play still, which may not have moved. -/
theorem Follows.step (roster : Roster known) {p : Play} {s : State} (h : Follows known p s) :
    ∃ j, Follows known ((Play.step .plain)^[j] p) s.step := by
  rcases h.moves roster with still | steps
  · exact ⟨0, h.later (j := 0) (k := 1) roster still⟩
  · obtain ⟨j, -, -, plays⟩ := steps.count
    exact ⟨j, h.later (k := 1) roster plays⟩

/-- The machine ends just if its play does, with the same outcome, after the same changes to the globals and
in the same store but for reports. -/
theorem ends_iff (roster : Roster known) {p : Play} {s : State} (h : Follows known p s) :
    (∀ o σ edits, (Play.system .plain).Ends p (o, σ) edits →
      ∃ m, State.system.Ends s (o, m) edits ∧ m.store.mute = σ.mute) ∧
    ∀ o m edits, State.system.Ends s (o, m) edits →
      ∃ σ, (Play.system .plain).Ends p (o, σ) edits ∧ m.store.mute = σ.mute := by
  obtain ⟨forth, back⟩ := System.together_of_progress (fun h => progress_of_follows roster h) h
  refine ⟨fun o σ edits ends => ?_, fun o m edits ends => ?_⟩
  · obtain ⟨⟨_, m⟩, more, other, ⟨rfl, same⟩, notes⟩ := forth _ _ ends
    rw [List.forall₂_eq_eq_eq] at notes
    subst notes
    exact ⟨m, other, same⟩
  · obtain ⟨⟨_, σ⟩, more, other, ⟨rfl, same⟩, notes⟩ := back _ _ ends
    rw [List.forall₂_eq_eq_eq] at notes
    subst notes
    exact ⟨σ, other, same⟩

/-- A call of known values in a machine that holds no others is followed by a play. -/
theorem follows_start (roster : Roster known) (careful : ∀ {p : Procedure Value}, known p → p.chunk.Careful)
    (pool : m.pool.Tidy) (store : m.store.Within known) {callee : Value} {args : List Value}
    (called : callee.Within known) (values : ∀ v ∈ args, v.Within known) :
    Follows known ⟨m.store, .calling callee args, []⟩ ⟨m, .calling callee args, []⟩ := by
  have safe : Play.Safe known ⟨m.store, .calling callee args, []⟩ := ⟨store, ⟨called, values⟩, nofun⟩
  exact ⟨⟨⟨pool, store⟩, ⟨called, values⟩, nofun⟩, ⟨rfl, .calling _ _, .nil⟩,
    safe.firm ⟨careful, roster.constants⟩⟩

end Machine.State

end StackLisp
