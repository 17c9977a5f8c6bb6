import StackLisp.Proofs.Gates
import StackLisp.Proofs.Shortening
import StackLisp.Proofs.Staging

/-!
Which clause a call comes to. The tests of a body lead a call into the first clause that its arguments fit.
A call that fits none is refused before anything of the body runs.
-/

namespace StackLisp

open Chunk Machine

/-- The second machine has reported more at most. -/
structure Machine.Tells (m n : Machine) : Prop where
  settings : n.settings = m.settings
  pool : n.pool = m.pool
  journal : n.journal = m.journal
  store : m.store.Tells n.store

namespace Machine.Tells

variable {m n o : Machine}

theorem refl (m : Machine) : m.Tells m :=
  ⟨rfl, rfl, rfl, .refl _⟩

theorem trans (h : m.Tells n) (g : n.Tells o) : m.Tells o :=
  ⟨g.settings.trans h.settings, g.pool.trans h.pool, g.journal.trans h.journal, h.store.trans g.store⟩

theorem traced (m : Machine) (a : Activation) (i : Instruction) : m.Tells (State.traced m a i) := by
  unfold State.traced
  split
  · exact ⟨rfl, rfl, rfl, .report _ _⟩
  · exact .refl m

end Machine.Tells

/-- Every activation that shows the first scene runs on, in its frame, to where it shows the second. Meanwhile
nothing happens but reports. -/
def Scene.Leads (s t : Scene) : Prop :=
  ∀ (m : Machine) (pending : List Pending) (a : Activation), a.Shows s → ∃ k n b,
    State.step^[k] ⟨m, .running a, pending⟩ = ⟨n, .running b, pending⟩ ∧ b.Shows t ∧
      b.frame.length = a.frame.length ∧ m.Tells n

namespace Scene

variable {s t u : Scene} {i : Instruction} {p : Procedure Value} {captured args : List Value}

theorem Leads.refl (s : Scene) : s.Leads s :=
  fun m _ a shows => ⟨0, m, a, rfl, shows, rfl, .refl m⟩

theorem Leads.trans (h : s.Leads t) (g : t.Leads u) : s.Leads u := by
  intro m pending a shows
  obtain ⟨k, n, b, first, shown, length, told⟩ := h m pending a shows
  obtain ⟨l, o, c, second, last, same, told'⟩ := g n pending b shown
  refine ⟨l + k, o, c, ?_, last, same.trans length, told.trans told'⟩
  rw [Function.iterate_add_apply, first, second]

/-- The scene is of a body in its code, with room for two operands. -/
structure Stages (s : Scene) (p : Procedure Value) : Prop where
  procedure : s.closure.procedure = p
  chunk : s.chunk = p.chunk
  anchored : p.Anchored
  room : 2 ≤ p.stackSize

/-- A turn that goes on with at most two operands is a step. -/
theorem Stages.leads (stages : s.Stages p) (here : p.code[s.pc]? = some i) (pops : i.pops ≤ s.stack.length)
    (fits : s.stack.length - i.pops + i.pushes ≤ 2) (turns : ∀ σ, s.turn σ i = .go t σ) : s.Leads t := by
  intro m pending a shows
  have own : a.procedure = p := (congrArg Closure.procedure shows.closure).trans stages.procedure
  have found : a.procedure.code[a.pc]? = some i := by
    rw [own, shows.pc]
    exact here
  have takes := shows.takes (own ▸ stages.anchored) found pops
    (own ▸ Nat.le_trans fits stages.room) (State.traced m a i).store
  rw [turns] at takes
  obtain ⟨b, ended, shown, length⟩ := takes _ (shows.advanced i)
  exact ⟨1, State.traced m a i, b, State.step_of_ends found ended, shown, length, .traced m a i⟩

/-- The scene with other operands at another address. -/
def placed (s : Scene) (stack : List Value) (pc : Nat) : Scene :=
  { s with stack, pc }

theorem Stages.placed (stages : s.Stages p) (vs : List Value) (pc : Nat) : (s.placed vs pc).Stages p :=
  ⟨stages.procedure, stages.chunk, stages.anchored, stages.room⟩

theorem turn_binary {f : Value → Value → Except Fault Value} (meaning : i.op.binary? = some f) {l r : Value}
    {below : List Value} {pc : Nat} {σ : Store} :
    (s.placed (l :: r :: below) pc).turn σ i = (s.placed below (pc + 1)).giveResult σ (f l r) := by
  obtain ⟨op, operand, small⟩ := i
  cases op <;> cases meaning <;> rfl

theorem Stages.leads_test (stages : s.Stages p) {c : Clause} {label pc : Nat} {rest : List Instruction}
    {count : c.fixedCount ≤ maxOperand} {named : label ≤ maxOperand} (small : s.args.length < countLimit)
    (here : p.code.drop pc = ⟨.posInt, c.fixedCount, count⟩ :: Opcode.argLen.bare ::
      (if c.isVariadic then Opcode.numGte else Opcode.numEq).bare :: ⟨.condJump, label, named⟩ :: rest) :
    (s.placed [] pc).Leads (s.placed [.bool (c.fits s.args.length)] (pc + 3)) := by
  have found (k : Nat) : p.code[pc + k]? = _ := (List.getElem?_drop ..).symm.trans (congrArg (·[k]?) here)
  have first : (s.placed [] pc).Leads (s.placed [.integer (Int64.ofNat c.fixedCount)] (pc + 1)) :=
    (stages.placed _ _).leads (found 0) (Nat.zero_le _) (Nat.le_succ 1) fun σ => rfl
  have second : (s.placed [.integer (Int64.ofNat c.fixedCount)] (pc + 1)).Leads
      (s.placed [.integer (Int64.ofNat s.args.length), .integer (Int64.ofNat c.fixedCount)] (pc + 2)) :=
    (stages.placed _ _).leads (found 1) (Nat.zero_le _) (Nat.le_refl 2) fun σ => rfl
  obtain ⟨f, meaning, compared⟩ := c.compares count small
  have third : (s.placed [.integer (Int64.ofNat s.args.length), .integer (Int64.ofNat c.fixedCount)] (pc + 2)).Leads
      (s.placed [.bool (c.fits s.args.length)] (pc + 3)) := by
    have takes : (if c.isVariadic then Opcode.numGte else Opcode.numEq).bare.pops = 2 := by
      split <;> rfl
    have gives : (if c.isVariadic then Opcode.numGte else Opcode.numEq).bare.pushes = 1 := by
      split <;> rfl
    refine (stages.placed _ _).leads (found 2) (Nat.le_of_eq takes) ?_ fun σ => ?_
    · rw [takes, gives]
      exact Nat.le_succ 1
    · rw [turn_binary meaning, compared]
      rfl
  exact (first.trans second).trans third

theorem Stages.leads_jump (stages : s.Stages p) {label pc target : Nat} {named : label ≤ maxOperand}
    (here : p.code[pc]? = some ⟨.condJump, label, named⟩) (found : anchor? p.code label = some target) :
    (s.placed [.bool true] pc).Leads (s.placed [] target) := by
  refine (stages.placed _ _).leads here (Nat.le_refl 1) (Nat.zero_le 2) fun σ => ?_
  show (s.placed [] (pc + 1)).goTo σ label = _
  unfold goTo
  rw [show anchor? (s.placed [] (pc + 1)).chunk.code label = some target from stages.chunk ▸ found]
  rfl

theorem Stages.leads_label (stages : s.Stages p) {label target : Nat} (found : anchor? p.code label = some target) :
    (s.placed [] target).Leads (s.placed [] (target + 1)) := by
  obtain ⟨⟨op, operand, small⟩, here, anchors, -⟩ := anchor?_spec found
  obtain rfl : op = .label := anchors_iff.mp anchors
  exact (stages.placed _ _).leads here (Nat.zero_le _) (Nat.zero_le 2) fun σ => rfl

theorem Stages.leads_tests (stages : s.Stages p) {cs : List (Clause × Nat)} {is behind : List Instruction}
    {c : Clause} {label pc target : Nat} (tests : Tests cs is) (here : p.code.drop pc = is ++ behind)
    (small : s.args.length < countLimit) (first : cs.find? (·.1.fits s.args.length) = some (c, label))
    (found : anchor? p.code label = some target) : (s.placed [] pc).Leads (s.placed [] (target + 1)) := by
  induction tests generalizing pc with
  | nil => cases first
  | @cons d other cs is count named rest ih =>
    have test := stages.leads_test small here
    have jumps : p.code[pc + 3]? = some ⟨.condJump, other, named⟩ :=
      (List.getElem?_drop ..).symm.trans (congrArg (·[3]?) here)
    cases fits : d.fits s.args.length with
    | true =>
      rw [List.find?_cons_of_pos (by exact fits)] at first
      obtain ⟨rfl, rfl⟩ := Prod.mk.inj (Option.some.inj first)
      have jump := stages.leads_jump jumps found
      rw [fits] at test
      exact (test.trans jump).trans (stages.leads_label found)
    | false =>
      rw [List.find?_cons_of_neg (by simp [fits])] at first
      have onward : p.code.drop (pc + 4) = is ++ behind := by
        rw [← List.drop_drop, here]
        rfl
      rw [fits] at test
      have jump : (s.placed [.bool false] (pc + 3)).Leads (s.placed [] (pc + 4)) := by
        refine (stages.placed _ _).leads jumps (Nat.le_refl 1) (Nat.zero_le 2) fun σ => rfl
      exact (test.trans jump).trans (ih onward first)

end Scene

namespace Arm

variable {arms : List Arm} {arm : Arm} {code : List Instruction} {p : Procedure Value} {checked : Checked}

theorem find?_pairs (arms : List Arm) (n : Nat) :
    (arms.map pair).find? (·.1.fits n) = (arms.find? (·.clause.fits n)).map pair := by
  induction arms with
  | nil => rfl
  | cons arm arms ih =>
    rw [List.map_cons, List.find?_cons, List.find?_cons, ih]
    cases fits : arm.clause.fits n <;> simp [pair, fits]

theorem Fill.guards (verified : p.Verified checked) (fits : ∀ {n : Nat}, p.arity.accepts n →
    ∃ arm ∈ arms, arm.clause.fits n) {is rest : List Instruction} {place : Nat} {small : place ≤ maxOperand}
    (tests : Tests (arms.map pair) is)
    (code : p.code = is ++ (⟨.const, place, small⟩ :: Opcode.panic.bare :: rest)) :
    p.Guards arms is (⟨.const, place, small⟩ :: Opcode.panic.bare :: rest) := by
  have message : ∀ {k : Nat} {i : Instruction}, k < 2 →
      (⟨.const, place, small⟩ :: Opcode.panic.bare :: rest)[k]? = some i → i.op.tests := by
    intro k i early here
    match k with
    | 0 | 1 => cases here; rfl
  refine ⟨code, tests, message, fun member jumps listed => ?_, fits⟩
  obtain ⟨known, found, same⟩ := verified.anchored member jumps
  obtain rfl := Option.some.inj (same.symm.trans listed)
  obtain ⟨j, here, anchors, -⟩ := anchor?_spec found
  by_contra early
  have tested := tests.before message (code ▸ here) (Nat.lt_of_not_le early)
  rw [anchors_iff.mp anchors] at tested
  cases tested

/-- A body that starts with a test has room for its operands. -/
theorem room_of_tests (verified : p.Verified checked) {cs : List (Clause × Nat)} {is behind : List Instruction}
    (tests : Tests cs is) (some : cs ≠ []) (code : p.code = is ++ behind) : 2 ≤ p.stackSize := by
  cases tests with
  | nil => exact absurd rfl some
  | @cons c label cs is count named rest =>
    have covers := verified.covers
    rw [code] at covers
    obtain ⟨j, second, -, -, bound⟩ := covers.supports (covers.next covers.start rfl rfl)
    obtain rfl := Option.some.inj second
    exact verified.stackSize ▸ bound

/-- From the start of a body control comes to the code of the first arm that fits. -/
theorem Fill.leads (fill : Fill arms p.code) (verified : p.Verified checked) {s : Scene}
    (procedure : s.closure.procedure = p) (chunk : s.chunk = p.chunk) (small : s.args.length < countLimit)
    (first : arms.find? (·.clause.fits s.args.length) = some arm) :
    ∃ front back, p.code = front ++ (arm.code ++ back) ∧ (s.placed [] 0).Leads (s.placed [] front.length) := by
  generalize whole : p.code = code at fill
  cases fill with
  | single only =>
    rw [List.find?_singleton] at first
    split at first
    · obtain rfl := Option.some.inj first
      exact ⟨[], [], by simp, .refl _⟩
    · cases first
  | @several arms gate rest many labels gates lie =>
    obtain ⟨before, i, after, label, named, rfl⟩ := lie.place (List.mem_of_find?_eq_some first)
    cases gates with
    | @intro is place tests fits =>
      let front := is ++ [⟨.const, place, fits⟩, Opcode.panic.bare] ++ before
      refine ⟨front ++ [i], after, by simp [front], ?_⟩
      have distinct := labels_nodup_of_verify verified.accepted
      have found : anchor? p.code arm.label = some front.length := by
        refine (anchor?_eq_some_iff distinct).mpr ⟨i, ?_, label, named⟩
        show p.code[front.length]? = some i
        rw [whole]
        simp [front]
      have start : p.code.drop 0 = is ++ ([⟨.const, place, fits⟩, Opcode.panic.bare] ++
          (before ++ i :: (arm.code ++ after))) := by
        rw [whole]
        simp
      have some : arms.map pair ≠ [] := fun none => by
        rw [List.map_eq_nil_iff.mp none] at first
        cases first
      have stages : s.Stages p := ⟨procedure, chunk, verified.anchored, room_of_tests verified tests some start⟩
      rw [List.length_append]
      exact stages.leads_tests tests start small (by rw [find?_pairs, first]; rfl) found

end Arm

namespace Act

variable {s : Scene} {i : Instruction} {σ : Store} {args : List Value}

theorem does_perform_call (shape : callShape? i = some (args.length, false)) (callee : Value) :
    (perform σ i).Does { s with stack := callee :: args ++ s.stack } (.ok (.call callee args, σ)) s := by
  refine does_get fun a _ => ?_
  have called := does_bind (f := fun move => pure (move, σ)) (does_call (s := s) callee args)
    (does_pure (Move.call callee args, σ))
  obtain ⟨op, operand, fits⟩ := i
  cases op with
  | call0 | call1 | call =>
    obtain same := (Prod.mk.inj (Option.some.inj shape)).1
    rw [← same] at called
    exact called
  | tailCall => cases (Prod.mk.inj (Option.some.inj shape)).2
  | _ => cases shape

theorem does_perform_refused (shape : callShape? i = some (args.length, true)) {p : Procedure Value}
    {captured : List Value} {f : Fault} (refused : p.arity.check args.length = .error f) :
    (perform σ i).Does { s with stack := .closure p captured :: args ++ s.stack } (.error (.fault f)) s := by
  refine does_get fun a _ => ?_
  have fails := (@leaves_tailCall σ s (.closure p captured) args).refused rfl refused
  obtain ⟨op, operand, fits⟩ := i
  cases op with
  | tailCall =>
    obtain same := (Prod.mk.inj (Option.some.inj shape)).1
    rw [← same] at fails
    exact fails
  | call0 | call1 | call => cases (Prod.mk.inj (Option.some.inj shape)).2
  | _ => cases shape

end Act

/-- How calls of a procedure go that has these arms. -/
structure Procedure.Dispatches (p : Procedure Value) (arms : List Arm) : Prop where
  /-- What is accepted is what fits an arm. -/
  accepts : ∀ n, p.arity.accepts n ↔ ∃ arm ∈ arms, arm.clause.fits n
  ascends : p.arity.counts.Pairwise (· < ·)
  /-- Arguments that are accepted start the body. -/
  starts : ∀ {captured args : List Value} {m : Machine} {pending : List Pending}, p.arity.accepts args.length →
    m.pool.Tidy → ∃ a, State.step ⟨m, .calling (.closure p captured) args, pending⟩ =
      ⟨m.granted (m.pool.alloc p.frameSize), .running a, pending⟩ ∧ a.Shows (.enter p.chunk ⟨p, captured⟩ args)
  /-- From there, or wherever else the body starts, control comes to the first arm that they fit. -/
  enters : ∀ {s : Scene}, s.closure.procedure = p → s.chunk = p.chunk → s.args.length < countLimit →
    p.arity.accepts s.args.length → ∃ arm, arms.find? (·.clause.fits s.args.length) = some arm ∧
      ∃ front back, p.code = front ++ (arm.code ++ back) ∧ (s.placed [] 0).Leads (s.placed [] front.length)
  /-- Arguments that fit no arm are refused, whoever calls. -/
  refuses : ∀ {captured args : List Value} {m : Machine} {pending : List Pending},
    (∀ arm ∈ arms, arm.clause.fits args.length = false) →
      State.step ⟨m, .calling (.closure p captured) args, pending⟩ =
        ⟨m, .unwinding (.unmatchedArity p.arity args.length), pending⟩ ∧
      ∀ {a : Activation} {s : Scene} {below : List Value} {i : Instruction},
        a.Shows (s.placed (.closure p captured :: args ++ below) s.pc) → a.procedure.code[a.pc]? = some i →
        (callShape? i = some (args.length, false) → ∃ n b, m.Tells n ∧ b.Shows (s.placed below (s.pc + 1)) ∧
          State.step^[2] ⟨m, .running a, pending⟩ =
            ⟨n, .unwinding (.unmatchedArity p.arity args.length), .resume b :: pending⟩) ∧
        (callShape? i = some (args.length, true) → ∃ n b, m.Tells n ∧ b.Shows (s.placed below (s.pc + 1)) ∧
          State.step ⟨m, .running a, pending⟩ =
            ⟨n.abandon b (.unmatchedArity p.arity args.length),
              .unwinding (.unmatchedArity p.arity args.length), pending⟩)
  /-- Nothing comes to what stands behind the tests. -/
  spares : ∀ {gate rest : List Instruction}, Arm.Gate arms gate → p.code = gate ++ rest → ∀ {s : State},
    (∀ a ∈ s.activations, a.procedure ≠ p) → ∀ (k : Nat) {a : Activation},
      (State.step^[k] s).control = .running a → a.procedure = p → a.args.length < countLimit →
        a.pc + 2 < gate.length ∨ gate.length ≤ a.pc

section

variable {p : Procedure Value} {captured args : List Value} {arms : List Arm} {checked : Checked} {m : Machine}
  {pending : List Pending}

theorem callValue_accepted (accepted : p.arity.accepts args.length) :
    State.callValue m pending (.closure p captured) args = State.start m pending ⟨p, captured⟩ args := by
  unfold State.callValue
  rw [Play.callable?_closure, Arity.check_of_accepts accepted]

theorem callValue_refused (refused : ¬p.arity.accepts args.length) :
    State.callValue m pending (.closure p captured) args =
      ⟨m, .unwinding (.unmatchedArity p.arity args.length), pending⟩ := by
  unfold State.callValue
  rw [Play.callable?_closure, Arity.check_of_not_accepts refused]

/-- A call in a body that is refused leaves the body waiting. -/
theorem step_call_refused (refused : ¬p.arity.accepts args.length) {a : Activation} {s : Scene}
    {below : List Value} {i : Instruction} (shows : a.Shows (s.placed (.closure p captured :: args ++ below) s.pc))
    (here : a.procedure.code[a.pc]? = some i) (shape : callShape? i = some (args.length, false)) :
    ∃ n b, m.Tells n ∧ b.Shows (s.placed below (s.pc + 1)) ∧ State.step^[2] ⟨m, .running a, pending⟩ =
      ⟨n, .unwinding (.unmatchedArity p.arity args.length), .resume b :: pending⟩ := by
  have past : ({ a with pc := a.pc + 1 } : Activation).Shows
      { s.placed below (s.pc + 1) with stack := .closure p captured :: args ++ below } :=
    { shows with pc := congrArg (· + 1) shows.pc }
  obtain ⟨b, ended, shown, -⟩ := Act.does_perform_call (σ := (State.traced m a i).store)
    (s := s.placed below (s.pc + 1)) shape (.closure p captured) _ past
  refine ⟨_, b, .traced m a i, shown, ?_⟩
  show State.step (State.step ⟨m, .running a, pending⟩) = _
  rw [State.step_of_ends here ended]
  exact callValue_refused refused

/-- A tail call that is refused ends the body. -/
theorem step_tailCall_refused (refused : ¬p.arity.accepts args.length) {a : Activation} {s : Scene}
    {below : List Value} {i : Instruction} (shows : a.Shows (s.placed (.closure p captured :: args ++ below) s.pc))
    (here : a.procedure.code[a.pc]? = some i) (shape : callShape? i = some (args.length, true)) :
    ∃ n b, m.Tells n ∧ b.Shows (s.placed below (s.pc + 1)) ∧ State.step ⟨m, .running a, pending⟩ =
      ⟨n.abandon b (.unmatchedArity p.arity args.length), .unwinding (.unmatchedArity p.arity args.length),
        pending⟩ := by
  have past : ({ a with pc := a.pc + 1 } : Activation).Shows
      { s.placed below (s.pc + 1) with stack := .closure p captured :: args ++ below } :=
    { shows with pc := congrArg (· + 1) shows.pc }
  obtain ⟨b, ended, shown, -⟩ := Act.does_perform_refused (σ := (State.traced m a i).store)
    (s := s.placed below (s.pc + 1)) shape (Arity.check_of_not_accepts refused) _ past
  exact ⟨_, b, .traced m a i, shown, State.step_of_fails here ended⟩

theorem Arm.Fill.dispatches (fill : Arm.Fill arms p.code) (verified : p.Verified checked)
    (accepts : ∀ n, p.arity.accepts n ↔ ∃ arm ∈ arms, arm.clause.fits n)
    (ascends : p.arity.counts.Pairwise (· < ·)) : p.Dispatches arms where
  accepts := accepts
  ascends := ascends
  starts accepted tidy := by
    obtain ⟨suits, -⟩ := tidy.alloc p.frameSize
    exact ⟨_, callValue_accepted accepted, Activation.shows_enter suits⟩
  enters {s} procedure chunk small accepted := by
    have some : (arms.find? (·.clause.fits s.args.length)).isSome := List.find?_isSome.mpr ((accepts _).mp accepted)
    obtain ⟨first, found⟩ := Option.isSome_iff_exists.mp some
    exact ⟨first, found, fill.leads verified procedure chunk small found⟩
  refuses none := by
    have refused : ¬p.arity.accepts _ := fun accepted => by
      obtain ⟨arm, member, fits⟩ := (accepts _).mp accepted
      rw [none arm member] at fits
      cases fits
    exact ⟨callValue_refused refused, fun shows here =>
      ⟨step_call_refused refused shows here, step_tailCall_refused refused shows here⟩⟩
  spares gates code s fresh k a running own small := by
    cases gates with
    | @intro is place tests fits =>
      have guards := Arm.Fill.guards verified (fun accepted => (accepts _).mp accepted) tests
        (code.trans (List.append_assoc ..))
      have spared := State.never_behind guards fresh k running own small
      simp only [List.length_append, List.length_cons, List.length_nil]
      omega

end

/-- A call with arguments that are accepted comes to the code of the first arm that they fit. -/
theorem Procedure.Dispatches.comes {p : Procedure Value} {arms : List Arm} (dispatches : p.Dispatches arms)
    {captured args : List Value} {m : Machine} {pending : List Pending} (tidy : m.pool.Tidy)
    (small : args.length < countLimit) (accepted : p.arity.accepts args.length) :
    ∃ arm, arms.find? (·.clause.fits args.length) = some arm ∧
      ∃ front back k n b, p.code = front ++ (arm.code ++ back) ∧
        State.step^[k] ⟨m, .calling (.closure p captured) args, pending⟩ = ⟨n, .running b, pending⟩ ∧
        b.Shows ((Scene.enter p.chunk ⟨p, captured⟩ args).placed [] front.length) := by
  obtain ⟨a, started, shows⟩ := @dispatches.starts captured args m pending accepted tidy
  obtain ⟨arm, found, front, back, code, leads⟩ :=
    dispatches.enters (s := .enter p.chunk ⟨p, captured⟩ args) rfl rfl small accepted
  obtain ⟨k, n, b, ran, shown, -⟩ := leads _ pending a shows
  refine ⟨arm, found, front, back, k + 1, n, b, code, ?_, shown⟩
  rw [Function.iterate_succ_apply, started]
  exact ran

/-- What an arm reads of the arguments of a call with `n` of them: one that is there, or those past its
parameters. -/
structure Arm.Reads (arm : Arm) (n : Nat) (i : Instruction) : Prop where
  arg : i.op = .arg → i.operand < n
  rest : i.op = .restArg → ∀ (σ : Store) (s : Scene),
    s.turn σ i = (s.past i).give σ (.ofList (s.args.drop arm.clause.fixedCount))

theorem Clause.Reads.within {arm : Arm} {n : Nat} {i : Instruction} (reads : arm.clause.Reads i)
    (fits : arm.clause.fits n) : arm.Reads n i := by
  have least : arm.clause.fixedCount ≤ n := by
    cases variadic : arm.clause.isVariadic with
    | true => exact (Clauses.fits_of_variadic variadic).mp fits
    | false => exact Nat.le_of_eq ((Clauses.fits_of_fixed variadic).mp fits).symm
  refine ⟨fun arg => Nat.lt_of_lt_of_le (reads.arg arg) least, fun rest σ s => ?_⟩
  obtain ⟨-, same⟩ := reads.rest rest
  rw [← same]
  obtain ⟨op, operand, small⟩ := i
  obtain rfl : op = .restArg := rest
  rfl

/-- A procedure made of clauses. The compiler writes an arm for each, the passes work on each arm, and the code
of the procedure is made of what they come to. Its calls go as the arms say. An arm asks for arguments that a
call it fits has, but for what builtins are written as in place of their calls. -/
theorem procedure_dispatches {n : Nat} {name : Option String} {cs : Clauses} {w x : Workshop}
    {p : Procedure Value} {captured : List String}
    (made : Yields (Compile.procedure (Compile.formUpTo n) name cs) w (p, captured) x)
    (nested : ∀ c ∈ cs, ∀ v ∈ c.body, v.nesting ≤ n) :
    ∃ z source arms, Yields (Compile.clauses (Compile.formUpTo n) cs) (w.child name) () z ∧
      source.map Arm.clause = cs ∧ Arm.Written (Compile.formUpTo n) (w.child name) source z ∧
      arms.map Arm.clause = cs ∧ Arm.Optimized w.encoder.options z.chunk z.store source arms ∧
      Arm.Fill arms p.code ∧ p.Dispatches arms ∧
      ∀ arm ∈ source, ∀ n, arm.clause.fits n → ∀ i ∈ arm.code,
        arm.Reads n i ∨ Compile.InPlace (w.store.namespaces.resolve? w.encoder.globals) i := by
  obtain ⟨z, store, encoded, built, -, -⟩ := Compile.procedure_yields made
  have forms := Compile.formUpTo_elaborates (w.store.namespaces.resolve? w.encoder.globals) n
  obtain ⟨source, named, written, each⟩ := Compile.clauses_arms forms nested (Workshop.sound_child w name)
    (fun x => rfl) rfl encoded
  obtain ⟨arms, fill, optimized⟩ :=
    (written.fill rfl rfl).build (c := z.chunk) (fun arm member => (each arm member).1) built
  obtain ⟨d, u, checked, -, accepted, chunk, labels, stackSize, -, -, arity, -⟩ := Chunk.build_yields built
  have verified : p.Verified checked := ⟨chunk ▸ accepted, labels, stackSize⟩
  have clauses : arms.map Arm.clause = cs := by
    have pairs := congrArg (List.map Prod.fst) optimized.pairs
    rw [List.map_map, List.map_map] at pairs
    exact (show arms.map Arm.clause = source.map Arm.clause from pairs).trans named
  refine ⟨z, source, arms, encoded, named, written, clauses, optimized, fill, ?_,
    fun arm member n fits i inside => ((each arm member).2 i inside).imp_left fun reads => reads.within fits⟩
  refine fill.dispatches verified (fun n => ?_) (arity ▸ Clauses.ascending_arity _)
  rw [arity, Clauses.arity_accepts, ← clauses]
  simp

/-- A builtin that is written in place of its calls as an operation on the arguments of the call around it. -/
def peeking : Builtin :=
  { name := "f", arity := .any, operation := .note, intrinsic := some (.unary .arg) }

/-- A namespace above the language in which it is bound, and a clause without parameters that calls it. -/
def peekingStore : Store :=
  ((Store.addUser {}).2.bind (Store.addUser {}).1 "f" (.builtin peeking)).toOption.getD {}

def peekingClause : Clause :=
  ⟨[], none, [.ofList [.symbol "f", .integer 1]]⟩

/-- Such a call in a procedure without parameters asks for an argument that no call of the procedure has. -/
theorem procedure_peeking : ∃ p x,
    (Store.addUser {}).2.bind (Store.addUser {}).1 "f" (.builtin peeking) = .ok peekingStore ∧
      Yields (Compile.procedure (Compile.formUpTo 1) none [peekingClause])
        ⟨{ globals := (Store.addUser {}).1, options := .withoutInlining }, peekingStore⟩ (p, []) x ∧
      p.arity.accepts 0 ∧ ∃ i ∈ p.code, i.op = .arg ∧ ¬i.operand < 0 := by
  let w : Workshop := ⟨{ globals := (Store.addUser {}).1, options := .withoutInlining }, peekingStore⟩
  have run : ((Compile.procedure (Compile.formUpTo 1) none [peekingClause]).run w :
      Except Rejection (Procedure Value × List String) × Workshop).1.toOption.map (fun made =>
        (made.2, made.1.arity.accepts 0, made.1.code)) =
      some ([], true, [⟨.posInt, 1, by decide⟩, ⟨.arg, 0, Nat.zero_le _⟩, Opcode.ret.bare]) := by
    decide +kernel
  cases ended : ((Compile.procedure (Compile.formUpTo 1) none [peekingClause]).run w :
      Except Rejection (Procedure Value × List String) × Workshop) with
  | mk r x =>
    rw [ended] at run
    cases r with
    | error e => cases run
    | ok made =>
      obtain ⟨p, captured⟩ := made
      obtain ⟨rfl, made⟩ := Prod.mk.inj (Option.some.inj run)
      obtain ⟨accepts, code⟩ := Prod.mk.inj made
      refine ⟨p, x, rfl, ended, accepts, ⟨.arg, 0, Nat.zero_le _⟩, ?_, rfl, Nat.lt_irrefl 0⟩
      rw [show p.code = _ from code]
      exact List.mem_cons_of_mem _ List.mem_cons_self

/-- Clauses of one parameter, and of two or more. -/
def oneOrMore : Clauses :=
  [⟨["x"], none, [.symbol "x"]⟩, ⟨["x", "y"], some "more", [.symbol "more"]⟩]

/-- The second arm of a body of theirs that ends so is the rest of the arguments and a return. -/
theorem oneOrMore_code {source : List Arm} {code : List Instruction} (fill : Arm.Fill source code)
    (named : source.map Arm.clause = oneOrMore) (behind : code.drop 10 = [⟨.label, 0, by decide⟩,
      ⟨.arg, 0, by decide⟩, Opcode.ret.bare, ⟨.label, 1, by decide⟩, ⟨.restArg, 2, by decide⟩, Opcode.ret.bare]) :
    ∃ first second : Arm, source = [first, second] ∧
      second.code = [⟨.restArg, 2, by decide⟩, Opcode.ret.bare] := by
  have two : source.length = 2 := by
    rw [← List.length_map (f := Arm.clause), named]
    rfl
  obtain ⟨first, second, rfl⟩ := List.length_eq_two.mp two
  refine ⟨first, second, rfl, ?_⟩
  cases fill with
  | several many labels gates lie =>
    cases gates with
    | intro tests small =>
      cases tests with
      | cons count named rest =>
        cases rest with
        | cons count named rest =>
          cases rest
          cases lie with
          | cons small lie =>
            cases lie with
            | cons small lie =>
              cases lie
              have parted := (List.cons.inj behind).2
              rw [List.append_nil] at parted
              generalize first.code = front at parted
              rcases front with _ | ⟨a, _ | ⟨b, _ | ⟨c, _ | ⟨d, _ | ⟨e, others⟩⟩⟩⟩⟩ <;>
                simp_all [Opcode.bare]

/-- A procedure of theirs has a call with three arguments come to the second arm, which asks for those past
the second, and refuses one without. -/
theorem procedure_dispatches_oneOrMore : ∃ p x, Yields (Compile.procedure (Compile.formUpTo 0) none oneOrMore)
      ⟨{ globals := 0, options := .withoutInlining }, {}⟩ (p, []) x ∧
    (∃ (arm : Arm) (front back : List Instruction) (k : Nat) (n : Machine) (b : Activation),
      arm.clause = ⟨["x", "y"], some "more", [.symbol "more"]⟩ ∧
      arm.code = [⟨.restArg, 2, by decide⟩, Opcode.ret.bare] ∧ (∀ i ∈ arm.code, arm.Reads 3 i) ∧
      p.code = front ++ (shorten arm.code ++ back) ∧
      State.step^[k] ⟨.new {} {}, .calling (.closure p []) [.null, .null, .null], []⟩ = ⟨n, .running b, []⟩ ∧
      b.pc = front.length) ∧
    State.step ⟨.new {} {}, .calling (.closure p []) [], []⟩ =
      ⟨.new {} {}, .unwinding (.unmatchedArity p.arity 0), []⟩ := by
  let w : Workshop := ⟨{ globals := 0, options := .withoutInlining }, {}⟩
  have run : ((Compile.procedure (Compile.formUpTo 0) none oneOrMore).run w :
      Except Rejection (Procedure Value × List String) × Workshop).1.toOption.map (·.2) = some [] := by
    decide +kernel
  have behind : ((Compile.clauses (Compile.formUpTo 0) oneOrMore).run (w.child none) :
      Except Rejection Unit × Workshop).2.body.code.drop 10 = [⟨.label, 0, by decide⟩,
      ⟨.arg, 0, by decide⟩, Opcode.ret.bare, ⟨.label, 1, by decide⟩, ⟨.restArg, 2, by decide⟩, Opcode.ret.bare] := by
    decide +kernel
  cases ended : ((Compile.procedure (Compile.formUpTo 0) none oneOrMore).run w :
      Except Rejection (Procedure Value × List String) × Workshop) with
  | mk r x =>
    rw [ended] at run
    match r with
    | .error e => cases run
    | .ok (p, captured) =>
      obtain rfl : captured = [] := Option.some.inj run
      have shallow : ∀ c ∈ oneOrMore, ∀ v ∈ c.body, v.nesting ≤ 0 := by decide
      obtain ⟨z, source, arms, encoded, named, written, clauses, optimized, -, dispatches, reads⟩ :=
        procedure_dispatches ended shallow
      rw [show (Compile.clauses (Compile.formUpTo 0) oneOrMore).run (w.child none) = _ from encoded] at behind
      obtain ⟨first, second, rfl, rest⟩ := oneOrMore_code (written.fill rfl rfl) named behind
      obtain ⟨one, named⟩ := List.cons.inj named
      obtain ⟨more, -⟩ := List.cons.inj named
      obtain rfl : arms = [first.shortened, second.shortened] := optimized
      have accepted : p.arity.accepts 3 := by
        refine (dispatches.accepts 3).mpr ⟨second.shortened, by simp, ?_⟩
        show second.clause.fits 3
        rw [more]
        rfl
      refine ⟨p, x, ended, ?_, (dispatches.refuses fun arm member => ?_).1⟩
      · obtain ⟨arm, found, front, back, k, n, b, code, ran, shown⟩ := @Procedure.Dispatches.comes p _ dispatches
          [] [.null, .null, .null] (.new {} {}) [] (Pool.tidy_new {}) (by decide) accepted
        have other : first.shortened.clause.fits 3 = false := by
          show first.clause.fits 3 = false
          rw [one]
          rfl
        have fits : second.shortened.clause.fits 3 := by
          show second.clause.fits 3
          rw [more]
          rfl
        obtain rfl : second.shortened = arm := by
          have last : [first.shortened, second.shortened].find? (·.clause.fits 3) = some second.shortened := by
            simp [other, fits]
          exact Option.some.inj (last.symm.trans found)
        have own : ∀ i ∈ second.code, second.Reads 3 i := by
          intro i inside
          refine (reads second (by simp) 3 fits i inside).resolve_right ?_
          rintro ⟨x, b, count, op, times, resolved, -⟩
          cases resolved
        exact ⟨second, front, back, k, n, b, more, rest, own, code, ran, shown.pc⟩
      · have none : ∀ c ∈ oneOrMore, c.fits 0 = false := by decide
        refine none _ (clauses ▸ List.mem_map_of_mem member)

end StackLisp
