import Mathlib.Logic.Function.Iterate
import StackLisp.Machine
import StackLisp.Proofs.Conduct
import StackLisp.Proofs.Passes

/-!
The tests of a body with clauses at run time. A call comes to them only with an argument count that one of
the clauses takes, and as long as that clause is ahead they do not run out. So the message behind them is never
given, whatever runs.
-/

namespace StackLisp

/-- Argument lists stay shorter than this in any memory; lengths below it are integers of the language. -/
def countLimit : Nat :=
  2 ^ 63

variable {n : Nat} {c : Clause}

theorem toInt_count (small : n < countLimit) : (Int64.ofNat n).toInt = n :=
  Int64.toInt_ofNat_of_lt small

theorem isEq_counts (n m : Nat) : (compare (n : Int) m).isEq = decide (n = m) := by
  rw [Bool.eq_iff_iff, Ordering.isEq_iff_eq_eq, compare_eq_iff_eq, decide_eq_true_iff]
  exact Int.ofNat_inj

theorem isGE_counts (n m : Nat) : (compare (n : Int) m).isGE = decide (m ≤ n) := by
  rw [Bool.eq_iff_iff]
  simp [Ordering.isGE_iff_ne_lt, compare_lt_iff_lt]

theorem Clause.compares (count : c.fixedCount ≤ maxOperand) (small : n < countLimit) :
    ∃ f, (if c.isVariadic then Opcode.numGte else .numEq).binary? = some f ∧
      f (.integer (Int64.ofNat n)) (.integer (Int64.ofNat c.fixedCount)) = .ok (.bool (c.fits n)) := by
  have fixed : (Int64.ofNat c.fixedCount).toInt = c.fixedCount :=
    toInt_count (Nat.lt_of_le_of_lt count (by decide))
  unfold fits
  split
  · refine ⟨_, rfl, ?_⟩
    show Except.ok (Value.bool (compare (Int64.ofNat n).toInt (Int64.ofNat c.fixedCount).toInt).isGE) = _
    rw [toInt_count small, fixed, isGE_counts]
  · refine ⟨_, rfl, ?_⟩
    show Except.ok (Value.bool (compare (Int64.ofNat n).toInt (Int64.ofNat c.fixedCount).toInt).isEq) = _
    rw [toInt_count small, fixed, isEq_counts]

/-- How a count of arguments stands before the rest of the tests: what is yet to run, up to what stands behind
the tests, and the operands for it. A clause that the count fits is still ahead. -/
inductive Asks (n : Nat) (behind : List Instruction) : List Instruction → List Value → Prop
  | count {cs : List (Clause × Nat)} {is : List Instruction} (tests : Tests cs is)
    (ahead : ∃ c ∈ cs, c.1.fits n) : Asks n behind (is ++ behind) []
  | length {c : Clause} {label : Nat} {cs : List (Clause × Nat)} {is : List Instruction}
    (small : c.fixedCount ≤ maxOperand) (named : label ≤ maxOperand) (tests : Tests cs is)
    (ahead : c.fits n ∨ ∃ c ∈ cs, c.1.fits n) :
    Asks n behind (Opcode.argLen.bare :: (if c.isVariadic then Opcode.numGte else Opcode.numEq).bare ::
      ⟨.condJump, label, named⟩ :: (is ++ behind)) [.integer (Int64.ofNat c.fixedCount)]
  | compare {c : Clause} {label : Nat} {cs : List (Clause × Nat)} {is : List Instruction}
    (small : c.fixedCount ≤ maxOperand) (named : label ≤ maxOperand) (tests : Tests cs is)
    (ahead : c.fits n ∨ ∃ c ∈ cs, c.1.fits n) :
    Asks n behind ((if c.isVariadic then Opcode.numGte else Opcode.numEq).bare ::
      ⟨.condJump, label, named⟩ :: (is ++ behind))
      [.integer (Int64.ofNat n), .integer (Int64.ofNat c.fixedCount)]
  | choose {c : Clause} {label : Nat} {cs : List (Clause × Nat)} {is : List Instruction}
    (named : label ≤ maxOperand) (tests : Tests cs is) (ahead : c.fits n ∨ ∃ c ∈ cs, c.1.fits n) :
    Asks n behind (⟨.condJump, label, named⟩ :: (is ++ behind)) [.bool (c.fits n)]

theorem Asks.length_lt {behind code : List Instruction} {vs : List Value} (h : Asks n behind code vs) :
    behind.length < code.length := by
  cases h with
  | count tests ahead =>
    cases tests with
    | nil =>
      obtain ⟨c, none, -⟩ := ahead
      cases none
    | cons =>
      simp only [List.length_append, List.length_cons]
      omega
  | _ =>
    simp only [List.length_append, List.length_cons]
    omega

/-- The topmost operands. -/
def Activation.Tops (a : Activation) (vs : List Value) : Prop :=
  ∀ {k : Nat} {v : Value}, vs[k]? = some v → a.frame.slots[a.sp + k]? = some v

namespace Act

variable {α : Type} {a b : Activation} {v w : Value} {vs : List Value} {i : Instruction} {σ τ : Store} {move : Move}

theorem require_yields {x : Option α} {r : α} (h : Yields (require x) a r b) : x = some r ∧ b = a := by
  cases x with
  | none => exact (Yields.throw_iff.mp h).elim
  | some x =>
    obtain ⟨rfl, rfl⟩ := Yields.pure_iff.mp h
    exact ⟨rfl, rfl⟩

theorem writeSlot_yields {k : Nat} {u : Unit} (h : Yields (writeSlot k v) a u b) :
    k < a.frame.length ∧ b = { a with frame := ⟨a.frame.slots.setIfInBounds k v, a.frame.span⟩ } := by
  change writeSlot k v a = _ at h
  unfold writeSlot at h
  dsimp only at h
  split at h
  next inside => exact ⟨inside, (Prod.mk.inj h).2.symm⟩
  · cases (Prod.mk.inj h).1

theorem pop_yields (h : Yields pop a v b) : a.frame.slots[a.sp]? = some v ∧
    b = { a with frame := ⟨a.frame.slots.setIfInBounds a.sp .null, a.frame.span⟩, sp := a.sp + 1 } := by
  obtain ⟨_, _, first, reading⟩ := Yields.bind_iff.mp h
  obtain ⟨rfl, rfl⟩ := Yields.get_iff.mp first
  obtain ⟨_, _, second, taking⟩ := Yields.bind_iff.mp reading
  obtain ⟨rfl, rfl⟩ := Yields.get_iff.mp second
  obtain ⟨w, _, required, clearing⟩ := Yields.bind_iff.mp taking
  obtain ⟨found, rfl⟩ := require_yields required
  obtain ⟨_, _, wrote, moving⟩ := Yields.bind_iff.mp clearing
  obtain ⟨-, rfl⟩ := writeSlot_yields wrote
  obtain ⟨_, _, moved, done⟩ := Yields.bind_iff.mp moving
  obtain rfl := Yields.modify_iff.mp moved
  obtain ⟨rfl, rfl⟩ := Yields.pure_iff.mp done
  exact ⟨found, rfl⟩

theorem Tops.pop (tops : a.Tops (v :: vs)) (h : Yields Act.pop a w b) : w = v ∧ b.Tops vs := by
  obtain ⟨found, rfl⟩ := pop_yields h
  refine ⟨Option.some.inj (found.symm.trans (tops (k := 0) rfl)), fun {k u} there => ?_⟩
  show (a.frame.slots.setIfInBounds a.sp .null)[a.sp + 1 + k]? = some u
  rw [Array.getElem?_setIfInBounds_ne (by omega), Nat.add_assoc, Nat.add_comm 1]
  exact tops (k := k + 1) there

theorem Tops.push {u : Unit} (tops : a.Tops vs) (h : Yields (Act.push v) a u b) : b.Tops (v :: vs) := by
  obtain ⟨_, _, first, writing⟩ := Yields.bind_iff.mp h
  obtain ⟨rfl, rfl⟩ := Yields.get_iff.mp first
  split at writing
  · exact (Yields.throw_iff.mp writing).elim
  next sp level =>
    have top : _ = sp + 1 := level
    obtain ⟨_, _, wrote, moved⟩ := Yields.bind_iff.mp writing
    obtain ⟨inside, rfl⟩ := writeSlot_yields wrote
    obtain rfl := Yields.modify_iff.mp moved
    intro k w there
    show (Array.setIfInBounds _ sp v)[sp + k]? = some w
    cases k with
    | zero =>
      cases there
      exact Array.getElem?_setIfInBounds_self_of_lt inside
    | succ k =>
      rw [Array.getElem?_setIfInBounds_ne (by omega), Nat.add_comm k, ← Nat.add_assoc, ← top]
      exact tops there

theorem pushResult_yields {act : Act Value} (h : Yields (pushResult σ act) a (move, τ) b) :
    ∃ v u, Yields act a v u ∧ Yields (push v) u () b ∧ move = .go := by
  obtain ⟨_, _, pushed, done⟩ := Yields.bind_iff.mp h
  obtain ⟨v, u, gives, pushes⟩ := Yields.bind_iff.mp pushed
  obtain ⟨same, rfl⟩ := Yields.pure_iff.mp done
  exact ⟨v, u, gives, pushes, (Prod.mk.inj same).1⟩

theorem perform_yields (h : Yields (perform σ i) a (move, τ) b) :
    Yields (performIn a.procedure.globals σ i) a (move, τ) b := by
  obtain ⟨_, _, read, performed⟩ := Yields.bind_iff.mp h
  obtain ⟨rfl, rfl⟩ := Yields.get_iff.mp read
  exact performed

/-- An instruction stays with the closure, goes on or to its label, and leaves the arguments alone unless it
stages some. -/
structure Moves (i : Instruction) (a b : Activation) : Prop where
  closure : b.closure = a.closure
  pc : b.pc = a.pc ∨ i.op.jumps ∧ a.procedure.labels[i.operand]?.bind id = some b.pc
  args : i.op ≠ .pushArgs → i.op ≠ .popArgs → b.args = a.args

instance (i : Instruction) : Ignoring (Moves i) where
  refl a := ⟨rfl, .inl rfl, fun _ _ => rfl⟩
  trans {a b c} h g := by
    have same : b.procedure = a.procedure := congrArg Closure.procedure h.closure
    refine ⟨g.closure.trans h.closure, ?_, fun push pop => (g.args push pop).trans (h.args push pop)⟩
    rcases g.pc with stays | ⟨jumps, lands⟩
    · rw [stays]
      exact h.pc
    · exact .inr ⟨jumps, same ▸ lands⟩
  slots a frame sp _ := ⟨rfl, .inl rfl, fun _ _ => rfl⟩

theorem jump_yields {label : Nat} {u : Unit} (h : Yields (jump label) a u b) :
    ∃ target, a.procedure.labels[label]?.bind id = some target ∧ b = { a with pc := target } := by
  obtain ⟨_, _, read, finding⟩ := Yields.bind_iff.mp h
  obtain ⟨rfl, rfl⟩ := Yields.get_iff.mp read
  obtain ⟨target, _, required, moved⟩ := Yields.bind_iff.mp finding
  obtain ⟨found, rfl⟩ := require_yields required
  exact ⟨target, found, Yields.modify_iff.mp moved⟩

theorem moves_jump (jumps : i.op.jumps) : Along (Moves i) (jump i.operand) := by
  intro a
  show Moves i a ((jump i.operand).run a : Except Failure Unit × Activation).2
  cases found : a.procedure.labels[i.operand]?.bind id with
  | none =>
    have fails : Ends (jump i.operand) a (.error (.breach .outOfRange)) a := by
      refine Ends.bind_ok (a := a) (t := a) rfl (Ends.bind_error ?_)
      rw [found]
      rfl
    rw [show ((jump i.operand).run a : Except Failure Unit × Activation) = _ from fails]
    exact Ignoring.refl a
  | some target =>
    have lands : Ends (jump i.operand) a (.ok ()) { a with pc := target } := by
      refine Ends.bind_ok (a := a) (t := a) rfl (Ends.bind_ok (a := target) (t := a) ?_ rfl)
      rw [found]
      rfl
    rw [show ((jump i.operand).run a : Except Failure Unit × Activation) = _ from lands]
    exact ⟨rfl, .inr ⟨jumps, found⟩, fun _ _ => rfl⟩

theorem moves_perform (other : i.op ≠ .tailCall) {r : Except Failure (Move × Store)} (h : Ends (perform σ i) a r b) :
    Moves i a b := by
  have along := along_perform (R := Moves i) σ i moves_jump (fun tail => absurd tail other)
    (fun stages a args saved => ⟨rfl, .inl rfl, fun push pop => by rcases stages with h | h <;> contradiction⟩) a
  rwa [show ((perform σ i).run a : Except Failure (Move × Store) × Activation) = _ from h] at along

/-- Whatever the action yields is such. -/
def Gives (P : α → Prop) (act : Act α) : Prop :=
  ∀ a b r, Yields act a r b → P r

theorem gives_bind {β : Type} {P : β → Prop} {act : Act α} {f : α → Act β} (h : ∀ r, Gives P (f r)) :
    Gives P (act >>= f) := by
  intro a b r yields
  obtain ⟨x, u, -, next⟩ := Yields.bind_iff.mp yields
  exact h x _ _ _ next

theorem gives_map {β : Type} {P : α → Prop} {Q : β → Prop} {act : Act α} {f : α → β} (h : Gives P act)
    (each : ∀ r, P r → Q (f r)) : Gives Q (do return f (← act)) := by
  intro a b r yields
  obtain ⟨x, u, first, last⟩ := Yields.bind_iff.mp yields
  obtain ⟨rfl, -⟩ := Yields.pure_iff.mp last
  exact each x (h _ _ _ first)

theorem gives_pure {P : α → Prop} {r : α} (h : P r) : Gives P (pure r) := by
  intro a b s yields
  obtain ⟨rfl, -⟩ := Yields.pure_iff.mp yields
  exact h

end Act

/-- What an operation comes to, as far as control goes. Another closure is put in place only if it accepts the
arguments. -/
def Opcode.Offers (op : Opcode) : Move → Prop
  | .go | .answer _ => True
  | .call _ _ => op = .call0 ∨ op = .call1 ∨ op = .call
  | .leave _ _ => op = .tailCall
  | .switch c args => op = .tailCall ∧ c.procedure.arity.accepts args.length

namespace Act

variable {a b : Activation} {i : Instruction} {σ τ : Store} {move : Move}

theorem gives_quietly {op : Opcode} (act : Act Unit) : Gives (fun r => op.Offers r.1) (quietly σ act) :=
  gives_bind fun _ => gives_pure trivial

theorem gives_call (count : Nat) : Gives (fun move => ∃ callee args, move = .call callee args) (call count) :=
  gives_bind fun callee => gives_map (P := fun _ => True) (fun _ _ _ _ => trivial) fun args _ => ⟨callee, args, rfl⟩

theorem restart_yields {c : Closure} {args : List Value} {u : Unit} (h : Yields (restart c args) a u b) :
    b.closure = c ∧ b.args = args ∧ b.pc = 0 := by
  obtain ⟨_, _, read, emptying⟩ := Yields.bind_iff.mp h
  obtain ⟨_, _, emptied, moved⟩ := Yields.bind_iff.mp emptying
  obtain rfl := Yields.modify_iff.mp moved
  exact ⟨rfl, rfl, rfl⟩

/-- A tail call starts a closure over its arguments in place, or has another one put there, or leaves. -/
theorem tailCall_starts {count : Nat} (h : Yields (tailCall count) a move b) : Opcode.tailCall.Offers move ∧
    (move = .go → b.pc = 0 ∧ b.procedure.arity.accepts b.args.length) := by
  obtain ⟨callee, _, _, taking⟩ := Yields.bind_iff.mp h
  obtain ⟨args, _, _, choosing⟩ := Yields.bind_iff.mp taking
  cases callee with
  | closure p captured =>
    obtain ⟨_, _, checked, starting⟩ := Yields.bind_iff.mp choosing
    have accepted : p.arity.accepts args.length := by
      cases result : p.arity.check args.length with
      | ok => exact Arity.accepts_of_check result
      | error f =>
        rw [result] at checked
        exact (Yields.throw_iff.mp checked).elim
    obtain ⟨_, _, _, deciding⟩ := Yields.bind_iff.mp starting
    split at deciding
    · obtain ⟨_, _, restarted, going⟩ := Yields.bind_iff.mp deciding
      obtain ⟨rfl, rfl⟩ := Yields.pure_iff.mp going
      obtain ⟨closure, values, start⟩ := restart_yields restarted
      refine ⟨trivial, fun _ => ⟨start, ?_⟩⟩
      rw [Activation.procedure, closure, values]
      exact accepted
    · obtain ⟨rfl, rfl⟩ := Yields.pure_iff.mp deciding
      exact ⟨⟨rfl, accepted⟩, nofun⟩
  | _ =>
    obtain ⟨rfl, rfl⟩ := Yields.pure_iff.mp choosing
    exact ⟨rfl, nofun⟩

theorem offers_performIn (globals : NamespaceId) : Gives (fun r => i.op.Offers r.1) (performIn globals σ i) := by
  obtain ⟨op, operand, small⟩ := i
  cases op with
  | label | noOp | retNull | retTrue | retFalse => exact gives_pure trivial
  | ret => exact gives_bind fun _ => gives_pure trivial
  | panic => exact gives_bind fun _ _ _ _ yields => (Yields.throw_iff.mp yields).elim
  | bindRef | bind =>
    exact gives_bind fun _ => gives_bind fun _ => gives_bind fun _ => gives_bind fun _ => gives_pure trivial
  | declare | hide => exact gives_bind fun _ => gives_pure trivial
  | call0 | call1 | call =>
    refine gives_map (gives_call _) ?_
    rintro _ ⟨callee, args, rfl⟩
    simp [Opcode.Offers]
  | tailCall => exact gives_map (fun _ _ _ yields => (tailCall_starts yields).1) fun _ => id
  | newRef => exact gives_quietly _
  | _ => exact gives_quietly _

theorem offers_perform (h : Yields (perform σ i) a (move, τ) b) : i.op.Offers move :=
  offers_performIn _ _ _ _ (perform_yields h)

theorem restarts_perform (tail : i.op = .tailCall) (h : Yields (perform σ i) a (.go, τ) b) :
    b.pc = 0 ∧ b.procedure.arity.accepts b.args.length := by
  obtain ⟨op, operand, small⟩ := i
  obtain rfl : op = .tailCall := tail
  obtain ⟨move, _, called, done⟩ := Yields.bind_iff.mp (perform_yields h)
  obtain ⟨same, rfl⟩ := Yields.pure_iff.mp done
  obtain rfl := (Prod.mk.inj same).1
  exact (tailCall_starts called).2 rfl

theorem performIn_binary {globals : NamespaceId} {f : Value → Value → Except Fault Value}
    (meaning : i.op.binary? = some f) : performIn globals σ i = pushResult σ (do
      let left ← pop
      let right ← pop
      lift (f left right)) := by
  obtain ⟨op, operand, small⟩ := i
  cases op <;> cases meaning <;> rfl

variable {behind code : List Instruction} {vs : List Value}

/-- One instruction of the tests, where a clause that the count fits is ahead: it goes on to the next or, if the
clause of the test fits, to its label. -/
theorem asks_perform (asks : Asks a.args.length behind (i :: code) vs) (tops : a.Tops vs)
    (small : a.args.length < countLimit) (h : Yields (perform σ i) a (move, τ) b) :
    (∃ ws, Asks a.args.length behind code ws ∧ b.Tops ws) ∨
      i.op.jumps ∧ a.procedure.labels[i.operand]?.bind id = some b.pc := by
  have performed := perform_yields h
  generalize whole : i :: code = both at asks
  cases asks with
  | count tests ahead =>
    cases tests with
    | nil =>
      obtain ⟨_, none, -⟩ := ahead
      cases none
    | @cons c label cs is count named rest =>
      obtain ⟨rfl, rfl⟩ := List.cons.inj whole
      obtain ⟨v, u, gives, pushes, -⟩ := pushResult_yields performed
      obtain ⟨rfl, rfl⟩ := Yields.pure_iff.mp gives
      refine .inl ⟨_, .length count named rest ?_, Tops.push tops pushes⟩
      obtain ⟨d, member, fits⟩ := ahead
      rcases List.mem_cons.mp member with rfl | later
      · exact .inl fits
      · exact .inr ⟨d, later, fits⟩
  | length count named tests ahead =>
    obtain ⟨rfl, rfl⟩ := List.cons.inj whole
    obtain ⟨v, u, gives, pushes, -⟩ := pushResult_yields performed
    obtain ⟨_, _, read, result⟩ := Yields.bind_iff.mp gives
    obtain ⟨rfl, rfl⟩ := Yields.get_iff.mp read
    obtain ⟨rfl, rfl⟩ := Yields.pure_iff.mp result
    exact .inl ⟨_, .compare count named tests ahead, Tops.push tops pushes⟩
  | @compare c label cs is count named tests ahead =>
    obtain ⟨rfl, rfl⟩ := List.cons.inj whole
    obtain ⟨f, meaning, compared⟩ := c.compares count small
    rw [performIn_binary meaning] at performed
    obtain ⟨v, u, gives, pushes, -⟩ := pushResult_yields performed
    obtain ⟨l, t, first, taking⟩ := Yields.bind_iff.mp gives
    obtain ⟨r, _, second, applying⟩ := Yields.bind_iff.mp taking
    obtain ⟨rfl, tops⟩ := Tops.pop tops first
    obtain ⟨rfl, tops⟩ := Tops.pop tops second
    rw [compared] at applying
    obtain ⟨rfl, rfl⟩ := Yields.pure_iff.mp applying
    exact .inl ⟨_, .choose named tests ahead, Tops.push tops pushes⟩
  | choose named tests ahead =>
    obtain ⟨rfl, rfl⟩ := List.cons.inj whole
    obtain ⟨_, _, chosen, done⟩ := Yields.bind_iff.mp performed
    obtain ⟨v, u, popped, jumped⟩ := Yields.bind_iff.mp chosen
    obtain ⟨rfl, left⟩ := Tops.pop tops popped
    obtain ⟨-, rfl⟩ := Yields.pure_iff.mp done
    split at jumped
    · obtain ⟨target, found, rfl⟩ := jump_yields jumped
      obtain ⟨-, rfl⟩ := pop_yields popped
      exact .inr ⟨rfl, found⟩
    next fails =>
      obtain ⟨-, rfl⟩ := Yields.pure_iff.mp jumped
      refine .inl ⟨[], .count tests (ahead.resolve_left fun fits => fails fits), left⟩

end Act

theorem Tests.before {cs : List (Clause × Nat)} {is behind : List Instruction} {k : Nat} {i : Instruction}
    (tests : Tests cs is) (message : ∀ {k : Nat} {i : Instruction}, k < 2 → behind[k]? = some i → i.op.tests)
    (here : (is ++ behind)[k]? = some i) (early : k < is.length + 2) : i.op.tests := by
  by_cases inside : k < is.length
  · rw [List.getElem?_append_left inside] at here
    exact tests.tests i (List.mem_of_getElem? here)
  · rw [List.getElem?_append_right (Nat.le_of_not_lt inside)] at here
    exact message (by omega) here

/-- The code of the procedure starts with the tests of the arms and with what stands behind these. No jump leads
there, and each count that the procedure accepts fits one of the clauses. -/
structure Procedure.Guards (p : Procedure Value) (arms : List Arm) (is behind : List Instruction) : Prop where
  code : p.code = is ++ behind
  tests : Tests (arms.map fun arm => (arm.clause, arm.label)) is
  message : ∀ {k : Nat} {i : Instruction}, k < 2 → behind[k]? = some i → i.op.tests
  lands : ∀ {i : Instruction} {target : Nat}, i ∈ p.code → i.op.jumps →
    p.labels[i.operand]?.bind id = some target → is.length + 2 ≤ target
  fits : ∀ {n : Nat}, p.arity.accepts n → ∃ arm ∈ arms, arm.clause.fits n

section

variable {p : Procedure Value} {arms : List Arm} {is behind : List Instruction} {a b : Activation}
  {i : Instruction} {σ τ : Store} {move : Move}

/-- An activation of the procedure is past the tests, or before one of them with a clause ahead that its
arguments fit. -/
def Activation.Heeds (p : Procedure Value) (is behind : List Instruction) (a : Activation) : Prop :=
  a.procedure = p → is.length + 2 ≤ a.pc ∨ countLimit ≤ a.args.length ∨
    ∃ vs, Asks a.args.length behind (p.code.drop a.pc) vs ∧ a.Tops vs

namespace Procedure.Guards

variable (guards : p.Guards arms is behind)

include guards

theorem within {k : Nat} (here : p.code[k]? = some i) (early : k < is.length + 2) : i.op.tests :=
  guards.tests.before guards.message (guards.code ▸ here) early

theorem heeds_start (start : a.pc = 0) (accepts : a.procedure.arity.accepts a.args.length) :
    a.Heeds p is behind := by
  rintro rfl
  obtain ⟨arm, member, fits⟩ := guards.fits accepts
  refine .inr (.inr ⟨[], ?_, nofun⟩)
  rw [start, List.drop_zero, guards.code]
  exact .count guards.tests ⟨_, List.mem_map_of_mem member, fits⟩

/-- One instruction leads to no place before the tests but the start, with an accepted count. -/
theorem heeds_perform (heeds : a.Heeds p is behind) (here : a.procedure.code[a.pc]? = some i)
    (h : Yields (Act.perform σ i) { a with pc := a.pc + 1 } (move, τ) b) :
    (move = .go → b.Heeds p is behind) ∧
      ((∃ callee args, move = .call callee args) → b.procedure = p → is.length + 2 ≤ b.pc) := by
  have offers := Act.offers_perform h
  by_cases tail : i.op = .tailCall
  · refine ⟨?_, ?_⟩
    · rintro rfl
      obtain ⟨start, accepts⟩ := Act.restarts_perform tail h
      exact guards.heeds_start start accepts
    · rintro ⟨callee, args, rfl⟩
      rcases offers with call | call | call <;> cases tail.symm.trans call
  · have moves := Act.moves_perform tail h
    have same : b.procedure = a.procedure := congrArg Closure.procedure moves.closure
    by_cases own : b.procedure = p
    swap
    · exact ⟨fun _ equal => absurd equal own, fun _ equal => absurd equal own⟩
    obtain rfl := same.symm.trans own
    have member : i ∈ a.procedure.code := List.mem_of_getElem? here
    have onward : b.pc = a.pc + 1 ∨ is.length + 2 ≤ b.pc :=
      moves.pc.imp_right fun ⟨jumps, lands⟩ => guards.lands member jumps lands
    rcases Nat.lt_or_ge a.pc (is.length + 2) with early | late
    · have tests := guards.within here early
      refine ⟨fun _ _ => ?_, ?_⟩
      · have args : b.args = a.args := moves.args (fun push => by rw [push] at tests; cases tests)
          fun pop => by rw [pop] at tests; cases tests
        rcases heeds rfl with past | many | ⟨vs, asks, tops⟩
        · exact absurd early (Nat.not_lt.mpr past)
        · exact .inr (.inl (args ▸ many))
        · by_cases small : a.args.length < countLimit
          swap
          · exact .inr (.inl (args ▸ Nat.le_of_not_lt small))
          obtain ⟨inside, rfl⟩ := List.getElem?_eq_some_iff.mp here
          rw [List.drop_eq_getElem_cons inside] at asks
          have next := Act.asks_perform (a := { a with pc := a.pc + 1 }) asks tops small h
          rcases next with ⟨ws, asks, tops⟩ | ⟨jumps, lands⟩
          · refine onward.symm.imp_right fun after => .inr ⟨ws, ?_, tops⟩
            rw [args, after]
            exact asks
          · exact .inl (guards.lands member jumps lands)
      · rintro ⟨callee, args, rfl⟩
        rcases offers with call | call | call <;> rw [call] at tests <;> cases tests
    · have past : is.length + 2 ≤ b.pc := by omega
      exact ⟨fun _ _ => .inl past, fun _ _ => past⟩

end Procedure.Guards

def Control.Heeds (p : Procedure Value) (is behind : List Instruction) : Control → Prop
  | .running a => a.Heeds p is behind
  | _ => True

/-- An activation that waits for a value is past the tests. -/
def Pending.Heeds (p : Procedure Value) (is : List Instruction) : Pending → Prop
  | .resume a => a.procedure = p → is.length + 2 ≤ a.pc
  | _ => True

namespace Machine.State

structure Heeds (p : Procedure Value) (is behind : List Instruction) (s : State) : Prop where
  control : s.control.Heeds p is behind
  pending : ∀ w ∈ s.pending, w.Heeds p is

variable {m : Machine} {pending : List Pending} (guards : p.Guards arms is behind)
  (waiting : ∀ w ∈ pending, w.Heeds p is)

include waiting in
theorem heeds_fail (e : Failure) : (fail m pending a e).Heeds p is behind := by
  cases e <;> exact ⟨trivial, waiting⟩

include waiting in
theorem heeds_reply (r : Reply) : (reply m pending r).Heeds p is behind := by
  cases r with
  | guarded thunk handler => exact ⟨trivial, List.forall_mem_cons.mpr ⟨trivial, waiting⟩⟩
  | _ => exact ⟨trivial, waiting⟩

include guards waiting

theorem heeds_callValue (callee : Value) (args : List Value) :
    (callValue m pending callee args).Heeds p is behind := by
  unfold callValue
  split
  · exact ⟨trivial, waiting⟩
  next checked =>
    split
    · exact ⟨guards.heeds_start rfl (Arity.accepts_of_check checked), waiting⟩
    · exact heeds_reply waiting _
    · exact ⟨trivial, waiting⟩

theorem heeds_runInstruction (heeds : a.Heeds p is behind) :
    (runInstruction m pending a).Heeds p is behind := by
  unfold runInstruction
  split
  · exact heeds_fail waiting _
  next i here =>
    dsimp only
    split
    · exact heeds_fail waiting _
    next move store b ended =>
      obtain ⟨goes, waits⟩ := guards.heeds_perform heeds here ended
      have offers := Act.offers_perform ended
      cases move with
      | go => exact ⟨goes rfl, waiting⟩
      | answer v => exact ⟨trivial, waiting⟩
      | call callee args => exact ⟨trivial, List.forall_mem_cons.mpr ⟨waits ⟨callee, args, rfl⟩, waiting⟩⟩
      | leave callee args => exact ⟨trivial, List.forall_mem_cons.mpr ⟨trivial, waiting⟩⟩
      | switch c args => exact ⟨guards.heeds_start rfl offers.2, waiting⟩

omit guards in
theorem heeds_returnTo {w : Pending} (heeds : w.Heeds p is) (v : Value) :
    (returnTo m pending v w).Heeds p is behind := by
  cases w with
  | resume a =>
    have moves := Act.along_push (R := Act.Moves Opcode.noOp.bare) v a
    simp only [returnTo]
    split
    next b ended =>
      rw [ended] at moves
      refine ⟨fun own => .inl ?_, waiting⟩
      have stays : b.pc = a.pc := moves.pc.resolve_right nofun
      rw [stays]
      exact heeds ((congrArg Closure.procedure moves.closure).symm.trans own)
    · exact heeds_fail waiting _
  | finish a | guard handler => exact ⟨trivial, waiting⟩

omit waiting in
/-- One step, whatever it does, keeps every activation of the procedure from falling through its tests. -/
theorem heeds_step {s : State} (h : s.Heeds p is behind) : s.step.Heeds p is behind := by
  obtain ⟨m, control, pending⟩ := s
  obtain ⟨controls, waiting⟩ := h
  cases control with
  | running a => exact heeds_runInstruction guards waiting controls
  | calling callee args => exact heeds_callValue guards waiting callee args
  | returning v =>
    cases pending with
    | nil => exact ⟨trivial, waiting⟩
    | cons w pending =>
      obtain ⟨first, rest⟩ := List.forall_mem_cons.mp waiting
      exact heeds_returnTo rest first v
  | unwinding f =>
    cases pending with
    | nil => exact ⟨trivial, waiting⟩
    | cons w pending =>
      have rest := (List.forall_mem_cons.mp waiting).2
      cases w <;> exact ⟨trivial, rest⟩
  | breaching b =>
    cases pending with
    | nil => exact ⟨trivial, waiting⟩
    | cons w pending =>
      have rest := (List.forall_mem_cons.mp waiting).2
      cases w <;> exact ⟨trivial, rest⟩

omit waiting in
theorem heeds_iterate {s : State} (h : s.Heeds p is behind) (k : Nat) : (step^[k] s).Heeds p is behind := by
  induction k generalizing s with
  | zero => exact h
  | succ k ih => exact ih (heeds_step guards h)

end Machine.State

/-- The activations of a state, the one that runs and those that wait. -/
def Machine.State.activations (s : State) : List Activation :=
  (match s.control with
    | .running a => [a]
    | _ => []) ++
  s.pending.flatMap fun
    | .resume a | .finish a => [a]
    | .guard _ => []

/-- However long a state runs in which the procedure does not, no activation of it comes to what stands behind
the tests, with as many arguments as fit into memory. -/
theorem Machine.State.never_behind (guards : p.Guards arms is behind) {s : State}
    (fresh : ∀ a ∈ s.activations, a.procedure ≠ p) (k : Nat) {a : Activation}
    (running : (step^[k] s).control = .running a) (own : a.procedure = p) (small : a.args.length < countLimit) :
    a.pc < is.length ∨ is.length + 2 ≤ a.pc := by
  have start : s.Heeds p is behind := by
    obtain ⟨m, control, pending⟩ := s
    refine ⟨?_, fun w member => ?_⟩
    · cases control with
      | running b => exact fun own => absurd own (fresh b List.mem_cons_self)
      | _ => trivial
    · cases w with
      | resume b =>
        refine fun own => absurd own (fresh b (List.mem_append_right _ (List.mem_flatMap.mpr ⟨_, member, ?_⟩)))
        exact List.mem_singleton_self b
      | _ => trivial
  have heeds := (heeds_iterate guards start k).control
  rw [running] at heeds
  rcases heeds own with past | many | ⟨vs, asks, -⟩
  · exact .inr past
  · exact absurd small (Nat.not_lt.mpr many)
  · have ahead := asks.length_lt
    rw [List.length_drop, guards.code, List.length_append] at ahead
    omega

end

end StackLisp
