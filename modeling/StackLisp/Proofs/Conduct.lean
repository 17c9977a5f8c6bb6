import StackLisp.Machine
import StackLisp.Proofs.Runs

/-!
What actions leave alone. Most instructions touch nothing of an activation but its operands and its local
slots; jumps and calls that start again in place move it in the code, and staging changes its arguments.
-/

namespace StackLisp

namespace Act

variable {α β : Type}

/-- Whatever the action does, however it ends, it goes from an activation to one that stands so to it. -/
def Along (R : Activation → Activation → Prop) (act : Act α) : Prop :=
  ∀ a, R a (act.run a : Except Failure α × Activation).2

/-- Operands and local slots are of no account, as long as the frame keeps its length. -/
class Ignoring (R : Activation → Activation → Prop) : Prop where
  refl : ∀ a, R a a
  trans : ∀ {a b c}, R a b → R b c → R a c
  slots : ∀ a frame sp, frame.length = a.frame.length → R a { a with frame, sp }

variable {R : Activation → Activation → Prop} [Ignoring R]

theorem along_bind {act : Act α} {f : α → Act β} (first : Along R act) (next : ∀ x, Along R (f x)) :
    Along R (act >>= f) := by
  intro a
  have before := first a
  cases ended : (act.run a : Except Failure α × Activation) with
  | mk r b =>
    rw [ended] at before
    cases r with
    | error e =>
      have all : Ends (act >>= f) a (.error e) b := Ends.bind_error ended
      rw [show ((act >>= f).run a : Except Failure β × Activation) = _ from all]
      exact before
    | ok x =>
      have after := next x b
      cases done : ((f x).run b : Except Failure β × Activation) with
      | mk r c =>
        have all : Ends (act >>= f) a r c := Ends.bind_ok ended done
        rw [done] at after
        rw [show ((act >>= f).run a : Except Failure β × Activation) = _ from all]
        exact Ignoring.trans before after

theorem along_pure (x : α) : Along R (pure x) :=
  Ignoring.refl

theorem along_throw (e : Failure) : Along R (throw e : Act α) :=
  Ignoring.refl

theorem along_get : Along R (get : Act Activation) :=
  Ignoring.refl

omit [Ignoring R] in
theorem along_modify {f : Activation → Activation} (h : ∀ a, R a (f a)) : Along R (modify f) :=
  h

theorem along_lift (r : Except Fault α) : Along R (lift r) :=
  Ignoring.refl

theorem along_require (x : Option α) : Along R (require x) := by
  cases x with
  | none => exact along_throw _
  | some x => exact along_pure x

theorem along_writeSlot (i : Nat) (v : Value) : Along R (writeSlot i v) := by
  intro a
  show R a (writeSlot i v a).2
  unfold writeSlot
  dsimp only
  split
  · exact Ignoring.slots a _ a.sp Array.size_setIfInBounds
  · exact Ignoring.refl a

theorem along_push (v : Value) : Along R (push v) := by
  refine along_bind along_get fun a => ?_
  split
  · exact along_throw _
  · exact along_bind (along_writeSlot _ v) fun _ => along_modify fun a => Ignoring.slots a _ _ rfl

theorem along_pop : Along R pop :=
  along_bind along_get fun _ => along_bind along_get fun _ => along_bind (along_require _) fun _ =>
    along_bind (along_writeSlot _ _) fun _ =>
      along_bind (along_modify fun a => Ignoring.slots a _ _ rfl) fun _ => along_pure _

theorem along_popMany (n : Nat) : Along R (popMany n) := by
  induction n with
  | zero => exact along_pure _
  | succ n ih => exact along_bind along_pop fun _ => along_bind ih fun _ => along_pure _

theorem along_loadLocal (slot : Nat) : Along R (loadLocal slot) :=
  along_bind along_get fun _ => along_require _

theorem along_storeLocal (slot : Nat) (v : Value) : Along R (storeLocal slot v) :=
  along_bind along_get fun _ => along_writeSlot _ v

theorem along_quietly {act : Act Unit} (h : Along R act) (σ : Store) : Along R (quietly σ act) :=
  along_bind h fun _ => along_pure _

theorem along_pushResult {act : Act Value} (h : Along R act) (σ : Store) : Along R (pushResult σ act) :=
  along_quietly (along_bind h along_push) σ

theorem along_symbolOnTop : Along R symbolOnTop :=
  along_bind along_pop fun _ => along_lift _

theorem along_makeClosure (count : Nat) : Along R (makeClosure count) := by
  refine along_bind along_pop fun template => along_bind (along_popMany count) fun captured => ?_
  split
  · exact along_pure _
  · exact along_throw _

/-- A tail call leaves the activation as it is, but for one that starts again in place. -/
theorem along_tailCall (restarts : ∀ c args, Along R (restart c args)) (count : Nat) :
    Along R (tailCall count) := by
  refine along_bind along_pop fun callee => along_bind (along_popMany count) fun args => ?_
  split
  · refine along_bind (along_lift _) fun _ => along_bind along_get fun _ => ?_
    split
    · exact along_bind (restarts _ args) fun _ => along_pure _
    · exact along_pure _
  · exact along_pure _

theorem along_pushArgs (stages : ∀ a args saved, R a { a with args, saved }) (count : Nat) :
    Along R (pushArgs count) :=
  along_bind (along_popMany count) fun _ => along_modify fun a => stages a _ _

theorem along_popArgs (stages : ∀ a args saved, R a { a with args, saved }) : Along R popArgs := by
  intro a
  show R a (popArgs.run a : Except Failure Unit × Activation).2
  cases saved : a.saved with
  | nil =>
    have none : Ends popArgs a (.error (.breach (.argumentUnderflow (a.pc - 1)))) a := by
      refine Ends.bind_ok (a := a) (t := a) rfl ?_
      rw [saved]
      rfl
    rw [show (popArgs.run a : Except Failure Unit × Activation) = _ from none]
    exact Ignoring.refl a
  | cons args saved' =>
    have some : Ends popArgs a (.ok ()) { a with args, saved := saved' } := by
      refine Ends.bind_ok (a := a) (t := a) rfl ?_
      rw [saved]
      rfl
    rw [show (popArgs.run a : Except Failure Unit × Activation) = _ from some]
    exact stages a args saved'

theorem along_call (count : Nat) : Along R (call count) :=
  along_bind along_pop fun _ => along_bind (along_popMany count) fun _ => along_pure _

/-- So does every instruction, if jumps, staging and the calls that start again do. -/
theorem along_performIn (globals : NamespaceId) (σ : Store) (i : Instruction)
    (jumps : i.op.jumps → Along R (jump i.operand))
    (restarts : i.op = .tailCall → ∀ c args, Along R (restart c args))
    (stages : i.op = .pushArgs ∨ i.op = .popArgs → ∀ a args saved, R a { a with args, saved }) :
    Along R (performIn globals σ i) := by
  obtain ⟨op, operand, small⟩ := i
  cases op with
  | label | noOp | retNull | retTrue | retFalse => exact along_pure _
  | jump => exact along_quietly (jumps rfl) σ
  | condJump =>
    refine along_quietly (along_bind along_pop fun v => ?_) σ
    split
    · exact jumps rfl
    · exact along_pure _
  | ret => exact along_bind along_pop fun _ => along_pure _
  | panic => exact along_bind along_pop fun _ => along_throw _
  | nullLit | trueLit | falseLit | posInt | negInt => exact along_pushResult (along_pure _) σ
  | const | arg | capture => exact along_pushResult (along_bind along_get fun _ => along_require _) σ
  | argLen | restArg | current => exact along_pushResult (along_bind along_get fun _ => along_pure _) σ
  | load => exact along_pushResult (along_loadLocal operand) σ
  | store => exact along_quietly (along_bind along_pop (along_storeLocal operand)) σ
  | newRef => exact along_pushResult (along_pure _) _
  | bindRef | bind =>
    exact along_bind along_pop fun _ => along_bind along_pop fun _ => along_bind (along_lift _) fun _ =>
      along_bind (along_lift _) fun _ => along_pure _
  | deref =>
    exact along_pushResult (along_bind along_pop fun _ => along_bind (along_lift _) fun _ =>
      along_lift _) σ
  | makeClosure => exact along_pushResult (along_makeClosure operand) σ
  | pop => exact along_quietly (along_bind along_pop fun _ => along_pure _) σ
  | call0 | call1 | call => exact along_bind (along_call _) fun _ => along_pure _
  | tailCall => exact along_bind (along_tailCall (restarts rfl) operand) fun _ => along_pure _
  | pushArgs => exact along_quietly (along_pushArgs (stages (.inl rfl)) operand) σ
  | popArgs => exact along_quietly (along_popArgs (stages (.inr rfl))) σ
  | resolve => exact along_pushResult (along_bind along_symbolOnTop fun _ => along_lift _) σ
  | declare | hide => exact along_bind along_symbolOnTop fun _ => along_pure _
  | add | sub | mul | div | mod | numEq | numLt | numLte | numGt | numGte | eq | cons =>
    exact along_pushResult (along_bind along_pop fun _ => along_bind along_pop fun _ => along_lift _) σ
  | neg | not | car | cdr | empty =>
    exact along_pushResult (along_bind along_pop fun _ => along_lift _) σ

theorem along_perform (σ : Store) (i : Instruction) (jumps : i.op.jumps → Along R (jump i.operand))
    (restarts : i.op = .tailCall → ∀ c args, Along R (restart c args))
    (stages : i.op = .pushArgs ∨ i.op = .popArgs → ∀ a args saved, R a { a with args, saved }) :
    Along R (perform σ i) :=
  along_bind along_get fun _ => along_performIn _ σ i jumps restarts stages

end Act

end StackLisp
