import Mathlib.Logic.Function.Iterate
import StackLisp.Machine
import StackLisp.Proofs.Conduct
import StackLisp.Proofs.Custody

/-!
Calls give back their frames. Every activation has one frame, from where it starts to where it ends, in a
value, a fault or a breach; it may be another than the first after a tail call. When a call has ended, all
of its frames are back.
-/

namespace StackLisp

namespace Act

variable {α : Type}

/-- Steps that leave the frame of an activation as long as it is, however they end. -/
def Steady (act : Act α) : Prop :=
  ∀ a, (act.run a : Except Failure α × Activation).2.frame.length = a.frame.length

/-- The second activation has as long a frame as the first. -/
def SameLength (a b : Activation) : Prop :=
  b.frame.length = a.frame.length

instance : Ignoring SameLength where
  refl _ := rfl
  trans h g := g.trans h
  slots _ _ _ h := h

theorem sameLength_jump (label : Nat) : Along SameLength (jump label) :=
  along_bind along_get fun _ => along_bind (along_require _) fun _ => along_modify fun _ => rfl

theorem sameLength_restart (c : Closure) (args : List Value) : Along SameLength (restart c args) :=
  along_bind along_get fun _ => along_bind (along_popMany _) fun _ => along_modify fun _ => rfl

theorem steady_push (v : Value) : Steady (push v) :=
  along_push (R := SameLength) v

theorem steady_perform (σ : Store) (i : Instruction) : Steady (perform σ i) :=
  along_perform (R := SameLength) σ i (fun _ => sameLength_jump i.operand) (fun _ => sameLength_restart)
    fun _ _ _ _ => rfl

end Act

def Control.frames : Control → List Frame
  | .running a => [a.frame]
  | _ => []

def Pending.frames : Pending → List Frame
  | .resume a | .finish a => [a.frame]
  | .guard _ => []

namespace Machine

variable {m : Machine} {entries : Nat} {start : Nat → Int} {out rest : List Frame} {a b : Activation}

/-- The pool of the machine has lent just these frames since the start. -/
abbrev Lends (m : Machine) (entries : Nat) (start : Nat → Int) (out : List Frame) : Prop :=
  m.pool.Lends entries start out

theorem pool_granted (m : Machine) (g : Grant) : (m.granted g).pool = g.pool := by
  unfold granted
  dsimp only
  split <;> rfl

theorem Lends.release (h : m.Lends entries start (a.frame :: rest)) : (m.release a).Lends entries start rest :=
  h.free

theorem Lends.abandon (h : m.Lends entries start (a.frame :: rest)) (f : Fault) :
    (m.abandon a f).Lends entries start rest :=
  h.free

namespace State

/-- The frames of all activations, the one that runs and those that wait. -/
def frames (s : State) : List Frame :=
  s.control.frames ++ s.pending.flatMap Pending.frames

/-- What the pool has lent since the start are the frames of the activations. -/
def Lends (s : State) (entries : Nat) (start : Nat → Int) : Prop :=
  s.machine.Lends entries start s.frames

variable {pending : List Pending}

theorem lends_start (h : m.Lends entries start (pending.flatMap Pending.frames)) (positive : 0 < entries)
    (c : Closure) (args : List Value) : (State.start m pending c args).Lends entries start := by
  show (m.granted _).pool.Lends entries start _
  rw [pool_granted]
  exact h.alloc positive c.procedure.frameSize

theorem lends_fail (h : m.Lends entries start (a.frame :: pending.flatMap Pending.frames)) (e : Failure) :
    (fail m pending a e).Lends entries start := by
  cases e with
  | fault f => exact h.abandon f
  | breach b => exact h.release

theorem lends_follow (h : m.Lends entries start (a.frame :: pending.flatMap Pending.frames))
    (positive : 0 < entries) (move : Move) : (follow m pending a move).Lends entries start := by
  cases move with
  | go => exact h
  | answer v => exact h.release
  | call callee args => exact h
  | leave callee args => exact h
  | switch c args =>
    show (m.granted _).pool.Lends entries start _
    rw [pool_granted]
    exact h.reserve positive c.procedure.frameSize

theorem lends_runInstruction (h : m.Lends entries start (a.frame :: pending.flatMap Pending.frames))
    (positive : 0 < entries) : (runInstruction m pending a).Lends entries start := by
  unfold runInstruction
  split
  · exact lends_fail h _
  next i here =>
    have traced : (traced m a i).Lends entries start (a.frame :: pending.flatMap Pending.frames) := by
      unfold State.traced
      split <;> exact h
    have length := Act.steady_perform (State.traced m a i).store i { a with pc := a.pc + 1 }
    dsimp only
    split
    next e b ended =>
      rw [ended] at length
      exact lends_fail (traced.resize length.symm) e
    next move store b ended =>
      rw [ended] at length
      exact lends_follow (m := { State.traced m a i with store }) (traced.resize length.symm) positive move

theorem lends_reply (h : m.Lends entries start (pending.flatMap Pending.frames)) (r : Reply) :
    (reply m pending r).Lends entries start := by
  cases r <;> exact h

theorem lends_callValue (h : m.Lends entries start (pending.flatMap Pending.frames)) (positive : 0 < entries)
    (callee : Value) (args : List Value) : (callValue m pending callee args).Lends entries start := by
  unfold callValue
  split
  · exact h
  · split
    · exact lends_start h positive _ args
    · exact lends_reply h _
    · exact h

theorem lends_returnTo {w : Pending} (h : m.Lends entries start (w.frames ++ pending.flatMap Pending.frames))
    (v : Value) : (returnTo m pending v w).Lends entries start := by
  cases w with
  | resume a =>
    have length := Act.steady_push v a
    simp only [returnTo]
    split
    next b ended =>
      rw [ended] at length
      exact Pool.Lends.resize h length.symm
    next e b ended =>
      rw [ended] at length
      exact lends_fail (Pool.Lends.resize h length.symm) e
  | finish a => exact h.release
  | guard handler => exact h

theorem lends_unwindTo {w : Pending} (h : m.Lends entries start (w.frames ++ pending.flatMap Pending.frames))
    (f : Fault) : (unwindTo m pending f w).Lends entries start := by
  cases w with
  | resume a | finish a => exact h.abandon f
  | guard handler => exact h

theorem lends_breachTo {w : Pending} (h : m.Lends entries start (w.frames ++ pending.flatMap Pending.frames))
    (b : Breach) : (breachTo m pending b w).Lends entries start := by
  cases w with
  | resume a | finish a => exact h.release
  | guard handler => exact h

/-- One step, whatever it does, leaves every frame with its activation or back in the pool. -/
theorem lends_step {s : State} (h : s.Lends entries start) (positive : 0 < entries) :
    s.step.Lends entries start := by
  obtain ⟨m, control, pending⟩ := s
  cases control with
  | running a => exact lends_runInstruction h positive
  | calling callee args => exact lends_callValue h positive callee args
  | returning v =>
    cases pending with
    | nil => exact h
    | cons w pending => exact lends_returnTo h v
  | unwinding f =>
    cases pending with
    | nil => exact h
    | cons w pending => exact lends_unwindTo h f
  | breaching b =>
    cases pending with
    | nil => exact h
    | cons w pending => exact lends_breachTo h b

theorem frames_of_outcome {s : State} {o : Outcome} (h : s.outcome? = some o) : s.frames = [] := by
  unfold outcome? at h
  split at h
  · rfl
  · rfl
  · rfl
  · cases h

theorem lends_run {s : State} (h : s.Lends entries start) (positive : 0 < entries) {fuel : Nat}
    {o : Outcome} {n : Machine} (ran : run fuel s = some (o, n)) : n.Lends entries start [] := by
  induction fuel generalizing s with
  | zero => cases ran
  | succ fuel ih =>
    unfold run at ran
    split at ran
    next ended =>
      obtain ⟨rfl, rfl⟩ := Prod.mk.inj (Option.some.inj ran)
      have none := frames_of_outcome ended
      unfold Lends at h
      rwa [none] at h
    · exact ih (lends_step h positive) ran

end State

/-- What the pool has lent is as it was, class by class and in all, and its free frames are clear. -/
structure Squares (m n : Machine) : Prop where
  balance : ∀ i < Pool.classCount, n.pool.balance i = m.pool.balance i
  free : ∀ i < Pool.classCount, ∀ frame ∈ (n.pool.classAt i).free,
    frame.length = Pool.capacity i ∧ frame.isClear
  inUse : n.pool.inUse = m.pool.inUse

variable {n : Machine} {fuel : Nat} {o : Outcome}

theorem Lends.squares (h : n.Lends entries m.pool.balance []) (balanced : m.pool.Balanced entries) :
    m.Squares n := by
  have balance : ∀ i < Pool.classCount, n.pool.balance i = m.pool.balance i :=
    fun i small => (h.balance i small).trans (Int.add_zero _)
  refine ⟨balance, fun i _ frame member => ?_, ?_⟩
  · obtain ⟨span, rfl⟩ := h.balanced.tidy i frame member
    exact ⟨Frame.length_blank _ span, Frame.isClear_blank _ span⟩
  · rw [Pool.inUse_eq_sum h.balanced.classes, Pool.inUse_eq_sum balanced.classes]
    exact Finset.sum_congr rfl fun i small => by rw [balance i (Finset.mem_range.mp small)]

theorem lends_call (h : m.pool.Balanced entries) (positive : 0 < entries) {callee : Value}
    {args : List Value} (ended : m.call fuel callee args = some (o, n)) :
    n.Lends entries m.pool.balance [] :=
  State.lends_run (s := ⟨m, .calling callee args, []⟩) h.lends positive ended

theorem pool_compile (m : Machine) (globals : NamespaceId) (form : Value) :
    (m.compile globals form).2.pool = m.pool :=
  rfl

theorem lends_eval (h : m.pool.Balanced entries) (positive : 0 < entries) {globals : NamespaceId}
    {form : Value} {e : Evaluation} (ended : m.eval fuel globals form = some (e, n)) :
    n.Lends entries m.pool.balance [] := by
  have same := pool_compile m globals form
  unfold Machine.eval at ended
  generalize m.compile globals form = compiled at same ended
  obtain ⟨r, t⟩ := compiled
  have same : t.pool = m.pool := same
  rw [← same] at h ⊢
  match r with
  | .ok c =>
    obtain ⟨⟨o, u⟩, called, made⟩ := Option.map_eq_some_iff.mp ended
    obtain ⟨-, rfl⟩ := Prod.mk.inj made
    exact lends_call h positive called
  | .error (.error e) =>
    obtain ⟨-, rfl⟩ := Prod.mk.inj (Option.some.inj ended)
    exact h.lends
  | .error (.breach b) =>
    obtain ⟨-, rfl⟩ := Prod.mk.inj (Option.some.inj ended)
    exact h.lends

/-- A machine that a host has worked with. It has made calls and evaluations on it and has done things to
its pool, with any frames; all else of the machine may have changed as well. -/
inductive Worked : Machine → Prop where
  | new (settings : Settings) (store : Store) : Worked (.new settings store)
  | pool {m : Machine} (h : Worked m) {c : Custody} (same : c.pool = m.pool) (d : Deed) :
    Worked { m with pool := (c.step d).pool }
  | call {m n : Machine} (h : Worked m) {fuel : Nat} {callee : Value} {args : List Value} {o : Outcome}
    (ended : m.call fuel callee args = some (o, n)) : Worked n
  | eval {m n : Machine} (h : Worked m) {fuel : Nat} {globals : NamespaceId} {form : Value} {e : Evaluation}
    (ended : m.eval fuel globals form = some (e, n)) : Worked n
  | other {m : Machine} (h : Worked m) (settings : Settings) (store : Store) (journal : List String) :
    Worked { m with settings, store, journal }

theorem Worked.balanced (h : m.Worked) : ∃ entries, 0 < entries ∧ m.pool.Balanced entries := by
  induction h with
  | new settings store =>
    exact ⟨_, Nat.lt_of_lt_of_le Nat.one_pos (Nat.le_max_right _ _), Pool.balanced_new settings.pool⟩
  | pool h same d ih =>
    obtain ⟨entries, positive, balanced⟩ := ih
    exact ⟨entries, positive, Custody.balanced_step (same ▸ balanced) positive d⟩
  | call h ended ih =>
    obtain ⟨entries, positive, balanced⟩ := ih
    exact ⟨entries, positive, (lends_call balanced positive ended).balanced⟩
  | eval h ended ih =>
    obtain ⟨entries, positive, balanced⟩ := ih
    exact ⟨entries, positive, (lends_eval balanced positive ended).balanced⟩
  | other h settings store journal ih => exact ih

/-- When a call or an evaluation has ended, in whatever way, it has given back all frames that it was
lent. -/
theorem Worked.gives_back (h : m.Worked) :
    (∀ {fuel : Nat} {callee : Value} {args : List Value} {o : Outcome} {n : Machine},
      m.call fuel callee args = some (o, n) → m.Squares n) ∧
    ∀ {fuel : Nat} {globals : NamespaceId} {form : Value} {e : Evaluation} {n : Machine},
      m.eval fuel globals form = some (e, n) → m.Squares n := by
  obtain ⟨entries, positive, balanced⟩ := h.balanced
  exact ⟨fun ended => (lends_call balanced positive ended).squares balanced,
    fun ended => (lends_eval balanced positive ended).squares balanced⟩

/-- A body that has nothing to take apart, in a frame above the smallest class. -/
def faulty : Procedure Value where
  serial := 0
  name := none
  arity := .fixed 0
  code := [⟨.posInt, 1, one_le_maxOperand⟩, Opcode.car.bare, Opcode.ret.bare]
  constants := []
  labels := []
  stackSize := 1
  localCount := 20
  labelCount := 0
  globals := 0
  inlinable := false

/-- A tail call of that body out of a small frame. -/
def growing : Procedure Value :=
  { faulty with
    serial := 1
    code := [⟨.const, 0, Nat.zero_le _⟩, ⟨.tailCall, 0, Nat.zero_le _⟩]
    constants := [.closure faulty []]
    localCount := 0 }

/-- A call of it whose fault a builtin recovers from. -/
def recovering (m : Machine) : Option (Outcome × Machine) :=
  m.call 12 (.builtin ⟨"recover", .fixed 2, .recover, none⟩) [.closure growing [], .builtin Builtin.vector]

/-- The frames of both sizes are back. -/
theorem gives_back_growing : ∃ o n, recovering (new {} {}) = some (o, n) ∧ (new {} {}).Squares n ∧
    (n.pool.classAt 0).released = 1 ∧ (n.pool.classAt 2).released = 1 := by
  have ended : ∃ o n, recovering (new {} {}) = some (o, n) ∧
      (n.pool.classAt 0).released = 1 ∧ (n.pool.classAt 2).released = 1 := ⟨_, _, rfl, rfl, rfl⟩
  obtain ⟨o, n, ended, small, large⟩ := ended
  exact ⟨o, n, ended, (Worked.new {} {}).gives_back.1 ended, small, large⟩

end Machine

end StackLisp
