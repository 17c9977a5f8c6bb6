import Mathlib.Logic.Function.Iterate
import StackLisp.Machine
import StackLisp.Proofs.Accepted
import StackLisp.Proofs.Pools
import StackLisp.Proofs.Within

/-!
The checked depths hold at run time. Whatever is called, and however often control switches from one
built procedure to another, the operands of each activation are as many as the check said, and its frame
is used as the check allows.
-/

namespace StackLisp

/-- Procedures that were built, with different numbers and nothing but such procedures inside. -/
structure Registry (known : Procedure Value → Prop) : Prop where
  built : ∀ {p : Procedure Value}, known p → p.Built
  identity : ∀ {p q : Procedure Value}, known p → known q → p.serial = q.serial → p = q
  constants : ∀ {p : Procedure Value}, known p → ∀ v ∈ p.constants, v.Within known

/-- Procedures that are what the check of their chunks found, with different numbers and nothing but such
procedures inside. -/
structure Roster (known : Procedure Value → Prop) : Prop where
  verified : ∀ {p : Procedure Value}, known p → ∃ checked, p.Verified checked
  identity : ∀ {p q : Procedure Value}, known p → known q → p.serial = q.serial → p = q
  constants : ∀ {p : Procedure Value}, known p → ∀ v ∈ p.constants, v.Within known

theorem Registry.roster {known : Procedure Value → Prop} (registry : Registry known) : Roster known :=
  ⟨fun inside => (registry.built inside).verified, registry.identity, registry.constants⟩

/-- The activation shows a scene of known procedures with all local slots filled, and has the depth
that the check found, but for an operand that may be awaited. -/
structure Activation.Keeps (known : Procedure Value → Prop) (a : Activation) (s : Scene)
    (awaited : Nat) : Prop where
  shows : a.Shows s
  within : s.Within known
  filled : ∀ entry ∈ s.locals, entry ≠ none
  whole : a.base + s.locals.length = a.frame.length
  slots : a.procedure.localCount ≤ s.locals.length
  depth : ∀ {checked : Checked}, a.procedure.Verified checked →
    checked.depths[s.pc]? = some (some (s.stack.length + awaited))

/-- What holds of an activation and of what an instruction comes to in it. -/
def Activation.Settles (known : Procedure Value → Prop) (a : Activation) :
    Except Failure (Move × Store) → Prop
  | .ok (.go, σ) => (∃ s, a.Keeps known s 0) ∧ σ.Within known
  | .ok (.answer v, σ) => v.Within known ∧ σ.Within known
  | .ok (.call callee args, σ) =>
    (∃ s, a.Keeps known s 1) ∧ callee.Within known ∧ (∀ v ∈ args, v.Within known) ∧ σ.Within known
  | .ok (.leave callee args, σ) =>
    callee.Within known ∧ (∀ v ∈ args, v.Within known) ∧ σ.Within known
  | .ok (.switch c args, σ) =>
    c.value.Within known ∧ (∀ v ∈ args, v.Within known) ∧ σ.Within known
  | .error (.fault f) => f.Within known
  | .error (.breach _) => True

variable {known : Procedure Value → Prop}

theorem Value.Within.closure {p : Procedure Value} {captured : List Value}
    (h : (Value.closure p captured).Within known) :
    known p ∧ ∀ v ∈ captured, v.Within known := by
  cases h with
  | closure bodies captured => exact ⟨bodies.2, within_of_twins captured⟩

theorem Roster.enter (roster : Roster known) {c : Closure} {args : List Value} {frame : Frame}
    (callee : c.value.Within known) (values : ∀ v ∈ args, v.Within known)
    (suits : frame.Suits c.procedure.frameSize) :
    ∃ s, (Activation.enter c args frame).Keeps known s 0 := by
  obtain ⟨length, span, rfl, fits⟩ := suits
  obtain ⟨procedure, captured⟩ := callee.closure
  have fits : c.procedure.stackSize + c.procedure.localCount ≤ length := fits
  refine ⟨{
    chunk := c.procedure.chunk
    closure := c
    args
    locals := List.replicate (length - c.procedure.stackSize) (some .null) }, ?_⟩
  refine ⟨⟨rfl, rfl, rfl, rfl, rfl, rfl, nofun, ?_, ?_⟩, ⟨procedure, roster.constants procedure,
    captured, values, nofun, nofun, ?_⟩, ?_, ?_, ?_, ?_⟩
  · intro k v there
    rw [List.getElem?_replicate] at there
    split at there
    · rename_i inside
      cases there
      show (Array.replicate length Value.null)[c.procedure.stackSize + k]? = some .null
      rw [Array.getElem?_replicate, if_pos (by omega)]
    · cases there
  · show c.procedure.stackSize + (List.replicate _ _).length ≤ (Frame.blank length span).length
    rw [List.length_replicate, Frame.length_blank]
    omega
  · intro v member
    cases (List.mem_replicate.mp member).2
    exact .null
  · intro entry member
    rw [(List.mem_replicate.mp member).2]
    nofun
  · show c.procedure.stackSize + (List.replicate _ _).length = (Frame.blank length span).length
    rw [List.length_replicate, Frame.length_blank]
    omega
  · show c.procedure.localCount ≤ (List.replicate _ _).length
    rw [List.length_replicate]
    omega
  · intro checked verified
    exact verified.covers.start

namespace Activation

theorem Keeps.procedure {a : Activation} {s : Scene} {awaited : Nat} (h : a.Keeps known s awaited) :
    known a.procedure := by
  have same : a.procedure = s.closure.procedure := congrArg Closure.procedure h.shows.closure
  rw [same]
  exact h.within.procedure

/-- The instruction that an activation stands at, with the operands for it. -/
structure Stands (a : Activation) (s : Scene) (checked : Checked) (i : Instruction) : Prop where
  here : a.procedure.code[a.pc]? = some i
  pops : i.pops ≤ s.stack.length
  low : s.stack.length ≤ a.procedure.stackSize
  room : s.stack.length - i.pops + i.pushes ≤ a.procedure.stackSize

theorem Keeps.stands {a : Activation} {s : Scene} (h : a.Keeps known s 0) {checked : Checked}
    (verified : a.procedure.Verified checked) : ∃ i, a.Stands s checked i := by
  obtain ⟨i, here, pops, low, room⟩ := verified.covers.supports (h.depth verified)
  rw [← verified.stackSize] at low room
  rw [← h.shows.pc] at here
  exact ⟨i, here, pops, low, room⟩

/-- An activation has its frame and its base still, with the stack below the local slots, and those
are spared, but for the one that a store names. -/
structure Spares (a b : Activation) (i : Instruction) : Prop where
  length : b.frame.length = a.frame.length
  base : b.base = a.base
  low : b.sp ≤ b.base
  slots : ∀ k, a.base ≤ k → (i.op = .store → k ≠ a.base + i.operand) →
    b.frame.slots[k]? = a.frame.slots[k]?

theorem Keeps.spares {a b : Activation} {s t : Scene} {i : Instruction} {awaited : Nat}
    (h : a.Keeps known s awaited) (shows : b.Shows t) (length : b.frame.length = a.frame.length)
    (base : b.base = a.base)
    (locals : t.locals = s.locals ∨ i.op = .store ∧ ∃ v, t.locals = s.locals.set i.operand (some v)) :
    Spares a b i := by
  have level := shows.level
  refine ⟨length, base, by omega, fun k above other => ?_⟩
  obtain ⟨j, rfl⟩ := Nat.exists_eq_add_of_le above
  have same : t.locals[j]? = s.locals[j]? := by
    rcases locals with same | ⟨stores, v, same⟩
    · rw [same]
    · rw [same, List.getElem?_set_ne fun equal => other stores (by rw [equal])]
  by_cases inside : j < s.locals.length
  · cases found : s.locals[j]? with
    | none => cases (List.getElem?_eq_getElem inside).symm.trans found
    | some entry =>
      cases entry with
      | none => exact absurd rfl (h.filled none (List.mem_of_getElem? found))
      | some v =>
        rw [h.shows.locals found, ← base]
        exact shows.locals (same.trans found)
  · have whole := h.whole
    have beyond : a.frame.slots.size ≤ a.base + j := by
      show a.frame.length ≤ a.base + j
      omega
    have further : b.frame.slots.size ≤ a.base + j := by
      show b.frame.length ≤ a.base + j
      omega
    rw [Array.getElem?_eq_none beyond, Array.getElem?_eq_none further]

theorem Keeps.filled_of_continues {a : Activation} {s t : Scene} {i : Instruction} {awaited : Nat}
    (h : a.Keeps known s awaited)
    (locals : t.locals = s.locals ∨ i.op = .store ∧ ∃ v, t.locals = s.locals.set i.operand (some v)) :
    ∀ entry ∈ t.locals, entry ≠ none := by
  rcases locals with same | ⟨_, v, same⟩
  · rw [same]
    exact h.filled
  · intro entry member
    rw [same] at member
    rcases List.mem_or_eq_of_mem_set member with old | rfl
    · exact h.filled entry old
    · nofun

/-- An activation that shows a scene with the closure and the slots of one that keeps the checked
depths keeps them too, if it has the depth of the address it is at. -/
theorem Keeps.carry {a b : Activation} {s t : Scene} {i : Instruction} {before after : Nat}
    (h : a.Keeps known s before) (shows : b.Shows t) (length : b.frame.length = a.frame.length)
    (procedure : b.procedure = a.procedure) (within : t.Within known)
    (locals : t.locals = s.locals ∨ i.op = .store ∧ ∃ v, t.locals = s.locals.set i.operand (some v))
    (depth : ∀ {checked : Checked}, a.procedure.Verified checked →
      checked.depths[t.pc]? = some (some (t.stack.length + after))) : b.Keeps known t after := by
  have count : t.locals.length = s.locals.length := by
    rcases locals with same | ⟨_, v, same⟩
    · rw [same]
    · rw [same, List.length_set]
  have base : b.base = a.base := congrArg Procedure.stackSize procedure
  refine ⟨shows, within, h.filled_of_continues locals, ?_, ?_, ?_⟩
  · rw [count, base, length]
    exact h.whole
  · rw [count, procedure]
    exact h.slots
  · rw [procedure]
    exact depth

theorem Keeps.room (roster : Roster known) {a : Activation} {s : Scene} (h : a.Keeps known s 1) :
    s.stack.length < a.procedure.stackSize := by
  obtain ⟨checked, verified⟩ := roster.verified h.procedure
  obtain ⟨_, _, _, room, _⟩ := verified.covers.supports (h.depth verified)
  rwa [← verified.stackSize] at room

theorem Keeps.push (roster : Roster known) {a : Activation} {s : Scene} {v : Value}
    (h : a.Keeps known s 1) (value : v.Within known) :
    ∃ b, Ends (Act.push v) a (.ok ()) b ∧ b.Keeps known (s.push v) 0 := by
  have same : a.procedure = s.closure.procedure := congrArg Closure.procedure h.shows.closure
  obtain ⟨b, ended, shows, length⟩ := Act.does_push (same ▸ h.room roster) a h.shows
  have procedure : b.procedure = a.procedure :=
    (congrArg Closure.procedure shows.closure).trans same.symm
  exact ⟨b, ended, h.carry (i := Opcode.noOp.bare) shows length procedure (h.within.push value)
    (Or.inl rfl) h.depth⟩

/-- Running an instruction keeps the checked depths and spares the local slots. -/
theorem Keeps.settles (roster : Roster known) {a : Activation} {s : Scene} {σ : Store}
    (h : a.Keeps known s 0) (store : σ.Within known) {checked : Checked} {i : Instruction}
    (verified : a.procedure.Verified checked) (stands : a.Stands s checked i) :
    ∃ r b, Ends (Act.perform σ i) { a with pc := a.pc + 1 } r b ∧ b.Settles known r ∧
      Spares a b i := by
  have same : a.procedure = s.closure.procedure := congrArg Closure.procedure h.shows.closure
  have code : (s.past i).chunk.code = a.procedure.code := by
    show s.chunk.code = a.procedure.code
    rw [← h.shows.chunk]
    rfl
  have count : (s.stack.take i.pops).length = i.pops := List.length_take_of_le stands.pops
  have left : (s.past i).stack.length = s.stack.length - i.pops := List.length_drop
  have takes := h.shows.takes verified.anchored stands.here stands.pops stands.room σ
  change Act.Takes σ (Act.perform σ i) _ _ ((s.past i).act σ i (s.stack.take i.pops)) at takes
  have within := Scene.turn_within h.within store i
  have heeds := Scene.act_heeds σ (s.past i) i (s.stack.take i.pops)
  have here : s.pc = a.pc := h.shows.pc.symm
  have finish {r : Except Failure (Move × Store)} {t : Scene}
      (does : (Act.perform σ i).Does
        { s.past i with stack := s.stack.take i.pops ++ (s.past i).stack } r t)
      (procedure : t.closure.procedure = s.closure.procedure)
      (locals : t.locals = s.locals ∨
        i.op = .store ∧ ∃ v, t.locals = s.locals.set i.operand (some v))
      (settles : ∀ b : Activation, b.Shows t → b.frame.length = a.frame.length →
        b.procedure = a.procedure → b.Settles known r) :
      ∃ r b, Ends (Act.perform σ i) { a with pc := a.pc + 1 } r b ∧ b.Settles known r ∧
        Spares a b i := by
    obtain ⟨b, ended, shows, length⟩ := does _ (h.shows.advanced i)
    have procedure : b.procedure = a.procedure :=
      (congrArg Closure.procedure shows.closure).trans (procedure.trans same.symm)
    exact ⟨r, b, ended, settles b shows length procedure,
      h.spares shows length (congrArg Procedure.stackSize procedure) locals⟩
  have onward {t : Scene} {given : List Value} {awaited : Nat} {checked : Checked}
      (verified : a.procedure.Verified checked) (stack : t.stack = given ++ (s.past i).stack)
      (pushed : given.length + awaited = i.pushes)
      (control : (i.op.effect.exits = false ∧ t.pc = (s.past i).pc) ∨
        (i.op.jumps ∧ Chunk.anchor? (s.past i).chunk.code i.operand = some t.pc)) :
      checked.depths[t.pc]? = some (some (t.stack.length + awaited)) := by
    have depth : t.stack.length + awaited = i.depthAfter s.stack.length := by
      rw [stack, List.length_append, left]
      show _ = s.stack.length - i.pops + i.pushes
      omega
    have reached := h.depth verified
    have found : a.procedure.code[s.pc]? = some i := by
      rw [here]
      exact stands.here
    rw [depth]
    rcases control with ⟨stays, next⟩ | ⟨jumps, goal⟩
    · rw [next]
      exact verified.covers.next reached found stays
    · rw [code] at goal
      exact verified.covers.target reached found jumps goal
  change ((s.past i).act σ i (s.stack.take i.pops)).Within known at within
  cases turned : (s.past i).act σ i (s.stack.take i.pops) with
  | go t τ =>
    rw [turned] at takes within heeds
    have heeds : (s.past i).Continues i t := heeds
    obtain ⟨given, stack, pushed⟩ := heeds.stack
    refine finish takes (congrArg Closure.procedure heeds.closure) heeds.locals ?_
    intro b shows length procedure
    refine ⟨⟨t, h.carry shows length procedure within.1 heeds.locals ?_⟩, within.2⟩
    intro checked verified
    exact onward verified stack pushed heeds.control
  | answer v =>
    rw [turned] at takes within
    exact finish takes rfl (Or.inl rfl) fun b _ _ _ => ⟨within, store⟩
  | call callee args t =>
    rw [turned] at takes within heeds
    obtain ⟨rfl, one, stays⟩ := heeds
    obtain ⟨called, values, inside⟩ := within
    refine finish takes rfl (Or.inl rfl) fun b shows length procedure => ?_
    refine ⟨⟨s.past i, h.carry (i := i) shows length procedure inside (Or.inl rfl) ?_⟩, called, values,
      store⟩
    intro checked verified
    exact onward verified (List.nil_append _).symm one.symm (Or.inl ⟨stays, rfl⟩)
  | leave callee args =>
    rw [turned] at takes within
    obtain ⟨called, values⟩ := within
    by_cases plain : ∀ p captured, callee ≠ .closure p captured
    · exact finish (takes.left plain) rfl (Or.inl rfl) fun b _ _ _ => ⟨called, values, store⟩
    simp only [ne_eq, not_forall, not_not] at plain
    obtain ⟨p, captured, rfl⟩ := plain
    cases checked : p.arity.check args.length with
    | error f =>
      have plain : f.Within known := by
        unfold Arity.check at checked
        split at checked <;> cases checked
        exact .plain nofun
      exact finish (takes.refused rfl checked) rfl (Or.inl rfl) fun b _ _ _ => plain
    | ok =>
      by_cases again : p.serial = s.closure.procedure.serial
      · obtain ⟨knownCallee, inside⟩ := called.closure
        have equal : p = s.closure.procedure :=
          roster.identity knownCallee h.within.procedure again
        refine finish (takes.restarted rfl checked equal) equal (Or.inl rfl) ?_
        intro b shows length procedure
        refine ⟨⟨_, h.carry (i := i) shows length procedure ?_ (Or.inl rfl) ?_⟩, store⟩
        · exact ⟨knownCallee, h.within.constants, inside, values, nofun, nofun, h.within.locals⟩
        · intro checked verified
          exact verified.covers.start
      · exact finish (takes.switched rfl checked again) rfl (Or.inl rfl) fun b _ _ _ =>
          ⟨called, values, store⟩
  | fault f =>
    rw [turned] at takes within
    exact finish takes rfl (Or.inl rfl) fun b _ _ _ => within
  | breach b =>
    rw [turned] at takes
    exact finish takes rfl (Or.inl rfl) fun b _ _ _ => trivial
  | stray =>
    have jumping : i.op.jumps →
        ∃ target, Chunk.anchor? (s.past i).chunk.code i.operand = some target := by
      intro jumps
      rw [code]
      obtain ⟨target, found, _⟩ := verified.anchored (List.mem_of_getElem? stands.here) jumps
      exact ⟨target, found⟩
    have beyond : a.frame.length ≤ a.base + i.operand ∧ (i.op = .load ∨ i.op = .store) := by
      have total := h.whole
      rcases Scene.act_stray count jumping turned with ⟨loads, empty⟩ | ⟨stores, outside⟩
      · refine ⟨Nat.le_of_not_lt fun inside => ?_, Or.inl loads⟩
        have small : i.operand < s.locals.length := by omega
        have found := List.getElem?_eq_getElem small
        cases entry : s.locals[i.operand] with
        | none => exact h.filled none (entry ▸ List.getElem_mem small) rfl
        | some v => exact empty v (found.trans (congrArg some entry))
      · have outside : s.locals.length ≤ i.operand := outside
        exact ⟨by omega, Or.inr stores⟩
    obtain ⟨b, ended, shows, length⟩ := Act.perform_beyond (h.shows.advanced i) count beyond.1 beyond.2
    have base : b.base = a.base := by
      show b.closure.procedure.stackSize = a.closure.procedure.stackSize
      rw [shows.closure, h.shows.closure]
      rfl
    exact ⟨_, b, ended, trivial, h.spares shows length base (Or.inl rfl)⟩

end Activation

namespace Machine

structure Keeps (known : Procedure Value → Prop) (m : Machine) : Prop where
  pool : m.pool.Tidy
  store : m.store.Within known

theorem Keeps.report {m : Machine} (h : m.Keeps known) (e : Event) : (m.report e).Keeps known :=
  ⟨h.pool, ⟨h.store.namespaces, h.store.refs⟩⟩

theorem Keeps.granted {m : Machine} (h : m.Keeps known) {g : Grant} (tidy : g.pool.Tidy) :
    (m.granted g).Keeps known := by
  have taken : ({ m with pool := g.pool } : Machine).Keeps known := ⟨tidy, h.store⟩
  unfold Machine.granted
  split
  · exact taken.report _
  · exact taken

theorem Keeps.release {m : Machine} (h : m.Keeps known) (a : Activation) :
    (m.release a).Keeps known :=
  ⟨h.pool.free a.frame, h.store⟩

theorem Keeps.abandon {m : Machine} (h : m.Keeps known) (a : Activation) (f : Fault) :
    (m.abandon a f).Keeps known :=
  (h.report _).release a

end Machine

def Control.Keeps (known : Procedure Value → Prop) : Control → Prop
  | .running a => ∃ s, a.Keeps known s 0
  | .calling callee args => callee.Within known ∧ ∀ v ∈ args, v.Within known
  | .returning v => v.Within known
  | .unwinding f => f.Within known
  | .breaching _ => True

def Pending.Keeps (known : Procedure Value → Prop) : Pending → Prop
  | .resume a => ∃ s, a.Keeps known s 1
  | .finish _ => True
  | .guard handler => handler.Within known

theorem Fault.Within.payload {f : Fault} (h : f.Within known) : f.payload.Within known :=
  Fault.Matches.payload h

theorem Builtin.within_reply (b : Builtin) {args : List Value} (h : ∀ v ∈ args, v.Within known) :
    (b.reply args).Matches (Twins known) (b.reply args) :=
  b.matches_reply Twins.alikeness (twins_of_within h)

namespace Machine.State

/-- Everything in the state is known, and every activation keeps its checked depths. -/
structure Keeps (known : Procedure Value → Prop) (s : State) : Prop where
  machine : s.machine.Keeps known
  control : s.control.Keeps known
  pending : ∀ w ∈ s.pending, w.Keeps known

variable {m : Machine} {pending : List Pending}

theorem keeps_fail (h : m.Keeps known) (waiting : ∀ w ∈ pending, w.Keeps known) (a : Activation)
    {e : Failure} (settles : a.Settles known (.error e)) : (fail m pending a e).Keeps known := by
  cases e with
  | fault f => exact ⟨h.abandon a f, settles, waiting⟩
  | breach b => exact ⟨h.release a, trivial, waiting⟩

theorem keeps_start (roster : Roster known) (h : m.Keeps known)
    (waiting : ∀ w ∈ pending, w.Keeps known) {c : Closure} {args : List Value}
    (callee : c.value.Within known) (values : ∀ v ∈ args, v.Within known) :
    (start m pending c args).Keeps known := by
  obtain ⟨suits, tidy⟩ := h.pool.alloc c.procedure.frameSize
  exact ⟨h.granted tidy, roster.enter callee values suits, waiting⟩

theorem keeps_switch (roster : Roster known) (h : m.Keeps known)
    (waiting : ∀ w ∈ pending, w.Keeps known) (a : Activation) {c : Closure} {args : List Value}
    (callee : c.value.Within known) (values : ∀ v ∈ args, v.Within known) :
    (switch m pending a c args).Keeps known := by
  obtain ⟨suits, tidy⟩ := h.pool.reserve a.frame c.procedure.frameSize
  exact ⟨h.granted tidy, roster.enter callee values suits, waiting⟩

theorem keeps_traced (h : m.Keeps known) (a : Activation) (i : Instruction) :
    (traced m a i).Keeps known := by
  unfold traced
  split
  · exact h.report _
  · exact h

theorem keeps_follow (roster : Roster known) (h : m.Keeps known)
    (waiting : ∀ w ∈ pending, w.Keeps known) {a : Activation} {move : Move} {σ : Store}
    (settles : a.Settles known (.ok (move, σ))) :
    (follow { m with store := σ } pending a move).Keeps known := by
  have stored (store : σ.Within known) : ({ m with store := σ } : Machine).Keeps known :=
    ⟨h.pool, store⟩
  cases move with
  | go =>
    obtain ⟨keeps, store⟩ := settles
    exact ⟨stored store, keeps, waiting⟩
  | answer v =>
    obtain ⟨value, store⟩ := settles
    exact ⟨(stored store).release a, value, waiting⟩
  | call callee args =>
    obtain ⟨keeps, called, values, store⟩ := settles
    exact ⟨stored store, ⟨called, values⟩, List.forall_mem_cons.mpr ⟨keeps, waiting⟩⟩
  | leave callee args =>
    obtain ⟨called, values, store⟩ := settles
    exact ⟨stored store, ⟨called, values⟩, List.forall_mem_cons.mpr ⟨trivial, waiting⟩⟩
  | switch c args =>
    obtain ⟨called, values, store⟩ := settles
    exact keeps_switch roster (stored store) waiting a called values

theorem runInstruction_of_ends {a b : Activation} {i : Instruction}
    {r : Except Failure (Move × Store)} (here : a.procedure.code[a.pc]? = some i)
    (ended : Ends (Act.perform (traced m a i).store i) { a with pc := a.pc + 1 } r b) :
    runInstruction m pending a = match r with
      | .error e => fail (traced m a i) pending b e
      | .ok (move, store) => follow { traced m a i with store } pending b move := by
  unfold runInstruction
  simp only [here]
  rw [show (Act.perform (traced m a i).store i).run { a with pc := a.pc + 1 } = (r, b) from ended]
  cases r <;> rfl

theorem keeps_runInstruction (roster : Roster known) (h : m.Keeps known)
    (waiting : ∀ w ∈ pending, w.Keeps known) {a : Activation} {s : Scene}
    (keeps : a.Keeps known s 0) : (runInstruction m pending a).Keeps known := by
  obtain ⟨checked, verified⟩ := roster.verified keeps.procedure
  obtain ⟨i, stands⟩ := keeps.stands verified
  have traced := keeps_traced h a i
  obtain ⟨r, b, ended, settles, _⟩ := keeps.settles roster traced.store verified stands
  rw [runInstruction_of_ends stands.here ended]
  cases r with
  | error e => exact keeps_fail traced waiting b settles
  | ok result => exact keeps_follow roster traced waiting settles

theorem keeps_reply (h : m.Keeps known) (waiting : ∀ w ∈ pending, w.Keeps known) {r : Reply}
    (twins : r.Matches (Twins known) r) : (reply m pending r).Keeps known := by
  cases r with
  | answer v =>
    cases twins with
    | answer value => exact ⟨h, value, waiting⟩
  | fault f =>
    cases twins with
    | fault fault => exact ⟨h, fault, waiting⟩
  | call callee args =>
    cases twins with
    | call called values => exact ⟨h, ⟨called, within_of_twins values⟩, waiting⟩
  | guarded thunk handler =>
    cases twins with
    | guarded called handles =>
      exact ⟨h, ⟨called, nofun⟩, List.forall_mem_cons.mpr ⟨handles, waiting⟩⟩
  | noted line v =>
    cases twins with
    | noted _ _ value => exact ⟨⟨h.pool, h.store⟩, value, waiting⟩

theorem keeps_callValue (roster : Roster known) (h : m.Keeps known)
    (waiting : ∀ w ∈ pending, w.Keeps known) {callee : Value} {args : List Value}
    (called : callee.Within known) (values : ∀ v ∈ args, v.Within known) :
    (callValue m pending callee args).Keeps known := by
  unfold callValue
  split
  · rename_i f failed
    have checked := Value.Matches.check Twins.alikeness called args.length
    rw [failed] at checked
    cases checked with
    | error fault => exact ⟨h, fault, waiting⟩
  · split
    · exact keeps_start roster h waiting called values
    · exact keeps_reply h waiting (Builtin.within_reply _ values)
    · exact ⟨h, .plain nofun, waiting⟩

theorem keeps_returnTo (roster : Roster known) (h : m.Keeps known) (waiting : ∀ w ∈ pending, w.Keeps known) {v : Value}
    (value : v.Within known) {w : Pending} (keeps : w.Keeps known) :
    (returnTo m pending v w).Keeps known := by
  cases w with
  | resume a =>
    obtain ⟨s, keeps⟩ := keeps
    obtain ⟨b, ended, kept⟩ := keeps.push roster value
    unfold returnTo
    simp only
    rw [show (Act.push v).run a = (.ok (), b) from ended]
    exact ⟨h, ⟨_, kept⟩, waiting⟩
  | finish a => exact ⟨h.release a, value, waiting⟩
  | guard handler => exact ⟨h, value, waiting⟩

theorem keeps_unwindTo (h : m.Keeps known) (waiting : ∀ w ∈ pending, w.Keeps known) {f : Fault}
    (fault : f.Within known) {w : Pending} (keeps : w.Keeps known) :
    (unwindTo m pending f w).Keeps known := by
  cases w with
  | resume a | finish a => exact ⟨h.abandon a f, fault, waiting⟩
  | guard handler =>
    exact ⟨h, ⟨keeps, fun v member => List.mem_singleton.mp member ▸ fault.payload⟩, waiting⟩

theorem keeps_breachTo (h : m.Keeps known) (waiting : ∀ w ∈ pending, w.Keeps known) (b : Breach)
    (w : Pending) : (breachTo m pending b w).Keeps known := by
  cases w with
  | resume a | finish a => exact ⟨h.release a, trivial, waiting⟩
  | guard handler => exact ⟨h, trivial, waiting⟩

/-- One step, whatever it does, keeps the checked depths. -/
theorem keeps_step (roster : Roster known) {s : State} (h : s.Keeps known) :
    s.step.Keeps known := by
  obtain ⟨m, doing, pending⟩ := s
  obtain ⟨machine, control, waiting⟩ := h
  cases doing with
  | running a =>
    obtain ⟨_, keeps⟩ := control
    exact keeps_runInstruction roster machine waiting keeps
  | calling callee args => exact keeps_callValue roster machine waiting control.1 control.2
  | returning v =>
    cases pending with
    | nil => exact ⟨machine, control, waiting⟩
    | cons w pending =>
      obtain ⟨first, rest⟩ := List.forall_mem_cons.mp waiting
      exact keeps_returnTo roster machine rest control first
  | unwinding f =>
    cases pending with
    | nil => exact ⟨machine, control, waiting⟩
    | cons w pending =>
      obtain ⟨first, rest⟩ := List.forall_mem_cons.mp waiting
      exact keeps_unwindTo machine rest control first
  | breaching b =>
    cases pending with
    | nil => exact ⟨machine, control, waiting⟩
    | cons w pending =>
      obtain ⟨_, rest⟩ := List.forall_mem_cons.mp waiting
      exact keeps_breachTo machine rest b w

theorem keeps_iterate (roster : Roster known) {s : State} (h : s.Keeps known) (n : Nat) :
    (step^[n] s).Keeps known := by
  induction n generalizing s with
  | zero => exact h
  | succ n ih => exact ih (keeps_step roster h)

end Machine.State

/-- What holds before each instruction: the address is one that the check reached, with the depth it
found; the frame is large enough; the operands are there and what is pushed fits; a jump finds the anchor
of its label; and the instruction spares the local slots. -/
structure Activation.Follows (known : Procedure Value → Prop) (a : Activation) (checked : Checked)
    (i : Instruction) : Prop where
  verified : a.procedure.Verified checked
  here : a.procedure.code[a.pc]? = some i
  frame : a.procedure.frameSize ≤ a.frame.length
  low : a.sp ≤ a.base
  depth : checked.depths[a.pc]? = some (some a.depth)
  bounded : a.depth ≤ a.procedure.stackSize
  pops : i.pops ≤ a.depth
  pushes : a.depth - i.pops + i.pushes ≤ a.procedure.stackSize
  lands : i.op.jumps → ∃ (target : Nat) (anchor : Instruction),
    a.procedure.labels[i.operand]?.bind id = some target ∧
      a.procedure.code[target]? = some anchor ∧ anchor.op.effect.anchors ∧
      anchor.operand = i.operand
  spares : ∀ {σ : Store} {r : Except Failure (Move × Store)} {b : Activation}, σ.Within known →
    Ends (Act.perform σ i) { a with pc := a.pc + 1 } r b → a.Spares b i

theorem Activation.Keeps.follows (roster : Roster known) {a : Activation} {s : Scene}
    (h : a.Keeps known s 0) : ∃ checked i, a.Follows known checked i := by
  obtain ⟨checked, verified⟩ := roster.verified h.procedure
  obtain ⟨i, stands⟩ := h.stands verified
  have level := h.shows.level
  have whole := h.whole
  have slots := h.slots
  have base : a.base = a.procedure.stackSize := rfl
  have depth : a.depth = s.stack.length := by
    show a.base - a.sp = _
    omega
  refine ⟨checked, i, verified, stands.here, ?_, by omega, ?_, ?_, ?_, ?_, ?_, ?_⟩
  · show a.procedure.stackSize + a.procedure.localCount ≤ a.frame.length
    omega
  · rw [depth, h.shows.pc]
    exact h.depth verified
  · rw [depth]
    exact stands.low
  · rw [depth]
    exact stands.pops
  · rw [depth]
    exact stands.room
  · intro jumps
    obtain ⟨target, found, listed⟩ := verified.anchored (List.mem_of_getElem? stands.here) jumps
    obtain ⟨anchor, there, anchors, same⟩ := Chunk.anchor?_spec found
    exact ⟨target, anchor, listed, there, anchors, same⟩
  · intro σ r b store ended
    obtain ⟨_, c, finished, _, spares⟩ := h.settles roster store verified stands
    obtain ⟨_, rfl⟩ := ended.unique finished
    exact spares

/-- However long a call of a closure runs, what the check found holds before each instruction, in every
activation that comes to run. -/
theorem Machine.State.running_follows (registry : Registry known) {m : Machine}
    (pool : m.pool.Tidy) (store : m.store.Within known) {p : Procedure Value}
    {captured args : List Value} (callee : known p) (inside : ∀ v ∈ captured, v.Within known)
    (values : ∀ v ∈ args, v.Within known) (n : Nat) {a : Activation}
    (running : (step^[n] ⟨m, .calling (.closure p captured) args, []⟩).control = .running a) :
    ∃ checked i, a.Follows known checked i := by
  have called : (Value.closure p captured).Within known :=
    Value.Matches.closure ⟨rfl, callee⟩ (twins_of_within inside)
  have start : State.Keeps known ⟨m, .calling (.closure p captured) args, []⟩ :=
    ⟨⟨pool, store⟩, ⟨called, values⟩, nofun⟩
  have keeps := (keeps_iterate registry.roster start n).control
  rw [running] at keeps
  obtain ⟨_, keeps⟩ := keeps
  exact keeps.follows registry.roster

/-- A body of one parameter that calls its own closure with it, in place of itself. -/
def selfCaller : Procedure Value where
  serial := 0
  name := some "again"
  arity := .fixed 1
  code := [⟨.arg, 0, Nat.zero_le _⟩, Opcode.current.bare, ⟨.tailCall, 1, one_le_maxOperand⟩]
  constants := []
  labels := []
  stackSize := 2
  localCount := 0
  labelCount := 0
  globals := 0
  inlinable := false

theorem built_selfCaller : Yields (selfCaller.chunk.build (.fixed 1) .withoutInlining) {} selfCaller
    { built := 1, events := [.built (some "again") 3 2 0 false] } := by
  with_unfolding_all rfl

theorem registry_selfCaller : Registry (· = selfCaller) where
  built := by
    rintro p rfl
    exact ⟨_, _, _, _, _, built_selfCaller⟩
  identity := by
    rintro p q rfl rfl _
    rfl
  constants := by
    rintro p rfl
    exact nofun

/-- After four steps the body has started again in the same frame. -/
theorem running_follows_selfCaller : ∃ checked i, Activation.Follows (· = selfCaller)
    { closure := ⟨selfCaller, []⟩, args := [.null], frame := .blank 8 0, sp := 2 } checked i := by
  have captured : ∀ v ∈ ([] : List Value), v.Within (· = selfCaller) := nofun
  have args : ∀ v ∈ [Value.null], v.Within (· = selfCaller) := by
    intro v member
    rw [List.mem_singleton.mp member]
    exact .null
  exact Machine.State.running_follows registry_selfCaller (m := .new {} {}) (Pool.tidy_new {})
    ⟨.nil, .nil⟩ rfl captured args 4 rfl

end StackLisp
