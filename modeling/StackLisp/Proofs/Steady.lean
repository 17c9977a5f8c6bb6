import StackLisp.Proofs.Accord
import StackLisp.Proofs.Upholding

/-!
Turns of scenes in accord with what is known of their references. All they hand on is plain, they fail for a
reference only where it is not filled yet, and where they go on they are in accord with what is known there.
-/

namespace StackLisp

open Whereabouts

/-- A reference from a number on that is not filled yet. -/
def Store.Unfilled (σ : Store) (low : Nat) (id : RefId) : Prop :=
  low ≤ id ∧ σ.refs[id]? = some none

/-- A store later on: no reference is gone, and those below a number are as they were. -/
structure Store.Onward (low : Nat) (σ τ : Store) : Prop where
  size : σ.refs.size ≤ τ.refs.size
  below : ∀ id, id < low → τ.refs[id]? = σ.refs[id]?

/-- The arguments of a scene, and those set aside, are plain. -/
structure Scene.Supplied (s : Scene) : Prop where
  args : ∀ v ∈ s.args, v.Serves .plain
  saved : ∀ vs ∈ s.saved, ∀ v ∈ vs, v.Serves .plain

/-- What the code of a scene points to is as the chart takes it. -/
structure Scene.Guided (refs : Nat → Bool) (D : Nat → Option Whereabouts) (s : Scene) : Prop where
  own : s.closure.value.Serves .plain
  constants : ∀ v ∈ s.chunk.constants, v.HasRole
  captured : ∀ {k : Nat} {v : Value}, s.closure.captured[k]? = some v → v.Serves (.ofCaptured (refs k))
  charted : (view (.genuine refs)).Charted s.chunk.constants s.chunk.code D

/-- A scene with plain arguments in accord with what is known of its references. -/
structure Scene.Orderly (X : Whereabouts) (mine : RefId → Prop) (s : Scene) : Prop extends s.Supplied where
  accords : s.Accords mine X

/-- A scene in accord with what its chart says where it is. -/
def Scene.Steady (mine : RefId → Prop) (s : Scene) : Prop :=
  ∃ refs D X, s.Guided refs D ∧ D s.pc = some X ∧ s.Orderly X mine

/-- A fault that has to do with a reference only if it is not filled yet. -/
def Fault.Fair (f : Fault) : Prop :=
  f.Bears (Value.Serves .plain) ∧ (f.concernsRefs → f = .unboundRef)

/-- What a turn hands on is plain, and where it goes on or waits the scene is as it should be for the references
that are its own. Those below a number are no concern of it. -/
def Turn.Abides (low : Nat) (σ : Store) (P : (RefId → Prop) → Scene → Prop) : Turn → Prop
  | .go t τ => P (τ.Unfilled low) t ∧ τ.Bears (Value.Serves .plain) ∧ σ.Onward low τ
  | .answer v => v.Serves .plain
  | .call callee args t => callee.Serves .plain ∧ (∀ v ∈ args, v.Serves .plain) ∧
    ∀ v : Value, v.Serves .plain → P (σ.Unfilled low) (t.push v)
  | .leave callee args => callee.Serves .plain ∧ ∀ v ∈ args, v.Serves .plain
  | .fault f => f.Fair
  | .breach _ | .stray => True

namespace Store.Onward

variable {σ τ υ : Store} {low high : Nat} {id : RefId}

theorem refl (low : Nat) (σ : Store) : σ.Onward low σ :=
  ⟨Nat.le_refl _, fun _ _ => rfl⟩

theorem of_refs (same : τ.refs = σ.refs) : σ.Onward low τ := by
  refine ⟨?_, fun id _ => ?_⟩ <;> rw [same]

theorem trans (h : σ.Onward low τ) (g : τ.Onward low υ) : σ.Onward low υ :=
  ⟨Nat.le_trans h.size g.size, fun id below => (g.below id below).trans (h.below id below)⟩

theorem mono (h : σ.Onward high τ) (le : low ≤ high) : σ.Onward low τ :=
  ⟨h.size, fun id below => h.below id (Nat.lt_of_lt_of_le below le)⟩

theorem newRef (le : low ≤ σ.refs.size) : σ.Onward low σ.newRef.2 := by
  refine ⟨?_, fun id below => ?_⟩
  · show σ.refs.size ≤ (σ.refs.push none).size
    rw [Array.size_push]
    exact Nat.le_succ _
  · exact Array.getElem?_push.trans (if_neg (Nat.ne_of_lt (Nat.lt_of_lt_of_le below le)))

end Store.Onward

/-- An operation that has to do with references only gives something, or takes what is known to be there. -/
theorem Opcode.gives_or_takes {op : Opcode} (h : op.conveys = true) :
    op ∈ [.const, .capture, .load, .arg, .restArg, .current, .newRef] ∨ op ∈ [.store, .bindRef, .deref, .makeClosure] := by
  revert h
  cases op <;> decide

theorem Opcode.ordinary_of_jumps {op : Opcode} (h : op.jumps) : op.conveys = false := by
  cases op <;> first | rfl | cases h

theorem Store.unfilled_lt {σ : Store} {low : Nat} {id : RefId} (h : σ.Unfilled low id) : id < σ.refs.size :=
  (Array.getElem?_eq_some_iff.mp h.2).1

theorem Store.unfilled_newRef {σ : Store} {low : Nat} (le : low ≤ σ.refs.size) :
    σ.newRef.2.Unfilled low σ.newRef.1 ∧ ∀ id, σ.Unfilled low id → σ.newRef.2.Unfilled low id := by
  refine ⟨⟨le, Array.getElem?_push_size⟩, fun id free => ⟨free.1, ?_⟩⟩
  exact ((Store.Onward.newRef (Nat.le_refl _)).below id (unfilled_lt free)).trans free.2

theorem Store.fillRef_of_unfilled {σ : Store} {low : Nat} {id : RefId} (free : σ.Unfilled low id) (v : Value) :
    ∃ τ, σ.fillRef id v = .ok τ ∧ σ.Onward low τ ∧ ∀ other, σ.Unfilled low other ∧ other ≠ id → τ.Unfilled low other := by
  refine ⟨{ σ with refs := σ.refs.setIfInBounds id (some v) }, ?_, ⟨?_, fun other below => ?_⟩, fun other free => ⟨free.1.1, ?_⟩⟩
  · unfold Store.fillRef
    rw [free.2]
  · exact Nat.le_of_eq (Array.size_setIfInBounds ..).symm
  · exact Array.getElem?_setIfInBounds_ne (Nat.ne_of_gt (Nat.lt_of_lt_of_le below free.1))
  · exact (Array.getElem?_setIfInBounds_ne fun same => free.2 same.symm).trans free.1.2

namespace Scene

variable {s t : Scene} {σ τ : Store} {low : Nat} {X Y : Whereabouts} {i : Instruction} {refs : Nat → Bool}
  {D : Nat → Option Whereabouts} {c : Content} {v : Value} {mine other : RefId → Prop}

theorem Guided.congr (h : s.Guided refs D) (chunk : t.chunk = s.chunk) (closure : t.closure = s.closure) :
    t.Guided refs D where
  own := closure ▸ h.own
  constants := chunk ▸ h.constants
  captured := closure ▸ h.captured
  charted := chunk ▸ h.charted

theorem Supplied.past (h : s.Supplied) (i : Instruction) : (s.past i).Supplied :=
  ⟨h.args, h.saved⟩

/-- An operand is given that is neither pending nor a template. -/
theorem abides_give (supplied : s.Supplied) (h : s.Accords (σ.Unfilled low) X) (bears : σ.Bears (Value.Serves .plain))
    (value : c.Holds s.slot? v) (known : c ≠ .ready ∧ c ≠ .pending) : (s.give σ v).Abides low σ (Orderly (X.push c)) :=
  ⟨⟨⟨supplied.args, supplied.saved⟩, h.pushKnown value known⟩, bears, .refl low σ⟩

/-- Operands of which this is known are plain. -/
theorem Accords.plain_drop (h : s.Accords (σ.Unfilled low) X) {n : Nat} (plain : ∀ j, n ≤ j → X.tops j = .plain) :
    ∀ v ∈ s.stack.drop n, v.Serves .plain := by
  intro v member
  obtain ⟨j, there⟩ := List.mem_iff_getElem?.mp member
  rw [List.getElem?_drop] at there
  have holds := h.tops there
  rw [plain (n + j) (Nat.le_add_right n j)] at holds
  exact holds

theorem abides_const (supplied : s.Supplied) (guided : s.Guided refs D) (h : s.Accords (σ.Unfilled low) X)
    (bears : σ.Bears (Value.Serves .plain)) {k : Nat}
    (template : ∀ p, s.chunk.constants[k]? = some (.procedure p) →
      ∃ needs, (Value.procedure p).Serves (.template needs) ∧ ∀ j, (X.tops j).Suits (needs j)) :
    (s.fetch σ s.chunk.constants[k]?).Abides low σ (Orderly (X.push (.ofConstant s.chunk.constants[k]?))) := by
  cases there : s.chunk.constants[k]? with
  | none => exact trivial
  | some v =>
    rw [there] at template
    have role := guided.constants v (List.mem_of_getElem? there)
    refine ⟨⟨⟨supplied.args, supplied.saved⟩, h.push (Content.holds_ofConstant role) (fun ready => ?_) fun pending => ?_⟩,
      bears, .refl low σ⟩
    · obtain ⟨p, rfl⟩ : ∃ p, v = .procedure p := by
        cases v <;> first | exact ⟨_, rfl⟩ | cases ready
      obtain ⟨needs, serves, suits⟩ := template p rfl
      exact ⟨needs, serves, fun below => (h.tops below).serves (suits _)⟩
    · cases v <;> cases pending

theorem abides_capture (supplied : s.Supplied) (guided : s.Guided refs D) (h : s.Accords (σ.Unfilled low) X)
    (bears : σ.Bears (Value.Serves .plain)) (k : Nat) :
    (s.fetch σ s.closure.captured[k]?).Abides low σ (Orderly (X.push (if refs k then .reference else .plain))) := by
  cases there : s.closure.captured[k]? with
  | none => exact trivial
  | some v =>
    have serves := guided.captured there
    cases which : refs k <;> rw [which] at serves
    · exact abides_give supplied h bears (c := .plain) serves ⟨nofun, nofun⟩
    · exact abides_give supplied h bears (c := .reference) serves ⟨nofun, nofun⟩

theorem abides_load (supplied : s.Supplied) (h : s.Accords (σ.Unfilled low) X) (bears : σ.Bears (Value.Serves .plain))
    (k : Nat) : (s.load σ k).Abides low σ (Orderly (X.push ((X.slots k).loaded k))) := by
  unfold load
  split
  next v found =>
    have there : s.slot? k = some v := Option.join_eq_some_iff.mpr found
    refine abides_give supplied h bears ((h.slots there).loaded there) ?_
    cases X.slots k <;> exact ⟨nofun, nofun⟩
  · exact trivial

theorem abides_newRef (supplied : s.Supplied) (h : s.Accords (σ.Unfilled low) X) (bears : σ.Bears (Value.Serves .plain))
    (le : low ≤ σ.refs.size) :
    (s.give σ.newRef.2 (.ref σ.newRef.1)).Abides low σ (Orderly (X.push .pending)) := by
  obtain ⟨fresh, others⟩ := Store.unfilled_newRef le
  refine ⟨⟨⟨supplied.args, supplied.saved⟩, (h.imp others).push (.reference _) nofun fun _ id same => ?_⟩, bears.newRef,
    .newRef le⟩
  obtain rfl := Value.ref.inj same
  exact ⟨fresh, fun p pending there => Nat.lt_irrefl _ (Store.unfilled_lt (h.mine pending there))⟩

theorem abides_giving (supplied : s.Supplied) (guided : s.Guided refs D) (h : s.Accords (σ.Unfilled low) X)
    (bears : σ.Bears (Value.Serves .plain)) (le : low ≤ σ.refs.size)
    (allows : X.Allows (.genuine refs) s.chunk.constants i)
    (gives : i.op ∈ [.const, .capture, .load, .arg, .restArg, .current, .newRef]) :
    (s.turn σ i).Abides low σ (Orderly (X.after (.genuine refs) s.chunk.constants i)) := by
  have past := supplied.past i
  have guided' : (s.past i).Guided refs D := guided.congr rfl rfl
  have plain {v : Value} (h : (s.past i).Accords (σ.Unfilled low) X) (value : v.Serves .plain) :
      ((s.past i).give σ v).Abides low σ (Orderly (X.push .plain)) :=
    abides_give past h bears value ⟨nofun, nofun⟩
  obtain ⟨op, operand, small⟩ := i
  have accords : op.effect.pops = 0 → op.effect.counted = false →
      (s.past ⟨op, operand, small⟩).Accords (σ.Unfilled low) X := fun none fixed => by
    refine h.congr ?_ rfl
    show s.stack.drop (op.effect.pops + if op.effect.counted then operand else 0) = s.stack
    rw [none, fixed]
    rfl
  simp only [List.mem_cons, List.not_mem_nil, or_false] at gives
  rcases gives with rfl | rfl | rfl | rfl | rfl | rfl | rfl
  · exact abides_const past guided' (accords rfl rfl) bears allows
  · exact abides_capture past guided' (accords rfl rfl) bears operand
  · exact abides_load past (accords rfl rfl) bears operand
  · show ((s.past _).fetch σ s.args[operand]?).Abides low σ (Orderly (X.push .plain))
    cases there : s.args[operand]? with
    | none => exact trivial
    | some v => exact plain (accords rfl rfl) (supplied.args v (List.mem_of_getElem? there))
  · exact plain (accords rfl rfl) (Value.hereditary_plain.ofList fun v member =>
      supplied.args v (List.mem_of_mem_drop member))
  · exact plain (accords rfl rfl) guided.own
  · exact abides_newRef past (accords rfl rfl) bears le

theorem abides_store (supplied : s.Supplied) (h : s.Accords (σ.Unfilled low) X) (bears : σ.Bears (Value.Serves .plain))
    {k : Nat} (small : k ≤ maxOperand) (allows : X.Allows (.genuine refs) s.chunk.constants ⟨.store, k, small⟩) :
    (s.turn σ ⟨.store, k, small⟩).Abides low σ (Orderly (X.put k (X.tops 0))) := by
  obtain ⟨which, plain⟩ := allows
  have others := h.plain_drop (n := 1) fun j one => Nat.sub_add_cancel one ▸ plain (j - 1)
  unfold turn
  cases stack : s.stack with
  | nil => exact trivial
  | cons v rest =>
    have top : s.stack[0]? = some v := stack ▸ rfl
    show ((s.past _).put σ k v).Abides low σ _
    unfold put
    split
    next inside =>
      exact ⟨⟨⟨supplied.args, supplied.saved⟩, h.put top which (fun j => slot?_set inside j) others⟩, bears, .refl low σ⟩
    · exact trivial

theorem abides_deref (supplied : s.Supplied) (h : s.Accords (σ.Unfilled low) X) (bears : σ.Bears (Value.Serves .plain))
    {k : Nat} (small : k ≤ maxOperand) (allows : X.Allows (.genuine refs) s.chunk.constants ⟨.deref, k, small⟩) :
    (s.turn σ ⟨.deref, k, small⟩).Abides low σ (Orderly X.bare) := by
  obtain ⟨suits, plain⟩ := allows
  have others := h.plain_drop (n := 1) fun j one => Nat.sub_add_cancel one ▸ plain (j - 1)
  unfold turn
  cases stack : s.stack with
  | nil => exact trivial
  | cons v rest =>
    have top : s.stack[0]? = some v := stack ▸ rfl
    obtain ⟨id, rfl⟩ := ((h.tops top).serves suits).of_reference
    show ((s.past _).giveResult σ (σ.deref id)).Abides low σ _
    have value := bears.deref id
    cases found : σ.deref id with
    | ok w =>
      rw [found] at value
      exact ⟨⟨⟨supplied.args, supplied.saved⟩, h.bare rfl (List.forall_mem_cons.mpr ⟨value, others⟩)⟩, bears, .refl low σ⟩
    | error f =>
      rw [found] at value
      refine ⟨fun same => value same, fun _ => ?_⟩
      unfold Store.deref at found
      split at found
      · cases found
      · exact (Except.error.inj found).symm

theorem abides_bindRef (supplied : s.Supplied) (h : s.Accords (σ.Unfilled low) X) (bears : σ.Bears (Value.Serves .plain))
    {k : Nat} (small : k ≤ maxOperand) (allows : X.Allows (.genuine refs) s.chunk.constants ⟨.bindRef, k, small⟩) :
    (s.turn σ ⟨.bindRef, k, small⟩).Abides low σ (Orderly (X.after (.genuine refs) s.chunk.constants ⟨.bindRef, k, small⟩)) := by
  obtain ⟨⟨slot, own, pending⟩, plain⟩ := allows
  have others := h.plain_drop (n := 1) fun j one => Nat.sub_add_cancel one ▸ plain (j - 1)
  have next : X.after (.genuine refs) s.chunk.constants ⟨.bindRef, k, small⟩ = X.put slot .reference := by
    unfold Whereabouts.after
    dsimp only
    rw [own]
  rw [next]
  unfold turn
  rcases stack : s.stack with _ | ⟨v, _ | ⟨w, rest⟩⟩
  · exact trivial
  · exact trivial
  · have top : s.stack[0]? = some v := stack ▸ rfl
    have holds := h.tops top
    rw [own] at holds
    obtain ⟨serves, there⟩ := holds
    obtain ⟨id, rfl⟩ := serves.of_reference
    rw [stack] at others
    obtain ⟨value, rest⟩ := List.forall_mem_cons.mp others
    obtain ⟨τ, filled, onward, kept⟩ := Store.fillRef_of_unfilled (h.mine (p := .slot slot) pending there) w
    have bears := bears.fillRef id value
    show ((s.past _).keep (σ.fillRef id w)).Abides low σ _
    rw [filled] at bears ⊢
    refine ⟨⟨⟨supplied.args, supplied.saved⟩, .imp (h.fill pending there rfl fun v member => ?_) kept⟩, bears, onward⟩
    have member : v ∈ s.stack.drop 2 := member
    rw [stack] at member
    exact rest v member

theorem abides_makeClosure (supplied : s.Supplied) (h : s.Accords (σ.Unfilled low) X) (bears : σ.Bears (Value.Serves .plain))
    {k : Nat} (small : k ≤ maxOperand) (allows : X.Allows (.genuine refs) s.chunk.constants ⟨.makeClosure, k, small⟩) :
    (s.turn σ ⟨.makeClosure, k, small⟩).Abides low σ (Orderly X.bare) := by
  obtain ⟨ready, plain⟩ := allows
  have pops : (⟨.makeClosure, k, small⟩ : Instruction).pops = k + 1 := Nat.add_comm 1 k
  have others := h.plain_drop (n := k + 1) fun j more => by
    obtain ⟨l, rfl⟩ := Nat.exists_eq_add_of_le more
    have free := plain (k + l) (Nat.le_add_right k l)
    rwa [Nat.add_right_comm] at free
  unfold turn past
  rw [pops]
  cases stack : s.stack with
  | nil => exact trivial
  | cons v rest =>
    have top : s.stack[0]? = some v := stack ▸ rfl
    obtain ⟨needs, serves, beneath⟩ := h.ready top ready
    obtain ⟨p, rfl, -⟩ := serves.of_template
    rw [stack] at beneath others
    have made : (Value.closure p (rest.take k)).Serves .plain := .closure serves fun {j w} there => by
      rw [List.getElem?_take] at there
      split at there
      · refine beneath (k := j) ?_
        rwa [Nat.zero_add, Nat.add_comm, List.getElem?_cons_succ]
      · cases there
    exact ⟨⟨⟨supplied.args, supplied.saved⟩, h.bare rfl (List.forall_mem_cons.mpr ⟨made, others⟩)⟩, bears, .refl low σ⟩

theorem abides_ordinary (supplied : s.Supplied) (h : s.Accords (σ.Unfilled low) X)
    (bears : σ.Bears (Value.Serves .plain)) (bare : X.Bare) (op : i.op.conveys = false) :
    (s.turn σ i).Abides low σ (Orderly X.bare) := by
  have conveying {other : Opcode} (conveys : other.conveys = true) : i.op ≠ other := by
    rintro rfl
    rw [op] at conveys
    cases conveys
  have stack : ∀ v ∈ s.stack, v.Serves .plain := h.plain_drop (n := 0) fun j _ => bare j
  have hands : (s.turn σ i).Hands (Value.Serves .plain) (s.past i) := by
    have past : (s.past i).Hands (Value.Serves .plain) :=
      ⟨supplied.args, supplied.saved, fun v member => stack v (List.mem_of_mem_drop member)⟩
    refine act_hands Value.hereditary_plain past bears ?_ ?_ ?_ ?_ ?_
    · exact fun v member => stack v (List.mem_of_mem_take member)
    · rintro v (⟨const, -⟩ | ⟨capture, -⟩ | ⟨load, -⟩)
      · exact absurd const (conveying rfl)
      · exact absurd capture (conveying rfl)
      · exact absurd load (conveying rfl)
    · exact fun new => absurd new (conveying rfl)
    · exact fun current => absurd current (conveying rfl)
    · exact fun _ _ makes => absurd makes (conveying rfl)
  have spares : (s.turn σ i).Spares σ := by
    refine act_spares ?_ _
    simp only [List.mem_cons, List.not_mem_nil, or_false, not_or]
    exact ⟨conveying rfl, conveying rfl, conveying rfl⟩
  cases turned : s.turn σ i with
  | go t τ =>
    rw [turned] at hands spares
    obtain ⟨own, -, bears⟩ := hands
    have locals : t.locals = s.locals :=
      (turn_continues turned).locals.resolve_right fun new => conveying rfl new.1
    have slots : t.slot? = s.slot? := funext fun k => congrArg (fun ls : List (Option Value) => ls[k]?.join) locals
    have refs : τ.refs = σ.refs := spares
    refine ⟨⟨⟨own.args, own.saved⟩, (h.bare slots own.stack).imp fun id free => ⟨free.1, ?_⟩⟩, bears, .of_refs refs⟩
    rw [refs]
    exact free.2
  | call callee args t =>
    have heeds := act_heeds σ (s.past i) i (s.stack.take i.pops)
    change (s.turn σ i).Heeds (s.past i) i at heeds
    rw [turned] at hands heeds
    obtain ⟨rfl, -⟩ := heeds
    refine ⟨hands.1, hands.2.1, fun v value => ⟨⟨supplied.args, supplied.saved⟩, h.bare rfl ?_⟩⟩
    exact List.forall_mem_cons.mpr ⟨value, fun w member => stack w (List.mem_of_mem_drop member)⟩
  | answer v | leave callee args =>
    rw [turned] at hands
    exact hands
  | fault f =>
    rw [turned] at hands spares
    refine ⟨fun same => hands same, fun concerns => ?_⟩
    cases concerns.symm.trans spares
  | breach b | stray => exact trivial

/-- A turn that is allowed abides by what is known after it. -/
theorem turn_abides (supplied : s.Supplied) (guided : s.Guided refs D) (h : s.Accords (σ.Unfilled low) X)
    (bears : σ.Bears (Value.Serves .plain)) (le : low ≤ σ.refs.size)
    (allows : X.Allows (.genuine refs) s.chunk.constants i) :
    (s.turn σ i).Abides low σ (Orderly (X.after (.genuine refs) s.chunk.constants i)) := by
  cases op : i.op.conveys with
  | false =>
    rw [after_of_ordinary op]
    exact abides_ordinary supplied h bears ((allows_of_ordinary op).mp allows) op
  | true =>
    rcases Opcode.gives_or_takes op with gives | takes
    · exact abides_giving supplied guided h bears le allows gives
    · obtain ⟨op', k, small⟩ := i
      simp only [List.mem_cons, List.not_mem_nil, or_false] at takes
      rcases takes with rfl | rfl | rfl | rfl
      · exact abides_store supplied h bears small allows
      · exact abides_bindRef supplied h bears small allows
      · exact abides_deref supplied h bears small allows
      · exact abides_makeClosure supplied h bears small allows

theorem Orderly.le (h : s.Orderly X mine) (le : X ≤ Y) : s.Orderly Y mine :=
  ⟨h.toSupplied, h.accords.le le⟩

theorem Steady.imp (h : s.Steady mine) (wider : ∀ id, mine id → other id) : s.Steady other := by
  obtain ⟨refs, D, X, guided, at_pc, orderly⟩ := h
  exact ⟨refs, D, X, guided, at_pc, orderly.toSupplied, orderly.accords.imp wider⟩

theorem Steady.allows (h : s.Steady mine) (here : s.chunk.code[s.pc]? = some i) :
    ∃ refs X, X.Allows (.genuine refs) s.chunk.constants i ∧ s.Orderly X mine := by
  obtain ⟨refs, D, X, guided, at_pc, orderly⟩ := h
  obtain ⟨j, again, allows⟩ := guided.charted.allows at_pc
  obtain rfl := Option.some.inj (here.symm.trans again)
  exact ⟨refs, X, allows, orderly⟩

theorem steady_enter {p : Procedure Value} {captured args : List Value}
    (called : (Value.closure p captured).Serves .plain) (values : ∀ v ∈ args, v.Serves .plain) :
    (enter p.chunk ⟨p, captured⟩ args).Steady mine := by
  obtain ⟨refs, template, each⟩ := called.of_closure
  obtain ⟨_, same, -, ⟨D, charted, start⟩, constants⟩ := template.of_template
  obtain rfl := Value.procedure.inj same
  obtain ⟨X, at_start, le⟩ := some_of_known start
  have unset {k : Nat} {v : Value} : (enter p.chunk ⟨p, captured⟩ args).slot? k ≠ some v := by
    unfold enter slot?
    rw [List.getElem?_replicate]
    split <;> nofun
  have accords : (enter p.chunk ⟨p, captured⟩ args).Accords mine {} :=
    accords_plain (fun _ => nofun) (fun there => absurd there unset) nofun nofun
  exact ⟨refs, D, X, ⟨called, constants, each, charted⟩, at_start, ⟨values, fun _ => nofun⟩, accords.le le⟩

/-- A turn of a steady scene leaves it steady. -/
theorem Steady.turn (h : s.Steady (σ.Unfilled low)) (bears : σ.Bears (Value.Serves .plain)) (le : low ≤ σ.refs.size)
    (here : s.chunk.code[s.pc]? = some i) : (s.turn σ i).Abides low σ Steady := by
  obtain ⟨refs, D, X, guided, at_pc, orderly⟩ := h
  obtain ⟨j, again, allows⟩ := guided.charted.allows at_pc
  obtain rfl := Option.some.inj (here.symm.trans again)
  have abides := turn_abides orderly.toSupplied guided orderly.accords bears le allows
  cases turned : s.turn σ i with
  | go t τ =>
    rw [turned] at abides
    obtain ⟨after, bears, onward⟩ := abides
    have continues := turn_continues turned
    have guided' : t.Guided refs D := guided.congr continues.chunk continues.closure
    rcases continues.control with ⟨stays, pc⟩ | ⟨jumps, found⟩
    · obtain ⟨Y, there, le⟩ := guided.charted.after at_pc here stays
      exact ⟨⟨refs, D, Y, guided', pc ▸ there, after.le le⟩, bears, onward⟩
    · obtain ⟨target, again, le⟩ := guided.charted.target at_pc here jumps
      obtain rfl := Option.some.inj (again.symm.trans found)
      obtain ⟨Y, there, le⟩ := some_of_known le
      have ordinary := Opcode.ordinary_of_jumps jumps
      rw [after_of_ordinary ordinary, ((allows_of_ordinary ordinary).mp allows).bare] at after
      exact ⟨⟨refs, D, Y, guided', there, after.le le⟩, bears, onward⟩
  | call callee args t =>
    have heeds := act_heeds σ (s.past i) i (s.stack.take i.pops)
    change (s.turn σ i).Heeds (s.past i) i at heeds
    rw [turned] at abides heeds
    obtain ⟨rfl, -, stays⟩ := heeds
    obtain ⟨Y, there, le⟩ := guided.charted.after at_pc here stays
    exact ⟨abides.1, abides.2.1, fun v value =>
      ⟨refs, D, Y, guided.congr rfl rfl, there, (abides.2.2 v value).le le⟩⟩
  | answer v | leave callee args | fault f =>
    rw [turned] at abides
    exact abides
  | breach b | stray => exact trivial

end Scene

end StackLisp
