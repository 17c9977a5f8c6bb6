import StackLisp.Proofs.Dispatch
import StackLisp.Proofs.Play

/-!
Code that loads no local slot before it has stored to it, on any path. A play of such code never strays:
it finds its operands, the values of its slots and the anchors of its labels.
-/

namespace StackLisp

/-- What has been stored to at each address, whatever the path there. -/
structure Chunk.Stores (c : Chunk) (stored : Nat → Nat → Prop) : Prop where
  start : ∀ {slot : Nat}, ¬ stored 0 slot
  next : ∀ {pc slot : Nat} {i : Instruction}, c.code[pc]? = some i → i.op.effect.exits = false →
    stored (pc + 1) slot → stored pc slot ∨ i.op = .store ∧ i.operand = slot
  target : ∀ {pc target slot : Nat} {i : Instruction}, c.code[pc]? = some i → i.op.jumps →
    Chunk.anchor? c.code i.operand = some target → stored target slot → stored pc slot
  loads : ∀ {pc : Nat} {i : Instruction}, c.code[pc]? = some i → i.op = .load → stored pc i.operand

/-- The code has passed the check, its slots are numbered below the count, and each is stored to before it
is loaded. -/
structure Chunk.Careful (c : Chunk) : Prop where
  accepted : ∃ checked, c.verify = .ok checked
  bounded : ∀ {i : Instruction}, i ∈ c.code → i.op.effect.operand = .locals → i.operand < c.localCount
  stored : ∃ stored, c.Stores stored

/-- Code without local slots is careful if it is accepted. -/
theorem Chunk.careful_of_no_slots {c : Chunk} {checked : Checked} (accepted : c.verify = .ok checked)
    (plain : ∀ i ∈ c.code, i.op.effect.operand ≠ .locals) : c.Careful where
  accepted := ⟨checked, accepted⟩
  bounded member operand := absurd operand (plain _ member)
  stored := by
    refine ⟨fun _ _ => False, nofun, nofun, nofun, fun here loads => ?_⟩
    exact plain _ (List.mem_of_getElem? here) (by rw [loads]; rfl)

/-- A scene in careful code that lacks some operands, which it waits for. -/
structure Scene.Sure (s : Scene) (awaited : Nat) : Prop where
  bounded : ∀ {i : Instruction}, i ∈ s.chunk.code → i.op = .store → i.operand < s.locals.length
  depth : ∀ {checked : Checked}, s.chunk.verify = .ok checked →
    checked.depths[s.pc]? = some (some (s.stack.length + awaited))
  slots : ∃ stored, s.chunk.Stores stored ∧ ∀ slot, stored s.pc slot → ∃ v, s.slot? slot = some v
  accepted : ∃ checked, s.chunk.verify = .ok checked

/-- Where a sure scene comes to, it is sure again. -/
def Turn.Sure : Turn → Prop
  | .go s _ => s.Sure 0
  | .call _ _ s => s.Sure 1
  | .stray => False
  | _ => True

namespace Scene

variable {s t : Scene} {σ τ : Store} {i : Instruction}

theorem sure_enter {c : Chunk} (careful : c.Careful) (f : Closure) (args : List Value) :
    (enter c f args).Sure 0 where
  bounded member stores := by
    show _ < (List.replicate c.localCount none).length
    rw [List.length_replicate]
    exact careful.bounded member (by rw [stores]; rfl)
  depth accepted := (Chunk.verify_covers accepted).start
  slots := by
    obtain ⟨stored, stores⟩ := careful.stored
    exact ⟨stored, stores, fun slot there => absurd there stores.start⟩
  accepted := careful.accepted

theorem Sure.push (h : s.Sure 1) (v : Value) : (s.push v).Sure 0 :=
  { h with }

theorem Sure.stands (h : s.Sure 0) : ∃ i, s.chunk.code[s.pc]? = some i ∧ i.pops ≤ s.stack.length := by
  obtain ⟨checked, accepted⟩ := h.accepted
  obtain ⟨i, here, pops, -⟩ := (Chunk.verify_covers accepted).supports (h.depth accepted)
  exact ⟨i, here, pops⟩

theorem Sure.onward (h : s.Sure 0) (here : s.chunk.code[s.pc]? = some i)
    {checked : Checked} (accepted : s.chunk.verify = .ok checked) {given : List Value} {awaited pc : Nat}
    (pushed : given.length + awaited = i.pushes)
    (control : (i.op.effect.exits = false ∧ pc = s.pc + 1) ∨
      (i.op.jumps ∧ Chunk.anchor? s.chunk.code i.operand = some pc)) :
    checked.depths[pc]? = some (some ((given ++ (s.past i).stack).length + awaited)) := by
  have covers := Chunk.verify_covers accepted
  have depth : (given ++ (s.past i).stack).length + awaited = i.depthAfter s.stack.length := by
    show (given ++ s.stack.drop i.pops).length + awaited = s.stack.length - i.pops + i.pushes
    rw [List.length_append, List.length_drop]
    omega
  rw [depth]
  rcases control with ⟨stays, rfl⟩ | ⟨jumps, goal⟩
  · exact covers.next (h.depth accepted) here stays
  · exact covers.target (h.depth accepted) here jumps goal

theorem turn_store (stores : i.op = .store) (turned : s.turn σ i = .go t τ) :
    i.operand < s.locals.length ∧ ∃ v, t.locals = s.locals.set i.operand (some v) := by
  obtain ⟨op, operand, small⟩ := i
  obtain rfl : op = .store := stores
  change Turn.withOne ((s.past _).put σ operand) (s.stack.take 1) = _ at turned
  cases stack : s.stack with
  | nil =>
    rw [stack] at turned
    cases turned
  | cons v rest =>
    rw [stack] at turned
    change (s.past _).put σ operand v = _ at turned
    unfold put at turned
    split at turned
    next inside =>
      obtain ⟨rfl, rfl⟩ := Turn.go.inj turned
      exact ⟨inside, v, rfl⟩
    next => cases turned

theorem Sure.filled (here : s.chunk.code[s.pc]? = some i) (turned : s.turn σ i = .go t τ)
    {stored : Nat → Nat → Prop} (stores : s.chunk.Stores stored)
    (filled : ∀ slot, stored s.pc slot → ∃ v, s.slot? slot = some v) {slot : Nat}
    (there : stored t.pc slot) : ∃ v, t.slot? slot = some v := by
  have continues : (s.past i).Continues i t := by
    have heeds := act_heeds σ (s.past i) i (s.stack.take i.pops)
    change (s.turn σ i).Heeds (s.past i) i at heeds
    rw [turned] at heeds
    exact heeds
  have before : stored s.pc slot ∨ i.op = .store ∧ i.operand = slot := by
    rcases continues.control with ⟨stays, next⟩ | ⟨jumps, goal⟩
    · rw [next] at there
      exact stores.next here stays there
    · exact .inl (stores.target here jumps goal there)
  by_cases op : i.op = .store
  · obtain ⟨inside, v, set⟩ := turn_store op turned
    have slots : t.slot? slot = if slot = i.operand then some v else s.slot? slot := by
      rw [← slot?_set inside]
      exact congrArg (fun ls : List (Option Value) => ls[slot]?.join) set
    by_cases same : slot = i.operand
    · exact ⟨v, by rw [slots, if_pos same]⟩
    · rw [slots, if_neg same]
      exact filled slot (before.resolve_right fun new => same new.2.symm)
  · have kept : t.locals = s.locals := continues.locals.resolve_right fun new => op new.1
    have slots : t.slot? slot = s.slot? slot :=
      congrArg (fun ls : List (Option Value) => ls[slot]?.join) kept
    rw [slots]
    exact filled slot (before.resolve_right fun new => op new.1)

theorem Sure.turn (h : s.Sure 0) (σ : Store) (here : s.chunk.code[s.pc]? = some i) :
    (s.turn σ i).Sure := by
  obtain ⟨checked, accepted⟩ := h.accepted
  have covers := Chunk.verify_covers accepted
  obtain ⟨j, there, pops⟩ := h.stands
  obtain rfl := Option.some.inj (here.symm.trans there)
  have heeds := act_heeds σ (s.past i) i (s.stack.take i.pops)
  change (s.turn σ i).Heeds (s.past i) i at heeds
  obtain ⟨stored, stores, filled⟩ := h.slots
  cases turned : s.turn σ i with
  | go t τ =>
    rw [turned] at heeds
    have chunk : t.chunk = s.chunk := heeds.chunk
    obtain ⟨given, stack, pushed⟩ := heeds.stack
    refine ⟨?_, fun {checked} accepted => ?_, ⟨stored, ?_, fun slot there => ?_⟩, ?_⟩
    · rw [chunk, heeds.slots]
      exact h.bounded
    · rw [chunk] at accepted
      rw [stack]
      exact h.onward here accepted pushed heeds.control
    · exact chunk ▸ stores
    · exact Sure.filled here turned stores filled there
    · exact chunk ▸ h.accepted
  | call callee args t =>
    rw [turned] at heeds
    obtain ⟨rfl, one, stays⟩ := heeds
    refine ⟨h.bounded, fun {checked} accepted => ?_, ⟨stored, stores, fun slot there => ?_⟩, h.accepted⟩
    · have pushed : ([] : List Value).length + 1 = i.pushes := one.symm
      exact h.onward here accepted pushed (.inl ⟨stays, rfl⟩)
    · rcases stores.next here stays there with old | ⟨op, -⟩
      · exact filled slot old
      · rw [Instruction.pushes, op] at one
        cases one
  | stray =>
    have member := List.mem_of_getElem? here
    rcases act_stray (s := s.past i) (List.length_take_of_le pops)
      (fun jumps => (covers.anchored member jumps).imp fun _ => And.left) turned with ⟨loads, unset⟩ | ⟨op, outside⟩
    · obtain ⟨v, there⟩ := filled _ (stores.loads here loads)
      exact unset v (Option.join_eq_some_iff.mp there)
    · exact Nat.not_le.mpr (h.bounded member op) outside
  | _ => trivial

end Scene

variable {known : Procedure Value → Prop}

/-- Known values only, and scenes that are sure. -/
def Doing.Safe (known : Procedure Value → Prop) : Doing → Prop
  | .running s => s.Sure 0 ∧ s.Within known
  | .calling callee args => callee.Within known ∧ ∀ v ∈ args, v.Within known
  | .returning v => v.Within known
  | .unwinding f => f.Within known
  | .breaching _ => True
  | .straying => False

def Waiting.Safe (known : Procedure Value → Prop) : Waiting → Prop
  | .resume s => s.Sure 1 ∧ s.Within known
  | .guard handler => handler.Within known

/-- Procedures whose chunks are careful and have nothing but such procedures inside. -/
structure Prudent (known : Procedure Value → Prop) : Prop where
  careful : ∀ {p : Procedure Value}, known p → p.chunk.Careful
  constants : ∀ {p : Procedure Value}, known p → ∀ v ∈ p.constants, v.Within known

namespace Play

structure Safe (known : Procedure Value → Prop) (p : Play) : Prop where
  store : p.store.Within known
  doing : p.doing.Safe known
  waiting : ∀ w ∈ p.waiting, w.Safe known

variable {σ : Store} {waiting : List Waiting}

theorem Safe.follow (store : σ.Within known) (waits : ∀ w ∈ waiting, w.Safe known) {t : Turn}
    (within : t.Within known) (sure : t.Sure) : (Play.follow σ waiting t).Safe known := by
  cases t with
  | go s τ => exact ⟨within.2, ⟨sure, within.1⟩, waits⟩
  | answer v => exact ⟨store, within, waits⟩
  | call callee args s =>
    exact ⟨store, ⟨within.1, within.2.1⟩, List.forall_mem_cons.mpr ⟨⟨sure, within.2.2⟩, waits⟩⟩
  | leave callee args => exact ⟨store, within, waits⟩
  | fault f => exact ⟨store, within, waits⟩
  | breach b => exact ⟨store, trivial, waits⟩
  | stray => exact sure.elim

theorem Safe.reply (store : σ.Within known) (waits : ∀ w ∈ waiting, w.Safe known) {r : Reply}
    (twins : r.Matches (Twins known) r) : (Play.reply σ waiting r).Safe known := by
  cases r with
  | answer v =>
    cases twins with
    | answer value => exact ⟨store, value, waits⟩
  | fault f =>
    cases twins with
    | fault fault => exact ⟨store, fault, waits⟩
  | call callee args =>
    cases twins with
    | call called values => exact ⟨store, ⟨called, within_of_twins values⟩, waits⟩
  | guarded thunk handler =>
    cases twins with
    | guarded called handles =>
      exact ⟨store, ⟨called, nofun⟩, List.forall_mem_cons.mpr ⟨handles, waits⟩⟩
  | noted line v =>
    cases twins with
    | noted _ _ value => exact ⟨store, value, waits⟩

theorem Safe.call (prudent : Prudent known) (store : σ.Within known)
    (waits : ∀ w ∈ waiting, w.Safe known) {callee : Value} {args : List Value}
    (called : callee.Within known) (values : ∀ v ∈ args, v.Within known) :
    (Play.call .plain σ waiting callee args).Safe known := by
  unfold Play.call
  split
  next f refused =>
    have checked := Value.Matches.check Twins.alikeness called args.length
    rw [refused] at checked
    cases checked with
    | error fault => exact ⟨store, fault, waits⟩
  next =>
    cases callee with
    | closure p captured =>
      obtain ⟨inside, names⟩ := called.closure
      refine ⟨store, ⟨Scene.sure_enter (prudent.careful inside) _ _, ?_⟩, waits⟩
      refine ⟨inside, prudent.constants inside, names, values, nofun, nofun, fun v member => ?_⟩
      cases (List.mem_replicate.mp member).2
    | builtin b => exact .reply store waits (b.within_reply values)
    | _ => exact ⟨store, .plain nofun, waits⟩

/-- A safe play stays safe. -/
theorem Safe.step (prudent : Prudent known) {p : Play} (h : p.Safe known) : (Play.step .plain p).Safe known := by
  obtain ⟨σ, doing, waiting⟩ := p
  obtain ⟨store, does, waits⟩ := h
  cases doing with
  | running s =>
    obtain ⟨sure, within⟩ := does
    obtain ⟨i, here, -⟩ := sure.stands
    change (Play.run .plain σ waiting s).Safe known
    unfold Play.run
    rw [here]
    exact .follow store waits (Scene.turn_within within store i) (sure.turn σ here)
  | calling callee args => exact .call prudent store waits does.1 does.2
  | returning v =>
    cases waiting with
    | nil => exact ⟨store, does, waits⟩
    | cons w waiting =>
      obtain ⟨first, rest⟩ := List.forall_mem_cons.mp waits
      cases w with
      | resume s => exact ⟨store, ⟨first.1.push v, first.2.push does⟩, rest⟩
      | guard handler => exact ⟨store, does, rest⟩
  | unwinding f =>
    cases waiting with
    | nil => exact ⟨store, does, waits⟩
    | cons w waiting =>
      obtain ⟨first, rest⟩ := List.forall_mem_cons.mp waits
      cases w with
      | resume s => exact ⟨store, does, rest⟩
      | guard handler =>
        exact ⟨store, ⟨first, fun v member => List.mem_singleton.mp member ▸ does.payload⟩, rest⟩
  | breaching b =>
    cases waiting with
    | nil => exact ⟨store, does, waits⟩
    | cons w waiting => exact ⟨store, trivial, (List.forall_mem_cons.mp waits).2⟩
  | straying => exact does.elim

theorem Safe.iterate (prudent : Prudent known) {p : Play} (h : p.Safe known) (n : Nat) :
    ((Play.step .plain)^[n] p).Safe known := by
  induction n generalizing p with
  | zero => exact h
  | succ n ih => exact ih (h.step prudent)

theorem Safe.firm (prudent : Prudent known) {p : Play} (h : p.Safe known) (n : Nat) :
    ((Play.step .plain)^[n] p).doing ≠ .straying := by
  intro strays
  have safe := (h.iterate prudent n).doing
  rw [strays] at safe
  exact safe

end Play

end StackLisp
