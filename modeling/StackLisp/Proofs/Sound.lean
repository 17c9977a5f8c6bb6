import StackLisp.Proofs.Upholding

/-!
Plays of safe values in a store that has a library for them. Every scene runs on its chart and no play
comes to a breach.
-/

namespace StackLisp

/-- A scene of safe values on the chart of its procedure. -/
structure Scene.Sound (known : Procedure Value → Prop) (s : Scene) : Prop where
  bears : s.Bears (Value.Safe known)
  own : s.closure.value.Safe known
  chunk : s.chunk = s.closure.procedure.chunk
  upheld : ∃ D X, Outlook.view.Charted s.chunk.constants s.chunk.code D ∧ D s.pc = some X ∧ s.Upholds X

variable {known : Procedure Value → Prop}

/-- Where a sound scene comes to, it is sound again, also with the value that it waits for. -/
def Turn.Sound (known : Procedure Value → Prop) (σ : Store) : Turn → Prop
  | .go t τ => t.Sound known ∧ τ.Bears (Value.Safe known) ∧ τ.built = σ.built
  | .answer v => v.Safe known
  | .call callee args t =>
    callee.Safe known ∧ (∀ v ∈ args, v.Safe known) ∧ ∀ v, v.Safe known → (t.push v).Sound known
  | .leave callee args => callee.Safe known ∧ ∀ v ∈ args, v.Safe known
  | .fault f => f.Bears (Value.Safe known)
  | .breach _ => False
  | .stray => True

namespace Scene

variable {s t : Scene} {σ : Store} {i : Instruction}

theorem sound_enter (library : Library known) {p : Procedure Value} {captured args : List Value}
    (called : (Value.closure p captured).Safe known) (values : ∀ v ∈ args, v.Safe known)
    (accepted : p.arity.accepts args.length) : (enter p.chunk ⟨p, captured⟩ args).Sound known where
  bears := by
    refine ⟨library.constants called.of_closure.1, called.of_closure.2.2, values, nofun, nofun, fun v member => ?_⟩
    cases (List.mem_replicate.mp member).2
  own := called
  chunk := rfl
  upheld := by
    obtain ⟨least, mapped, accepts⟩ := (library.safe called.of_closure.1).mapped
    obtain ⟨D, charted, start⟩ := mapped.chart
    obtain ⟨X, at_start, le⟩ := some_of_known start
    have upheld : (enter p.chunk ⟨p, captured⟩ args).Upholds (Chunk.Start least) :=
      ⟨.nil, accepts _ accepted, .nil⟩
    exact ⟨D, X, charted, at_start, upheld.mono le⟩

theorem Sound.made (h : s.Sound known) {X : Outlook} (upheld : s.Upholds X) (allows : X.Allows i)
    {p : Procedure Value} {captured : List Value} (makes : i.op = .makeClosure)
    (taken : s.stack.take i.pops = .procedure p :: captured) : (Value.closure p captured).Safe known := by
  have pops : i.pops = 1 + i.operand := by simp [Instruction.pops, makes, Opcode.effect]
  have length : captured.length = i.operand := by
    have whole := List.length_take_of_le (upheld.stack.length_eq ▸ allows.pops)
    rw [taken, pops, List.length_cons] at whole
    omega
  have code : ∃ code, p.code = code ∧ ∀ j ∈ code, j.op = .capture → j.operand < i.operand := by
    obtain ⟨code, rest, stack, captures⟩ := allows.template makes
    obtain ⟨v, values, ⟨q, template, same⟩, -, stack⟩ := List.forall₂_cons_left_iff.mp (stack ▸ upheld.stack)
    rw [stack, pops, Nat.add_comm, List.take_succ_cons, template] at taken
    cases taken
    exact ⟨code, same, captures⟩
  obtain ⟨_, rfl, captures⟩ := code
  obtain ⟨first, others⟩ := List.forall_mem_cons.mp fun v member =>
    h.bears.stack v (List.mem_of_mem_take (taken ▸ member))
  exact .closure first.of_procedure (length ▸ captures) others

theorem Sound.serves (library : Library known) (h : s.Sound known) {X : Outlook} (upheld : s.Upholds X)
    (allows : X.Allows i) (here : s.chunk.code[s.pc]? = some i) : (s.past i).Serves i := by
  obtain ⟨body, whole, -⟩ := h.own.of_closure
  obtain ⟨least, mapped, -⟩ := (library.safe body).mapped
  have member : i ∈ s.closure.procedure.chunk.code := h.chunk ▸ List.mem_of_getElem? here
  exact upheld.serves allows (h.chunk ▸ mapped.fits i member) (whole i member)

/-- A turn of a sound scene is no breach and leaves it sound. -/
theorem Sound.turn (library : Library known) (h : s.Sound known) (store : σ.Bears (Value.Safe known))
    (here : s.chunk.code[s.pc]? = some i) : (s.turn σ i).Sound known σ := by
  obtain ⟨D, X, charted, at_pc, upheld⟩ := h.upheld
  obtain ⟨j, again, allows⟩ := charted.allows at_pc
  obtain rfl := Option.some.inj (here.symm.trans again)
  have serves := h.serves library upheld allows here
  have bears := turn_bears Value.hereditary_safe h.bears store (fun _ _ => .scalar rfl) (fun _ => h.own) fun _ _ makes taken =>
    h.made upheld allows makes taken
  have tame := turn_tame (σ := σ) serves
  have pops : i.pops ≤ s.stack.length := upheld.stack.length_eq ▸ allows.pops
  cases turned : s.turn σ i with
  | go t τ =>
    rw [turned] at bears tame
    have continues := turn_continues turned
    have chunk : t.chunk = s.chunk := continues.chunk
    have closure : t.closure = s.closure := continues.closure
    obtain ⟨Y, there, upheld⟩ := upheld.onward charted at_pc here serves pops turned
    refine ⟨⟨bears.1, closure ▸ h.own, ?_, ⟨D, Y, chunk ▸ charted, there, upheld⟩⟩, bears.2, tame.1⟩
    rw [chunk, closure]
    exact h.chunk
  | call callee args t =>
    rw [turned] at bears
    have heeds := act_heeds σ (s.past i) i (s.stack.take i.pops)
    change (s.turn σ i).Heeds (s.past i) i at heeds
    rw [turned] at heeds
    obtain ⟨rfl, -, stays⟩ := heeds
    obtain ⟨Y, there, le⟩ := charted.after at_pc here stays
    refine ⟨bears.1, bears.2.1, fun v value => ⟨bears.2.2.push value, h.own, h.chunk, D, Y, charted, there, ?_⟩⟩
    exact (upheld.call serves turned v).mono le
  | answer v =>
    rw [turned] at bears
    exact bears
  | leave callee args =>
    rw [turned] at bears
    exact bears
  | fault f =>
    rw [turned] at bears
    exact fun _ same => bears same
  | breach b =>
    rw [turned] at tame
    exact tame
  | stray => exact trivial

end Scene

/-- Safe values, sound scenes and no breach. -/
def Doing.Sound (known : Procedure Value → Prop) : Doing → Prop
  | .running s => s.Sound known
  | .calling callee args => callee.Safe known ∧ ∀ v ∈ args, v.Safe known
  | .returning v => v.Safe known
  | .unwinding f => f.Bears (Value.Safe known)
  | .breaching _ => False
  | .straying => True

def Waiting.Sound (known : Procedure Value → Prop) : Waiting → Prop
  | .resume s => ∀ v, v.Safe known → (s.push v).Sound known
  | .guard handler => handler.Safe known

/-- What a handler is given for a fault is safe. -/
theorem Fault.Bears.payload {f : Fault} (h : f.Bears (Value.Safe known)) : f.payload.Safe known := by
  cases f with
  | raised v => exact h rfl
  | _ => exact .scalar rfl

theorem brings_check {S : Value → Prop} (a : Arity) (n : Nat) : Brings S (fun _ => True) (a.check n) := by
  unfold Arity.check
  split
  · exact trivial
  · exact nofun

namespace Play

structure Sound (known : Procedure Value → Prop) (p : Play) : Prop where
  store : p.store.Keeps known
  doing : p.doing.Sound known
  waiting : ∀ w ∈ p.waiting, w.Sound known

variable {σ : Store} {waiting : List Waiting}

theorem Sound.follow (store : σ.Keeps known) (waits : ∀ w ∈ waiting, w.Sound known) {t : Turn}
    (sound : t.Sound known σ) : (Play.follow σ waiting t).Sound known := by
  cases t with
  | go s τ =>
    obtain ⟨scene, bears, built⟩ := sound
    exact ⟨⟨store.library, fun body => built ▸ store.numbered body, bears⟩, scene, waits⟩
  | answer v => exact ⟨store, sound, waits⟩
  | call callee args s =>
    exact ⟨store, ⟨sound.1, sound.2.1⟩, List.forall_mem_cons.mpr ⟨sound.2.2, waits⟩⟩
  | leave callee args => exact ⟨store, sound, waits⟩
  | fault f => exact ⟨store, sound, waits⟩
  | breach b => exact sound.elim
  | stray => exact ⟨store, trivial, waits⟩

theorem Sound.reply (store : σ.Keeps known) (waits : ∀ w ∈ waiting, w.Sound known) {r : Reply}
    (bears : r.Bears (Value.Safe known)) : (Play.reply σ waiting r).Sound known := by
  cases r with
  | answer v => exact ⟨store, bears, waits⟩
  | fault f => exact ⟨store, bears, waits⟩
  | call callee args => exact ⟨store, bears, waits⟩
  | guarded thunk handler => exact ⟨store, ⟨bears.1, nofun⟩, List.forall_mem_cons.mpr ⟨bears.2, waits⟩⟩
  | noted line v => exact ⟨store, bears, waits⟩

theorem Sound.call (store : σ.Keeps known) (waits : ∀ w ∈ waiting, w.Sound known) {callee : Value}
    {args : List Value} (called : callee.Safe known) (values : ∀ v ∈ args, v.Safe known) :
    (Play.call .plain σ waiting callee args).Sound known := by
  unfold Play.call
  split
  next f refused =>
    have brings := (brings_callable (S := Value.Safe known) callee).bind fun a _ => brings_check a args.length
    change Brings _ _ (callee.callable?.bind (·.check args.length)) at brings
    rw [refused] at brings
    exact ⟨store, brings, waits⟩
  next accepted =>
    cases callee with
    | closure p captured =>
      exact ⟨store, Scene.sound_enter store.library called values (Arity.accepts_of_check accepted), waits⟩
    | builtin b => exact .reply store waits (Value.hereditary_safe.reply b values)
    | _ => exact ⟨store, nofun, waits⟩

/-- A sound play stays sound. -/
theorem Sound.step {p : Play} (h : p.Sound known) : (Play.step .plain p).Sound known := by
  obtain ⟨σ, doing, waiting⟩ := p
  obtain ⟨store, does, waits⟩ := h
  cases doing with
  | running s =>
    change (Play.run .plain σ waiting s).Sound known
    unfold Play.run
    split
    next i here => exact .follow store waits (does.turn store.library store.bears here)
    next => exact ⟨store, trivial, waits⟩
  | calling callee args => exact .call store waits does.1 does.2
  | returning v =>
    cases waiting with
    | nil => exact ⟨store, does, waits⟩
    | cons w waiting =>
      obtain ⟨first, rest⟩ := List.forall_mem_cons.mp waits
      cases w with
      | resume s => exact ⟨store, first v does, rest⟩
      | guard handler => exact ⟨store, does, rest⟩
  | unwinding f =>
    cases waiting with
    | nil => exact ⟨store, does, waits⟩
    | cons w waiting =>
      obtain ⟨first, rest⟩ := List.forall_mem_cons.mp waits
      cases w with
      | resume s => exact ⟨store, does, rest⟩
      | guard handler =>
        exact ⟨store, ⟨first, fun v member => List.mem_singleton.mp member ▸ does.payload⟩, rest⟩
  | breaching b => exact does.elim
  | straying => exact ⟨store, does, waits⟩

theorem Sound.iterate {p : Play} (h : p.Sound known) (n : Nat) : ((Play.step .plain)^[n] p).Sound known := by
  induction n generalizing p with
  | zero => exact h
  | succ n ih => exact ih h.step

end Play

end StackLisp
