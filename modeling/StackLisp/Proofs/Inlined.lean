import StackLisp.Proofs.Alike
import StackLisp.Proofs.Filling
import StackLisp.Proofs.Lodging
import StackLisp.Proofs.Windows

/-!
Runs of code that calls are inlined in. A body in the place of a call runs in a window of the scene that it is
inlined in, as it would in a scene of its own: on top of the operands there, in slots above those there, and on
arguments that are put aside once it is left. So the longer code ends as the code does. The constants of bodies
are pooled, and equality takes builtins of one name for one; this is how they could be told apart.
-/

namespace StackLisp

variable {known : Procedure Value → Prop} {genuine : Builtin → Prop}

theorem Value.Made.alike (distinct : Distinct known genuine) {v : Value} (h : v.Made known genuine) :
    v.Matches (StackLisp.Alike known) v :=
  matches_of_same distinct.names h h v.same_self

theorem Value.Made.of_closure {p : Procedure Value} {captured : List Value}
    (h : (Value.closure p captured).Made known genuine) : known p ∧ ∀ v ∈ captured, v.Made known genuine := by
  cases h with
  | closure body each => exact ⟨body, each⟩

/-- A closure that may stand in the place of a call: its code is careful, suits the call, puts no arguments aside
and does not mention the closure. -/
structure Closure.Guest (known : Procedure Value → Prop) (genuine : Builtin → Prop) (tail : Bool)
    (callee : Closure) : Prop where
  suits : callee.Suits (!tail)
  careful : callee.procedure.chunk.Careful
  made : callee.value.Made known genuine
  plain : ∀ i ∈ callee.procedure.code, i.op ∉ [.current, .pushArgs, .popArgs]

/-- Code that does not mention the closure it runs in, where each closure that can stand in the place of a call
is a guest. -/
structure Chunk.Inviting (known : Procedure Value → Prop) (genuine : Builtin → Prop) (c : Chunk) : Prop where
  careful : c.Careful
  mentions : ∀ i ∈ c.code, c.Mentions i
  current : ∀ i ∈ c.code, i.op ≠ .current
  made : ∀ v ∈ c.constants, v.Made known genuine
  guests : ∀ {i j : Instruction} {count : Nat} {tail : Bool} {callee : Closure}, [i, j] <:+: c.code → i.op = .const →
    c.constants[i.operand]? = some callee.value → callShape? j = some (count, tail) →
      refusal? c.globals callee.procedure count = none → callee.Guest known genuine tail

/-- Inviting code, and the same code with guests in the place of some calls. -/
structure Chunk.Grafted (known : Procedure Value → Prop) (genuine : Builtin → Prop) (c : Chunk)
    (longer : List Instruction) (d : Chunk) : Prop extends c.Inviting known genuine where
  inlines : Inlines (Closure.Guest known genuine) c c.code longer d

namespace Closure.Guest

theorem formed {tail : Bool} {callee : Closure} (h : callee.Guest known genuine tail) :
    callee.procedure.chunk.Formed :=
  h.careful.formed h.suits.body.mentions

theorem fetched (distinct : Distinct known genuine) {tail : Bool} {callee : Closure}
    (h : callee.Guest known genuine tail) {i : Instruction} {v : Value} (found : Chunk.constantFor? callee i = some v) :
    v.Made known genuine := by
  obtain ⟨body, captured⟩ := h.made.of_closure
  unfold Chunk.constantFor? at found
  split at found
  · exact captured v (List.mem_of_getElem? found)
  · exact distinct.constants body v (List.mem_of_getElem? found)
  · cases found

end Closure.Guest

namespace Chunk

variable {c d : Chunk} {longer : List Instruction}

namespace Grafted

theorem formed (h : c.Grafted known genuine longer d) : c.Formed :=
  h.careful.formed h.mentions

theorem distinct (h : c.Grafted known genuine longer d) : (labelsOf longer).Nodup :=
  ((h.inlines.renumbers fun guest => guest.suits.body.numbered).numbered h.formed.numbered).distinct

theorem pool (h : c.Grafted known genuine longer d) (distinct : Distinct known genuine) :
    ∀ v ∈ d.constants, v.Made known genuine :=
  h.inlines.keeps (fun guest => guest.fetched distinct) h.made

theorem start (h : c.Grafted known genuine longer d) :
    Alongside (Closure.Guest known genuine) c longer d 0 0 :=
  ⟨c, .refl c, h.inlines⟩

theorem result (h : c.Grafted known genuine longer d) : ({ d with code := longer } : Chunk).Careful :=
  (h.inlines.mono fun guest => ⟨guest.suits, guest.careful⟩).careful h.careful h.mentions

end Grafted

end Chunk

/-! ### Scenes beside each other -/

section

variable (known genuine) (c : Chunk) (longer : List Instruction) (d : Chunk)

/-- Scenes of one code or of codes that equality does not tell apart, at one address. -/
structure Scene.Twin (s t : Scene) : Prop where
  sure : s.Sure 0
  body : Alike known s.closure.procedure t.closure.procedure
  captured : List.Forall₂ (Value.Matches (Alike known)) s.closure.captured t.closure.captured
  code : s.chunk.code = t.chunk.code
  constants : List.Forall₂ (Value.Matches (Alike known)) s.chunk.constants t.chunk.constants
  pc : s.pc = t.pc
  lies : ∃ size, s.Lies (Alike known) ⟨0, size, [], []⟩ t ∧
    ∀ i ∈ s.chunk.code, i.op.effect.operand = .locals → i.operand < size

/-- A scene in the code and one in the longer code, at addresses beside each other. -/
structure Scene.Caller (awaited : Nat) (s t : Scene) : Prop where
  source : s.chunk = c
  target : t.chunk = { d with code := longer }
  sure : s.Sure awaited
  lies : s.Lies (Alike known) ⟨0, c.localCount, [], []⟩ t
  captured : List.Forall₂ (Value.Matches (Alike known)) s.closure.captured t.closure.captured
  along : Chunk.Alongside (Closure.Guest known genuine) c longer d s.pc t.pc
  room : t.locals.length = d.localCount

/-- A scene of a guest and one in the longer code, at addresses of the guest's body. -/
structure Scene.Body (s : Chunk.Site) (below : List Value) (aside : List (List Value)) (u t : Scene) : Prop where
  guest : u.closure.Guest known genuine s.tail
  source : u.chunk = u.closure.procedure.chunk
  target : t.chunk = { d with code := longer }
  sure : u.Sure 0
  lies : u.Lies (Alike known) ⟨s.localBase, u.closure.procedure.localCount, below, aside⟩ t
  bare : u.saved = []
  reached : Chunk.Reached u.closure.procedure.code u.pc
  lodged : ∃ after start, Chunk.Lodged longer d.constants s u.closure after 0 start ∧
    Chunk.Lodged longer d.constants s u.closure after u.pc t.pc
  room : t.locals.length = d.localCount

/-- What waits for a guest where its body is left: nothing in the place of a tail call, or else the scene of the
call, which goes on behind the body with its own operands and arguments. -/
inductive Scene.Rests (s : Chunk.Site) (below : List Value) (aside : List (List Value)) :
    List Scene → Scene → Prop
  | never {t : Scene} (whole : s.tail = true) : Rests s below aside [] t
  | left {v t : Scene} {last : Nat} {args : List Value} {saved : List (List Value)} (plain : s.tail = false)
    (above : c.localCount ≤ s.localBase) (put : aside = args :: saved) (leaves : Chunk.Leaves longer s.exit last)
    (caller : Caller known genuine c longer d 1 v { t with stack := below, args, saved, pc := last + 2 }) :
    Rests s below aside [v] t

/-- Scenes of the code and of the longer code beside each other. -/
inductive Scene.Beside : Scene → List Scene → Scene → Prop
  | twin {s t : Scene} (h : Twin known s t) : Beside s [] t
  | caller {s t : Scene} (h : Caller known genuine c longer d 0 s t) : Beside s [] t
  | body {s : Chunk.Site} {below : List Value} {aside : List (List Value)} {u t : Scene} {hosts : List Scene}
    (h : Body known genuine longer d s below aside u t) (rests : Rests known genuine c longer d s below aside hosts t) :
    Beside u hosts t

/-- Scenes that are beside each other once the second has left the body it is in. -/
def Scene.Stays (s : Scene) (hosts : List Scene) (t : Scene) : Prop :=
  ∃ u, t.Comes u ∧ Beside known genuine c longer d s hosts u

end

namespace Scene

variable {c d : Chunk} {longer : List Instruction} {s t : Scene} {σ τ : Store} {ws xs : List Waiting}

theorem keeping_twin (twin : s.Twin known t) (stores : σ.Matches (Alike known) τ)
    (waits : Queues (Alike known) (Stays known genuine c longer d) ws xs) :
    Play.Keeping (Alike known) (Stays known genuine c longer d) ⟨σ, .running s, Waiting.all [] ++ ws⟩
      ⟨τ, .running t, xs⟩ := by
  obtain ⟨i, here, -⟩ := twin.sure.stands
  obtain ⟨size, lies, bounded⟩ := twin.lies
  have member : i ∈ s.chunk.code := List.mem_of_getElem? here
  have there : t.chunk.code[t.pc]? = some i := by rw [← twin.code, ← twin.pc, here]
  have renders : s.Renders (Alike known) ⟨0, size, [], []⟩ t i i := {
    op := rfl
    operand := fun _ _ _ => rfl
    slot := fun locals => ⟨(Nat.zero_add _).symm, bounded i member locals⟩
    label := fun _ => by rw [twin.code]
    const := fun _ => rel_getElem? twin.constants _
    captured := fun _ => twin.captured
    current := fun _ => twin.body
    saved := fun _ => .inr rfl }
  refine Play.keeping_of_turns Alike.alikeness twin.sure lies stores waits here there renders (fun _ => rfl)
    (fun {u v} sure lies first second control => ⟨v, .refl v, .twin ?_⟩)
    fun sure lies _ {v x} value => ⟨_, .refl _, .twin ?_⟩
  · refine ⟨sure, ?_, ?_, ?_, ?_, ?_, size, lies, ?_⟩
    · rw [first.closure, second.closure]
      exact twin.body
    · rw [first.closure, second.closure]
      exact twin.captured
    · rw [first.chunk, second.chunk]
      exact twin.code
    · rw [first.chunk, second.chunk]
      exact twin.constants
    · rcases control with ⟨here, there⟩ | ⟨-, here, there⟩
      · rw [here, there, twin.pc]
      · rw [twin.code] at here
        exact Option.some.inj (here.symm.trans there)
    · rw [first.chunk]
      exact bounded
  · exact ⟨sure.push v, twin.body, twin.captured, twin.code, twin.constants, congrArg (· + 1) twin.pc, size,
      lies.push value, bounded⟩

/-! ### Where a body is left -/

/-- At the exit of a body its arguments give way to those put aside. -/
theorem comes_exit {exit last : Nat} {args : List Value} {saved : List (List Value)} {below : List Value} {x : Value}
    (code : t.chunk.code = longer) (leaves : Chunk.Leaves longer exit last) (pc : t.pc = last)
    (aside : t.saved = args :: saved) (stack : t.stack = x :: below) :
    t.Comes (({ t with stack := below, args, saved, pc := last + 2 } : Scene).push x) := by
  obtain ⟨⟨i, label, op, -⟩, pops⟩ := leaves
  have whole : ({ t with stack := below, args, saved, pc := last + 2 } : Scene).push x =
      { t with args, saved, pc := last + 2 } := by
    unfold push
    rw [← stack]
  rw [whole]
  obtain ⟨op', operand, small⟩ := i
  obtain rfl : op' = .label := op
  refine .head (t := { t with pc := last + 1 }) (i := ⟨.label, operand, small⟩) (by rw [code, pc]; exact label)
    (by simp) (fun σ => ?_) (.head (i := Opcode.popArgs.bare) (by rw [← code] at pops; exact pops)
      (by simp [Opcode.bare]) (fun σ => ?_) (.refl _))
  · change Turn.go { t with pc := t.pc + 1 } σ = _
    rw [pc]
  · change (Scene.past { t with pc := last + 1 } Opcode.popArgs.bare).popArgs σ = _
    have put : (Scene.past { t with pc := last + 1 } Opcode.popArgs.bare).saved = args :: saved := aside
    unfold popArgs
    rw [put]
    rfl

theorem turn_exit {exit last : Nat} (code : t.chunk.code = longer) (distinct : (Chunk.labelsOf longer).Nodup)
    (leaves : Chunk.Leaves longer exit last) (h : exit ≤ maxOperand) (σ : Store) :
    t.turn σ ⟨.jump, exit, h⟩ = .go { t with pc := last } σ := by
  obtain ⟨label, -⟩ := leaves
  have goal : Chunk.anchor? t.chunk.code exit = some last := by
    rw [code]
    exact (Chunk.anchor?_eq_some_iff distinct).mpr label
  exact goTo_of_anchor (s := t.past ⟨.jump, exit, h⟩) goal

theorem comes_jump {exit last : Nat} {args : List Value} {saved : List (List Value)} {below : List Value} {x : Value}
    (code : t.chunk.code = longer) (distinct : (Chunk.labelsOf longer).Nodup) (leaves : Chunk.Leaves longer exit last)
    {h : exit ≤ maxOperand} (here : longer[t.pc]? = some ⟨.jump, exit, h⟩) (aside : t.saved = args :: saved)
    (stack : t.stack = x :: below) :
    t.Comes (({ t with stack := below, args, saved, pc := last + 2 } : Scene).push x) :=
  .head (by rw [code]; exact here) (by simp) (turn_exit code distinct leaves h)
    (comes_exit (t := { t with pc := last }) code leaves rfl aside stack)

/-- A scene that waits where a body is left goes on with the value that is left there. -/
theorem Caller.push (h : s.Caller known genuine c longer d 1 t) {v x : Value} (value : v.Matches (Alike known) x) :
    (s.push v).Caller known genuine c longer d 0 (t.push x) :=
  ⟨h.source, h.target, h.sure.push v, h.lies.push value, h.captured, h.along, h.room⟩

/-! ### The caller -/

theorem rel_constants (distinct : Distinct known genuine) (grafted : c.Grafted known genuine longer d)
    {i : Instruction} (member : i ∈ c.code) (const : i.op = .const) :
    Option.Rel (Value.Matches (Alike known)) c.constants[i.operand]? d.constants[i.operand]? := by
  have found := List.getElem?_eq_getElem ((grafted.mentions i member).constant const)
  rw [found, getElem?_of_longer grafted.inlines.constants found]
  exact .some ((grafted.made _ (List.mem_of_getElem? found)).alike distinct)

/-- Where an instruction stays as it is, the caller comes to the addresses behind it. -/
theorem Caller.keeps (distinct : Distinct known genuine) (grafted : c.Grafted known genuine longer d)
    (h : s.Caller known genuine c longer d 0 t) (stores : σ.Matches (Alike known) τ)
    (waits : Queues (Alike known) (Stays known genuine c longer d) ws xs) {i : Instruction}
    (here : c.code[s.pc]? = some i) (there : longer[t.pc]? = some i)
    (onward : Chunk.Alongside (Closure.Guest known genuine) c longer d (s.pc + 1) (t.pc + 1)) :
    Play.Keeping (Alike known) (Stays known genuine c longer d) ⟨σ, .running s, Waiting.all [] ++ ws⟩
      ⟨τ, .running t, xs⟩ := by
  have member : i ∈ c.code := List.mem_of_getElem? here
  obtain ⟨source, target, sure, lies, captured, -, room⟩ := h
  have anchors {label pc : Nat} (found : Chunk.anchor? c.code label = some pc) :=
    grafted.inlines.anchor grafted.formed.distinct grafted.distinct found
  have renders : s.Renders (Alike known) ⟨0, c.localCount, [], []⟩ t i i := {
    op := rfl
    operand := fun _ _ _ => rfl
    slot := fun locals => ⟨(Nat.zero_add _).symm, grafted.careful.bounded member locals⟩
    label := fun jumps => by
      obtain ⟨pc, found⟩ := Option.isSome_iff_exists.mp
        (Chunk.anchor?_isSome.mpr (grafted.formed.anchored i member jumps))
      obtain ⟨spot, also, -⟩ := anchors found
      rw [source, target, found, also]
      rfl
    const := fun const => by
      rw [source, target]
      exact rel_constants distinct grafted member const
    captured := fun _ => captured
    current := fun current => absurd current (grafted.current i member)
    saved := fun _ => .inr rfl }
  refine Play.keeping_of_turns Alike.alikeness sure lies stores waits (by rw [source]; exact here)
    (by rw [target]; exact there) renders (fun _ => rfl)
    (fun {u v} sure lies first second control => ⟨v, .refl v, .caller ⟨?_, ?_, sure, lies, ?_, ?_, ?_⟩⟩)
    fun sure lies _ {v x} value => ⟨_, .refl _, .caller (.push (s := s.past i) (t := t.past i)
      ⟨source, target, sure, lies, captured, onward, room⟩ value)⟩
  · exact first.chunk.trans source
  · exact second.chunk.trans target
  · rw [first.closure, second.closure]
    exact captured
  · rcases control with ⟨pc, spot⟩ | ⟨-, pc, spot⟩
    · rw [pc, spot]
      exact onward
    · rw [source] at pc
      rw [target] at spot
      obtain ⟨other, found, along⟩ := anchors pc
      obtain rfl := Option.some.inj (found.symm.trans spot)
      exact along
  · exact second.slots.trans room

theorem turn_call {count : Nat} {tail : Bool} {j : Instruction} (shape : Chunk.callShape? j = some (count, tail))
    (σ : Store) {callee : Value} {rest : List Value} (stack : s.stack = callee :: rest) :
    s.turn σ j = if tail then .leave callee (rest.take count) else .call callee (rest.take count) (s.past j) := by
  have pops : j.pops = count + 1 := by rw [(Chunk.callShape?_effect shape).1, Nat.add_comm]
  have taken : s.stack.take j.pops = callee :: rest.take count := by rw [stack, pops, List.take_succ_cons]
  unfold turn
  rw [taken]
  obtain ⟨op, operand, small⟩ := j
  cases op <;> cases shape <;> rfl

theorem starts_run {j : Instruction} {callee : Closure} {args : List Value} {waiting : List Waiting} {x : Turn}
    (here : s.chunk.code[s.pc]? = some j) (turned : s.turn σ j = x)
    (calls : Play.follow σ ws x = ⟨σ, .calling callee.value args, waiting⟩)
    (accepts : callee.procedure.arity.accepts args.length) :
    (Play.system .plain).noted 2 ⟨σ, .running s, ws⟩ = [] ∧
      (Play.step .plain)^[2] ⟨σ, .running s, ws⟩ =
        ⟨σ, .running (.enter callee.procedure.chunk callee args), waiting⟩ := by
  have stepped : Play.step .plain ⟨σ, .running s, ws⟩ = ⟨σ, .calling callee.value args, waiting⟩ := by
    rw [Play.step_running here, ← calls, ← turned]
    rfl
  have notes : Play.edits .plain ⟨σ, .running s, ws⟩ = [] := by
    rw [Play.edits_running here]
    refine (congrArg (Turn.edits _) turned).trans ?_
    cases x <;> first | rfl | cases calls
  constructor
  · change Play.edits .plain ⟨σ, .running s, ws⟩ ++
      (Play.system .plain).noted 1 (Play.step .plain ⟨σ, .running s, ws⟩) = []
    rw [notes, stepped]
    rfl
  · rw [Function.iterate_succ_apply, stepped]
    show Play.call .plain σ waiting callee.value args = _
    unfold Play.call
    rw [Closure.value, Play.callable?_closure, Arity.check_of_accepts accepts]
    rfl

/-- The scene once so many of its operands are staged as arguments. -/
def stage (s : Scene) (count : Nat) : Scene :=
  { s with
    stack := s.stack.drop count
    args := s.stack.take count
    saved := s.args :: s.saved
    pc := s.pc + 1 }

theorem turn_pushArgs {count : Nat} (h : count ≤ maxOperand) (σ : Store) :
    s.turn σ ⟨.pushArgs, count, h⟩ = .go (s.stage count) σ := by
  have pops : Instruction.pops ⟨.pushArgs, count, h⟩ = count := Nat.zero_add count
  unfold turn past
  rw [pops]
  rfl

/-- A guest starts in its own scene and, beside it, where its body begins in the place of its call. -/
theorem Caller.body (h : s.Caller known genuine c longer d 0 t) {b e : Chunk} {callee : Closure} {count : Nat}
    {tail : Bool} {body : List Instruction} (guest : callee.Guest known genuine tail)
    (home : callee.procedure.globals = c.globals) (spliced : Chunk.Spliced b callee count tail body e)
    (later : e.Extends d) (there : body <+: longer.drop t.pc) :
    (Scene.enter callee.procedure.chunk callee (s.stack.take count)).Body known genuine longer d
      (b.siteFor callee.procedure tail) (t.stack.drop count) (t.args :: t.saved) (t.stage count) := by
  obtain ⟨top, tops, same⟩ := h.lies.stack
  obtain rfl : t.stack = top := same.trans (List.append_nil _)
  obtain ⟨-, ⟨after, lodged⟩, -⟩ := spliced.lodged there later.constants
  refine ⟨guest, rfl, h.target, sure_enter guest.careful callee _, ?_, rfl, .start, ⟨after, _, lodged, lodged⟩, h.room⟩
  refine ⟨?_, List.forall₂_take _ tops, ⟨[], .nil, rfl⟩, ⟨[], .nil, rfl⟩, fun {k v} _ found => ?_, ?_, ?_⟩
  · have globals : c.globals = t.chunk.globals := h.source ▸ h.lies.globals
    exact home.trans globals
  · have entry : (List.replicate callee.procedure.chunk.localCount none)[k]? = some (some v) :=
      Option.join_eq_some_iff.mp found
    cases (List.mem_replicate.mp (List.mem_of_getElem? entry)).2
  · exact (List.length_replicate ..).ge
  · change b.localCount + callee.procedure.localCount ≤ t.locals.length
    rw [h.room, ← spliced.locals]
    exact later.locals

/-- A call of a guest and the body in its place start beside each other. -/
theorem Caller.replaces (grafted : c.Grafted known genuine longer d) (h : s.Caller known genuine c longer d 0 t)
    (stores : σ.Matches (Alike known) τ) (waits : Queues (Alike known) (Stays known genuine c longer d) ws xs)
    {b e : Chunk} {i j : Instruction} {callee : Closure} {count : Nat} {tail : Bool} {body : List Instruction}
    (here : c.code[s.pc]? = some i) (const : i.op = .const) (found : b.constants[i.operand]? = some callee.value)
    (next : c.code[s.pc + 1]? = some j) (shape : Chunk.callShape? j = some (count, tail))
    (guest : callee.Guest known genuine tail) (home : callee.procedure.globals = c.globals)
    (accepts : callee.procedure.arity.accepts count) (before : c.Extends b)
    (spliced : Chunk.Spliced b callee count tail body e) (later : e.Extends d) (there : body <+: longer.drop t.pc)
    (onward : Chunk.Alongside (Closure.Guest known genuine) c longer d (s.pc + 2) (t.pc + body.length)) :
    Play.Keeping (Alike known) (Stays known genuine c longer d) ⟨σ, .running s, Waiting.all [] ++ ws⟩
      ⟨τ, .running t, xs⟩ := by
  have inside := (grafted.mentions i (List.mem_of_getElem? here)).constant const
  obtain ⟨op, k, low⟩ := i
  obtain rfl : op = .const := const
  have source : s.chunk.code[s.pc]? = some ⟨.const, k, low⟩ := h.source ▸ here
  have own : s.chunk.constants[k]? = some callee.value := by
    have listed := List.getElem?_eq_getElem inside
    rw [h.source, listed, ← found, getElem?_of_longer before.constants listed]
  -- The closure is pushed, and then it takes the arguments.
  have pushed := turn_const own low σ
  have sure := h.sure.turn σ source
  rw [pushed] at sure
  have calling : s.chunk.code[s.pc + 1]? = some j := h.source ▸ next
  have enough : count ≤ s.stack.length := by
    obtain ⟨k, again, pops⟩ := sure.stands
    obtain rfl := Option.some.inj (calling.symm.trans again)
    rw [(Chunk.callShape?_effect shape).1, Nat.add_comm] at pops
    exact Nat.le_of_succ_le_succ pops
  have accepted : callee.procedure.arity.accepts (s.stack.take count).length := by
    rwa [List.length_take_of_le enough]
  obtain ⟨⟨small, stages⟩, -, exits⟩ := spliced.lodged there later.constants
  have beside := h.body guest home spliced later there
  obtain ⟨others, goes⟩ := quiet_run (r := .plain) (k := 0) (s := t) (i := ⟨.pushArgs, count, small⟩)
    (by rw [h.target]; exact stages) (by simp) (turn_pushArgs small τ) rfl rfl
  have calls := turn_call (s := { s with stack := callee.value :: s.stack, pc := s.pc + 1 }) shape σ rfl
  cases tail with
  | true =>
    obtain ⟨notes, runs⟩ := starts_run calling calls rfl accepted
    obtain ⟨notes, runs⟩ := quiet_run (r := .plain) source (by simp) pushed notes runs
    exact Play.keeping_of_steps rfl rfl 2 0 ⟨runs, notes⟩ ⟨goes, others⟩
      (.running [] ⟨_, .refl _, .body beside (.never rfl)⟩ stores waits)
  | false =>
    obtain ⟨notes, runs⟩ := starts_run calling calls rfl accepted
    obtain ⟨notes, runs⟩ := quiet_run (r := .plain) source (by simp) pushed notes runs
    obtain ⟨last, ends, leaves⟩ := exits rfl
    refine Play.keeping_of_steps rfl rfl 2 0 ⟨runs, notes⟩ ⟨goes, others⟩ (.running [_]
      ⟨_, .refl _, .body beside (.left rfl before.locals rfl leaves ?_)⟩ stores waits)
    have resting := sure.turn σ calling
    rw [calls] at resting
    refine ⟨h.source, h.target, resting, ?_, h.captured, ?_, h.room⟩
    · obtain ⟨top, tops, same⟩ := h.lies.stack
      obtain rfl : t.stack = top := same.trans (List.append_nil _)
      refine { h.lies with stack := ⟨_, ?_, (List.append_nil _).symm⟩ }
      change List.Forall₂ _ ((callee.value :: s.stack).drop j.pops) _
      rw [(Chunk.callShape?_effect shape).1, Nat.add_comm, List.drop_succ_cons]
      exact List.forall₂_drop _ tops
    · change Chunk.Alongside _ _ _ _ (s.pc + 1 + 1) (last + 2)
      rw [ends]
      exact onward

end Scene

end StackLisp
