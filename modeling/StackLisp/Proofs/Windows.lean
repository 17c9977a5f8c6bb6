import StackLisp.Proofs.Guests
import StackLisp.Proofs.Heights

/-!
Scenes in windows of others. What a scene has can be a part of what another has: its operands lie on top of
more, its local slots from some slot on, its argument lists put aside before more. An instruction of the one
and the instruction that renders it in the other come to the same in the window and change nothing around it.
-/

namespace StackLisp

/-- Where a scene lies in another: its first local slot and how many there are, the operands below its own, and
the argument lists put aside before its own. -/
structure Window where
  base : Nat
  size : Nat
  below : List Value := []
  aside : List (List Value) := []

/-- A scene has in a window what another has, and may have more in its slots. Neither the code nor what is
captured counts. -/
structure Scene.Lies (P : Procedure Value → Procedure Value → Prop) (w : Window) (s t : Scene) : Prop where
  globals : s.chunk.globals = t.chunk.globals
  args : List.Forall₂ (Value.Matches P) s.args t.args
  stack : ∃ top, List.Forall₂ (Value.Matches P) s.stack top ∧ t.stack = top ++ w.below
  saved : ∃ put, List.Forall₂ (List.Forall₂ (Value.Matches P)) s.saved put ∧ t.saved = put ++ w.aside
  locals : ∀ {k : Nat} {v : Value}, k < w.size → s.slot? k = some v →
    ∃ x, t.slot? (w.base + k) = some x ∧ v.Matches P x
  room : w.size ≤ s.locals.length ∧ w.base + w.size ≤ t.locals.length

/-- An instruction that does in a window what another does in the scene that lies there. -/
structure Scene.Renders (P : Procedure Value → Procedure Value → Prop) (w : Window) (s t : Scene)
    (i j : Instruction) : Prop where
  op : j.op = i.op
  operand : i.op.effect.operand ≠ .locals → i.op.effect.operand ≠ .labels → i.op.effect.operand ≠ .constants →
    j.operand = i.operand
  slot : i.op.effect.operand = .locals → j.operand = w.base + i.operand ∧ i.operand < w.size
  label : i.op.jumps → (Chunk.anchor? s.chunk.code i.operand).isSome = (Chunk.anchor? t.chunk.code j.operand).isSome
  const : i.op = .const → Option.Rel (Value.Matches P) s.chunk.constants[i.operand]? t.chunk.constants[j.operand]?
  captured : i.op = .capture ∨ i.op = .current →
    List.Forall₂ (Value.Matches P) s.closure.captured t.closure.captured
  current : i.op = .current → P s.closure.procedure t.closure.procedure
  saved : i.op = .popArgs → s.saved ≠ [] ∨ w.aside = []

variable {P : Procedure Value → Procedure Value → Prop} {w : Window}

/-- Turns of an instruction and of one that renders it which come to the same, unless the first strays. -/
inductive Turn.Lies (P : Procedure Value → Procedure Value → Prop) (w : Window) (s t : Scene) (i j : Instruction) :
    Turn → Turn → Prop
  | go {u v : Scene} {σ τ : Store} (scenes : u.Lies P w v)
    (control : (u.pc = s.pc ∧ v.pc = t.pc) ∨ (i.op.jumps ∧ Chunk.anchor? s.chunk.code i.operand = some u.pc ∧
      Chunk.anchor? t.chunk.code j.operand = some v.pc)) (stores : σ.Matches P τ) :
    Lies P w s t i j (.go u σ) (.go v τ)
  | answer {v x : Value} (returns : i.op.Returns) (h : v.Matches P x) :
    Lies P w s t i j (.answer v) (.answer x)
  | call {v x : Value} {as bs : List Value} (callee : v.Matches P x) (args : List.Forall₂ (Value.Matches P) as bs) :
    Lies P w s t i j (.call v as s) (.call x bs t)
  | leave {v x : Value} {as bs : List Value} (returns : i.op.Returns) (callee : v.Matches P x)
    (args : List.Forall₂ (Value.Matches P) as bs) : Lies P w s t i j (.leave v as) (.leave x bs)
  | fault {f g : Fault} (h : f.Matches P g) : Lies P w s t i j (.fault f) (.fault g)
  | breach (b c : Breach) : Lies P w s t i j (.breach b) (.breach c)
  | stray {y : Turn} : Lies P w s t i j .stray y

namespace Turn

variable {s t : Scene} {i j : Instruction}

theorem lies_withNone {x y : Turn} (h : x.Lies P w s t i j y) {as bs : List Value}
    (taken : List.Forall₂ (Value.Matches P) as bs) : (withNone x as).Lies P w s t i j (withNone y bs) := by
  cases taken with
  | nil => exact h
  | cons => exact .stray

theorem lies_withOne {x y : Value → Turn} (h : ∀ {v u : Value}, v.Matches P u → (x v).Lies P w s t i j (y u))
    {as bs : List Value} (taken : List.Forall₂ (Value.Matches P) as bs) :
    (withOne x as).Lies P w s t i j (withOne y bs) := by
  match as, bs, taken with
  | [_], [_], .cons first .nil => exact h first
  | [], [], .nil | _ :: _ :: _, _ :: _ :: _, .cons _ (.cons _ _) => exact .stray

theorem lies_withFirst {x y : Value → List Value → Turn}
    (h : ∀ {v u : Value} {as bs : List Value}, v.Matches P u → List.Forall₂ (Value.Matches P) as bs →
      (x v as).Lies P w s t i j (y u bs)) {as bs : List Value} (taken : List.Forall₂ (Value.Matches P) as bs) :
    (withFirst x as).Lies P w s t i j (withFirst y bs) := by
  cases taken with
  | nil => exact .stray
  | cons first rest => exact h first rest

end Turn

namespace Scene

variable {s t : Scene} {i j : Instruction} {σ τ : Store}

theorem Lies.push (h : s.Lies P w t) {v x : Value} (value : v.Matches P x) : (s.push v).Lies P w (t.push x) := by
  obtain ⟨top, tops, same⟩ := h.stack
  exact { h with stack := ⟨x :: top, .cons value tops, congrArg (x :: ·) same⟩ }

theorem Lies.give (h : s.Lies P w t) {given given' : List Value} (values : List.Forall₂ (Value.Matches P) given given') :
    ({ s with stack := given ++ s.stack } : Scene).Lies P w { t with stack := given' ++ t.stack } := by
  obtain ⟨top, tops, same⟩ := h.stack
  refine { h with stack := ⟨given' ++ top, List.rel_append values tops, ?_⟩ }
  rw [same, List.append_assoc]

theorem Renders.pops (h : s.Renders P w t i j) : j.pops = i.pops := by
  have kind : i.op.effect.counted → i.op.effect.operand = .stack := by
    generalize i.op = op
    cases op <;> first | exact fun _ => rfl | exact nofun
  unfold Instruction.pops
  rw [h.op]
  cases counted : i.op.effect.counted with
  | false => rfl
  | true =>
    rw [h.operand (by rw [kind counted]; nofun) (by rw [kind counted]; nofun) (by rw [kind counted]; nofun)]

/-- An instruction with its operand is the one that renders it, if what it points to is the same in both. -/
theorem Renders.eq (h : s.Renders P w t i j) (free : i.op.effect.operand ≠ .locals ∧
    i.op.effect.operand ≠ .labels ∧ i.op.effect.operand ≠ .constants) : j = i := by
  have operand := h.operand free.1 free.2.1 free.2.2
  have op := h.op
  cases i
  cases j
  cases op
  cases operand
  rfl

theorem lies_give (h : s.Lies P w t) (stores : σ.Matches P τ) {v x : Value} (value : v.Matches P x) :
    (s.give σ v).Lies P w s t i j (t.give τ x) :=
  .go (h.push value) (.inl ⟨rfl, rfl⟩) stores

theorem lies_fetch (h : s.Lies P w t) (stores : σ.Matches P τ) {v x : Option Value}
    (found : Option.Rel (Value.Matches P) v x) : (s.fetch σ v).Lies P w s t i j (t.fetch τ x) := by
  cases found with
  | none => exact .breach _ _
  | some value => exact lies_give h stores value

theorem lies_goTo (h : s.Lies P w t) (stores : σ.Matches P τ) (jumps : i.op.jumps)
    (both : (Chunk.anchor? s.chunk.code i.operand).isSome = (Chunk.anchor? t.chunk.code j.operand).isSome) :
    (s.goTo σ i.operand).Lies P w s t i j (t.goTo τ j.operand) := by
  unfold goTo
  cases here : Chunk.anchor? s.chunk.code i.operand with
  | none =>
    rw [here] at both
    rw [Option.isNone_iff_eq_none.mp (Option.isSome_eq_false_iff.mp both.symm)]
    exact .stray
  | some target =>
    rw [here] at both
    obtain ⟨other, there⟩ := Option.isSome_iff_exists.mp both.symm
    rw [there]
    exact .go { h with } (.inr ⟨jumps, here, there⟩) stores

theorem lies_load (h : s.Lies P w t) (stores : σ.Matches P τ) {slot : Nat} (inside : slot < w.size) :
    (s.load σ slot).Lies P w s t i j (t.load τ (w.base + slot)) := by
  rw [load_eq, load_eq]
  cases found : s.slot? slot with
  | none => exact .stray
  | some v =>
    obtain ⟨x, there, value⟩ := h.locals inside found
    rw [there]
    exact lies_give h stores value

theorem lies_put (h : s.Lies P w t) (stores : σ.Matches P τ) {slot : Nat} (inside : slot < w.size)
    {v x : Value} (value : v.Matches P x) :
    (s.put σ slot v).Lies P w s t i j (t.put τ (w.base + slot) x) := by
  obtain ⟨own, wide⟩ := h.room
  have here : slot < s.locals.length := Nat.lt_of_lt_of_le inside own
  have there : w.base + slot < t.locals.length := by omega
  unfold put
  rw [if_pos here, if_pos there]
  refine .go { h with locals := fun {k u} within found => ?_, room := ?_ } (.inl ⟨rfl, rfl⟩) stores
  · rw [slot?_set here] at found
    rw [slot?_set there]
    by_cases same : k = slot
    · rw [if_pos same] at found
      rw [if_pos (congrArg _ same)]
      exact ⟨x, rfl, Option.some.inj found ▸ value⟩
    · rw [if_neg same] at found
      rw [if_neg fun also => same (Nat.add_left_cancel also)]
      exact h.locals within found
  · rw [List.length_set, List.length_set]
    exact h.room

theorem lies_popArgs (h : s.Lies P w t) (stores : σ.Matches P τ) (some : s.saved ≠ [] ∨ w.aside = []) :
    (s.popArgs σ).Lies P w s t i j (t.popArgs τ) := by
  obtain ⟨put, puts, same⟩ := h.saved
  unfold popArgs
  rw [same]
  cases own : s.saved with
  | nil =>
    rw [own] at puts
    cases puts
    rw [some.resolve_left (not_not_intro own)]
    exact .breach _ _
  | cons first rest =>
    rw [own] at puts
    cases puts with
    | cons args others => exact .go { h with args, saved := ⟨_, others, rfl⟩ } (.inl ⟨rfl, rfl⟩) stores

theorem lies_of_matches {x y : Turn} (h : s.Lies P w t) (turns : x.Matches P s t y) : x.Lies P w s t i j y := by
  cases turns with
  | go given stores => exact .go (h.give given) (.inl ⟨rfl, rfl⟩) stores
  | fault faults => exact .fault faults
  | stray => exact .stray

/-- What an instruction does with the operands it takes it does in the window. -/
theorem act_lies (alike : Alikeness P) (h : s.Lies P w t) (stores : σ.Matches P τ) (renders : s.Renders P w t i j)
    {as bs : List Value} (taken : List.Forall₂ (Value.Matches P) as bs) :
    (s.act σ i as).Lies P w s t i j (t.act τ j bs) := by
  by_cases label : i.op = .label
  · obtain ⟨op, operand, small⟩ := i
    obtain ⟨op', operand', small'⟩ := j
    obtain rfl : op = .label := label
    obtain rfl : op' = .label := renders.op
    exact Turn.lies_withNone (.go h (.inl ⟨rfl, rfl⟩) stores) taken
  by_cases computes : i.op.computes
  · obtain rfl : j = i := renders.eq (by
      generalize i.op = op at computes label
      cases op <;> first | exact absurd rfl label | (cases computes; done) | decide)
    exact lies_of_matches h (act_matches alike computes h.globals stores taken)
  obtain ⟨op, operand, small⟩ := i
  obtain ⟨op', operand', small'⟩ := j
  obtain rfl : op' = op := renders.op
  cases op' <;> first | exact absurd rfl computes | exact absurd rfl label | skip
  case jump => exact Turn.lies_withNone (lies_goTo h stores rfl (renders.label rfl)) taken
  case condJump =>
    refine Turn.lies_withOne (fun {v u} value => ?_) taken
    rw [value.holds]
    split
    · exact lies_goTo h stores rfl (renders.label rfl)
    · exact .go h (.inl ⟨rfl, rfl⟩) stores
  case ret => exact Turn.lies_withOne (.answer (show Opcode.ret.Returns from ⟨rfl, by decide, by decide⟩)) taken
  case retNull => exact Turn.lies_withNone (.answer (show Opcode.retNull.Returns from ⟨rfl, by decide, by decide⟩) .null) taken
  case retTrue => exact Turn.lies_withNone (.answer (show Opcode.retTrue.Returns from ⟨rfl, by decide, by decide⟩) (.bool _)) taken
  case retFalse => exact Turn.lies_withNone (.answer (show Opcode.retFalse.Returns from ⟨rfl, by decide, by decide⟩) (.bool _)) taken
  case panic => exact Turn.lies_withOne (fun value => .fault (.raised value)) taken
  case const => exact Turn.lies_withNone (lies_fetch h stores (renders.const rfl)) taken
  case load =>
    obtain ⟨shifted, inside⟩ := renders.slot rfl
    obtain rfl : operand' = w.base + operand := shifted
    exact Turn.lies_withNone (lies_load h stores inside) taken
  case store =>
    obtain ⟨shifted, inside⟩ := renders.slot rfl
    obtain rfl : operand' = w.base + operand := shifted
    exact Turn.lies_withOne (lies_put h stores inside) taken
  all_goals obtain rfl : operand' = operand :=
    renders.operand (fun kind => by cases kind) (fun kind => by cases kind) fun kind => by cases kind
  case arg => exact Turn.lies_withNone (lies_fetch h stores (rel_getElem? h.args _)) taken
  case capture =>
    exact Turn.lies_withNone (lies_fetch h stores (rel_getElem? (renders.captured (.inl rfl)) _)) taken
  case current =>
    exact Turn.lies_withNone (lies_give h stores (.closure (renders.current rfl) (renders.captured (.inr rfl)))) taken
  case argLen =>
    refine Turn.lies_withNone (lies_give h stores ?_) taken
    rw [h.args.length_eq]
    exact .integer _
  case restArg =>
    exact Turn.lies_withNone (lies_give h stores (Value.Matches.ofList (List.forall₂_drop _ h.args))) taken
  case call0 | call1 | call => exact Turn.lies_withFirst (fun callee args => .call callee args) taken
  case tailCall => exact Turn.lies_withFirst (.leave (show Opcode.tailCall.Returns from ⟨rfl, by decide, by decide⟩)) taken
  case pushArgs =>
    obtain ⟨put, puts, same⟩ := h.saved
    refine .go { h with args := taken, saved := ⟨t.args :: put, .cons h.args puts, ?_⟩ } (.inl ⟨rfl, rfl⟩) stores
    exact congrArg (t.args :: ·) same
  case popArgs => exact Turn.lies_withNone (lies_popArgs h stores (renders.saved rfl)) taken

theorem Lies.past (h : s.Lies P w t) (renders : s.Renders P w t i j) (enough : i.pops ≤ s.stack.length) :
    (s.past i).Lies P w (t.past j) ∧ List.Forall₂ (Value.Matches P) (s.stack.take i.pops) (t.stack.take j.pops) := by
  obtain ⟨top, tops, same⟩ := h.stack
  have within : i.pops ≤ top.length := tops.length_eq ▸ enough
  rw [renders.pops]
  refine ⟨{ h with stack := ⟨top.drop i.pops, List.forall₂_drop _ tops, ?_⟩ }, ?_⟩
  · change t.stack.drop j.pops = _
    rw [renders.pops, same, List.drop_append_of_le_length within]
  · rw [same, List.take_append_of_le_length within]
    exact List.forall₂_take _ tops

/-- An instruction that stands where it has its operands comes to the same in the window. -/
theorem turn_lies (alike : Alikeness P) (h : s.Lies P w t) (stores : σ.Matches P τ)
    (renders : s.Renders P w t i j) (enough : i.pops ≤ s.stack.length) :
    (s.turn σ i).Lies P w (s.past i) (t.past j) i j (t.turn τ j) := by
  obtain ⟨past, taken⟩ := h.past renders enough
  exact act_lies alike past stores { renders with } taken

end Scene

/-- Only the operands that it takes tell what an instruction changes. -/
theorem Instruction.edit?_take (i : Instruction) (globals : NamespaceId) {operands : List Value}
    (enough : i.pops ≤ operands.length) : i.edit? globals (operands.take i.pops) = i.edit? globals operands := by
  obtain ⟨op, operand, small⟩ := i
  by_cases edits : op ∈ [.declare, .hide, .bind]
  · simp only [List.mem_cons, List.not_mem_nil, or_false] at edits
    rcases edits with rfl | rfl | rfl
    all_goals cases operands with
      | nil => rw [List.take_nil]
      | cons first rest => cases first <;> cases rest <;> simp [edit?, pops, Opcode.effect]
  · rw [Scene.edit?_eq_none edits, Scene.edit?_eq_none edits]

theorem Scene.Lies.rel_edit? {s t : Scene} {i j : Instruction} (h : s.Lies P w t) (renders : s.Renders P w t i j)
    (enough : i.pops ≤ s.stack.length) : Option.Rel (Edit.Matches P) (i.edit? s.chunk.globals s.stack)
      (j.edit? t.chunk.globals t.stack) := by
  obtain ⟨past, taken⟩ := h.past renders enough
  have wide : j.pops ≤ t.stack.length := by
    have same := taken.length_eq
    rw [List.length_take_of_le enough, renders.pops, List.length_take] at same
    rw [renders.pops]
    omega
  have op : j.edit? t.chunk.globals (t.stack.take j.pops) = i.edit? t.chunk.globals (t.stack.take j.pops) := by
    unfold Instruction.edit?
    rw [renders.op]
  rw [← i.edit?_take _ enough, ← j.edit?_take _ wide, op, ← h.globals]
  exact i.rel_edit? _ taken

namespace Play

variable {H : Scene → List Scene → Scene → Prop} {s t : Scene} {hosts : List Scene} {i j : Instruction} {σ τ : Store}
  {ws xs : List Waiting}

/-- A scene and one that it lies in come to scenes beside each other by an instruction and one that renders it. -/
theorem keeping_of_turns (alike : Alikeness P) (sure : s.Sure 0) (h : s.Lies P w t) (stores : σ.Matches P τ)
    (waits : Queues P H ws xs) (here : s.chunk.code[s.pc]? = some i) (there : t.chunk.code[t.pc]? = some j)
    (renders : s.Renders P w t i j) (alone : i.op.Returns → hosts = [])
    (go : ∀ {u v : Scene}, u.Sure 0 → u.Lies P w v → (s.past i).Continues i u → (t.past j).Continues j v →
      ((u.pc = s.pc + 1 ∧ v.pc = t.pc + 1) ∨ (i.op.jumps ∧ Chunk.anchor? s.chunk.code i.operand = some u.pc ∧
        Chunk.anchor? t.chunk.code j.operand = some v.pc)) → H u hosts v)
    (push : (s.past i).Sure 1 → (s.past i).Lies P w (t.past j) → i.op.effect.exits = false →
      ∀ {v x : Value}, v.Matches P x → H ((s.past i).push v) hosts ((t.past j).push x)) :
    Keeping P H ⟨σ, .running s, Waiting.all hosts ++ ws⟩ ⟨τ, .running t, xs⟩ := by
  obtain ⟨k, again, enough⟩ := sure.stands
  obtain rfl := Option.some.inj (here.symm.trans again)
  have turns := Scene.turn_lies alike h stores renders enough
  have onward := sure.turn σ here
  have first := Scene.act_heeds σ (s.past i) i (s.stack.take i.pops)
  have second := Scene.act_heeds τ (t.past j) j (t.stack.take j.pops)
  change (s.turn σ i).Heeds (s.past i) i at first
  change (t.turn τ j).Heeds (t.past j) j at second
  have steps : step .plain ⟨σ, .running s, Waiting.all hosts ++ ws⟩ =
    follow σ (Waiting.all hosts ++ ws) (s.turn σ i) := step_running here
  have also : step .plain ⟨τ, .running t, xs⟩ = follow τ xs (t.turn τ j) := step_running there
  have notes : edits .plain ⟨σ, .running s, Waiting.all hosts ++ ws⟩ =
    (s.turn σ i).edits (i.edit? s.chunk.globals s.stack) := edits_running here
  have changes : edits .plain ⟨τ, .running t, xs⟩ = (t.turn τ j).edits (j.edit? t.chunk.globals t.stack) :=
    edits_running there
  revert turns onward first second steps also notes changes
  generalize s.turn σ i = x
  generalize t.turn τ j = y
  intro turns onward first second steps also notes changes
  cases turns with
  | @go u v σ' τ' scenes control kept =>
    refine keeping_of_step rfl rfl ?_ ?_
    · rw [notes, changes]
      have edits := h.rel_edit? renders enough
      revert edits
      generalize i.edit? s.chunk.globals s.stack = c
      generalize j.edit? t.chunk.globals t.stack = d
      intro edits
      cases edits with
      | none => exact .nil
      | some edit => exact .cons edit .nil
    · rw [steps, also]
      exact .running _ (go onward scenes first second control) kept waits
  | answer returns value =>
    obtain rfl := alone returns
    exact keeping_of_quiet rfl rfl notes changes 0 ⟨steps, rfl⟩ (also ▸ .returning value stores waits)
  | call callee args =>
    obtain ⟨-, -, stays⟩ := first
    exact keeping_of_quiet rfl rfl notes changes 0 ⟨steps, rfl⟩
      (also ▸ .calling callee args stores (.resume (push onward (h.past renders enough).1 stays) waits))
  | leave returns callee args =>
    obtain rfl := alone returns
    exact keeping_of_quiet rfl rfl notes changes 0 ⟨steps, rfl⟩ (also ▸ .calling callee args stores waits)
  | fault fault =>
    refine keeping_of_quiet rfl rfl notes changes hosts.length (by rw [steps]; exact unwinds _ hosts) ?_
    rw [also]
    exact .unwinding fault stores waits
  | breach b c =>
    refine keeping_of_quiet rfl rfl notes changes hosts.length (by rw [steps]; exact breaches b hosts) ?_
    rw [also]
    exact .breaching stores waits
  | stray => exact onward.elim

end Play

end StackLisp
