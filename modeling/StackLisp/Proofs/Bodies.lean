import StackLisp.Proofs.Inlined

/-!
Steps of a body in the place of a call. Most of its instructions do in their place what they do in a scene of the
body's own. What the body fetches is pooled, and where it returns control leaves it with the one value that is
there, or, in the place of a tail call, returns as well.
-/

namespace StackLisp

theorem Opcode.plain_of_locals {op : Opcode} (h : op.effect.operand = .locals) :
    (op ≠ .capture ∧ op ≠ .const) ∧ ¬ op.Returns := by
  cases op <;> cases h <;> decide

theorem Opcode.plain_of_labels {op : Opcode} (h : op.effect.operand = .labels) :
    (op ≠ .capture ∧ op ≠ .const) ∧ ¬ op.Returns := by
  cases op <;> cases h <;> decide

namespace Scene

variable {known : Procedure Value → Prop} {genuine : Builtin → Prop} {c d : Chunk} {longer after : List Instruction}
  {s : Chunk.Site} {below : List Value} {aside : List (List Value)} {u t : Scene} {hosts : List Scene}
  {σ τ : Store} {ws xs : List Waiting} {i j : Instruction} {start : Nat}

/-- What waits for a guest waits still when nothing has changed but the guest's own slots. -/
theorem Rests.next {t' : Scene} (h : Rests known genuine c longer d s below aside hosts t) (chunk : t'.chunk = t.chunk)
    (closure : t'.closure = t.closure) (room : t'.locals.length = t.locals.length)
    (kept : ∀ k < s.localBase, t'.slot? k = t.slot? k) : Rests known genuine c longer d s below aside hosts t' := by
  cases h with
  | never whole => exact .never whole
  | left plain above put leaves caller =>
    obtain ⟨source, target, sure, lies, captured, along, slots⟩ := caller
    refine .left plain above put leaves ⟨source, chunk.trans target, sure, ?_, closure ▸ captured, along,
      room.trans slots⟩
    refine ⟨lies.globals.trans (congrArg Chunk.globals chunk.symm), lies.args, lies.stack, lies.saved,
      fun {k v} inside found => ?_, lies.room.1, lies.room.2.trans room.ge⟩
    obtain ⟨x, there, value⟩ := lies.locals inside found
    have low : 0 + k < s.localBase := by
      have inside : k < c.localCount := inside
      omega
    exact ⟨x, (kept _ low).trans there, value⟩

theorem Rests.exit {host : Scene} (h : Rests known genuine c longer d s below aside [host] t) :
    ∃ last args saved, s.tail = false ∧ aside = args :: saved ∧ Chunk.Leaves longer s.exit last ∧
      host.Caller known genuine c longer d 1 { t with stack := below, args, saved, pc := last + 2 } := by
  cases h with
  | left plain above put leaves caller => exact ⟨_, _, _, plain, put, leaves, caller⟩

theorem Rests.host (h : Rests known genuine c longer d s below aside hosts t) (plain : s.tail = false) :
    ∃ host, hosts = [host] := by
  cases h with
  | never whole => cases whole.symm.trans plain
  | left => exact ⟨_, rfl⟩

/-- An instruction that stores to slots of a body leaves the slots below them. -/
theorem Continues.outside {v : Scene} (h : t.Continues j v) {base : Nat} (above : j.op = .store → base ≤ j.operand)
    {k : Nat} (low : k < base) : v.slot? k = t.slot? k := by
  rcases h.locals with same | ⟨store, x, same⟩
  · unfold slot?
    rw [same]
  · have other : j.operand ≠ k := by
      have high := above store
      omega
    unfold slot?
    rw [same, List.getElem?_set_ne other]

theorem Body.next {u' t' : Scene} (h : u.Body known genuine longer d s below aside t) (sure : u'.Sure 0)
    (lies : u'.Lies (Alike known) ⟨s.localBase, u.closure.procedure.localCount, below, aside⟩ t')
    (first : (u.past i).Continues i u') (second : (t.past j).Continues j t')
    (plain : i.op ∉ [.current, .pushArgs, .popArgs]) (goes : Chunk.Goes u.closure.procedure.code u.pc u'.pc)
    (begins : Chunk.Lodged longer d.constants s u.closure after 0 start)
    (lodged : Chunk.Lodged longer d.constants s u.closure after u'.pc t'.pc) :
    u'.Body known genuine longer d s below aside t' := by
  have closure : u'.closure = u.closure := first.closure
  have bare : u'.saved = [] := by
    rcases first.saved with same | op | op
    · exact same.trans h.bare
    all_goals exact absurd op fun op => plain (by simp [op])
  refine ⟨closure ▸ h.guest, ?_, second.chunk.trans h.target, sure, closure ▸ lies, bare, closure ▸ h.reached.goes goes,
    ⟨after, start, closure ▸ begins, closure ▸ lodged⟩, second.slots.trans h.room⟩
  rw [closure]
  exact first.chunk.trans h.source

/-- An instruction of a body that stands in its place with its operand shifted, or as it is. -/
theorem Body.moves (grafted : c.Grafted known genuine longer d) (h : u.Body known genuine longer d s below aside t)
    (rests : Rests known genuine c longer d s below aside hosts t) (stores : σ.Matches (Alike known) τ)
    (waits : Queues (Alike known) (Stays known genuine c longer d) ws xs)
    (here : u.closure.procedure.code[u.pc]? = some i) (there : longer[t.pc]? = some j) (op : j.op = i.op)
    (fetches : i.op ≠ .capture ∧ i.op ≠ .const) (operand : i.op.effect.operand ≠ .locals →
      i.op.effect.operand ≠ .labels → j.operand = i.operand)
    (slot : i.op.effect.operand = .locals → j.operand = i.operand + s.localBase)
    (label : i.op.effect.operand = .labels → j.operand = i.operand + s.labelBase)
    (returns : s.tail = false → ¬ i.op.Returns)
    (begins : Chunk.Lodged longer d.constants s u.closure after 0 start)
    (onward : Chunk.Lodged longer d.constants s u.closure after (u.pc + 1) (t.pc + 1)) :
    Play.Keeping (Alike known) (Stays known genuine c longer d) ⟨σ, .running u, Waiting.all hosts ++ ws⟩
      ⟨τ, .running t, xs⟩ := by
  have member : i ∈ u.closure.procedure.code := List.mem_of_getElem? here
  have plain := h.guest.plain i member
  have source : u.chunk.code = u.closure.procedure.code := congrArg Chunk.code h.source
  have target : t.chunk.code = longer := congrArg Chunk.code h.target
  have anchors {pc : Nat} (labels : i.op.effect.operand = .labels)
      (found : Chunk.anchor? u.closure.procedure.code i.operand = some pc) :
      ∃ spot, Chunk.anchor? longer j.operand = some spot ∧ Chunk.Lodged longer d.constants s u.closure after pc spot := by
    rw [label labels]
    exact begins.anchor h.guest.formed.distinct grafted.distinct found
  have above : j.op = .store → s.localBase ≤ j.operand := fun store => by
    rw [slot (by rw [← op, store]; rfl)]
    exact Nat.le_add_left _ _
  have renders : u.Renders (Alike known) ⟨s.localBase, u.closure.procedure.localCount, below, aside⟩ t i j := {
    op
    operand := fun locals labels _ => operand locals labels
    slot := fun locals => ⟨(slot locals).trans (Nat.add_comm _ _), h.guest.careful.bounded member locals⟩
    label := fun jumps => by
      have labels := Opcode.operand_of_jumps jumps
      obtain ⟨pc, found⟩ : ∃ pc, Chunk.anchor? u.closure.procedure.code i.operand = some pc :=
        Option.isSome_iff_exists.mp (Chunk.anchor?_isSome.mpr (h.guest.formed.anchored i member jumps))
      obtain ⟨spot, also, -⟩ := anchors labels found
      rw [source, target, found, also]
      rfl
    const := fun const => absurd const fetches.2
    captured := fun captured => by
      rcases captured with capture | current
      · exact absurd capture fetches.1
      · exact absurd current fun op => plain (by simp [op])
    current := fun current => absurd current fun op => plain (by simp [op])
    saved := fun pops => absurd pops fun op => plain (by simp [op]) }
  refine Play.keeping_of_turns Alike.alikeness h.sure h.lies stores waits (by rw [source]; exact here)
    (by rw [target]; exact there) renders (fun exits => ?_)
    (fun {u' t'} sure lies first second control => ⟨t', .refl t', .body (h.next sure lies first second plain ?_ begins ?_)
      (rests.next second.chunk second.closure second.slots fun k low => second.outside above low)⟩)
    fun sure lies stays {v x} value => ⟨_, .refl _, .body ⟨h.guest, h.source, h.target, sure.push v, lies.push value,
      h.bare, h.reached.goes (.falls here stays), ⟨after, start, begins, onward⟩, h.room⟩
      (rests.next rfl rfl rfl fun _ _ => rfl)⟩
  · cases rests with
    | never => rfl
    | left whole => exact absurd exits (returns whole)
  · rcases first.control with ⟨stays, pc⟩ | ⟨jumps, goal⟩
    · rw [pc]
      exact .falls here stays
    · have goal : Chunk.anchor? u.chunk.code i.operand = some u'.pc := goal
      rw [source] at goal
      exact .jumps here jumps ((Chunk.anchor?_eq_some_iff_anchoredAt h.guest.formed.distinct).mp goal)
  · rcases control with ⟨pc, spot⟩ | ⟨jumps, goal, other⟩
    · rw [pc, spot]
      exact onward
    · rw [source] at goal
      rw [target] at other
      obtain ⟨spot, found, lodged⟩ := anchors (Opcode.operand_of_jumps jumps) goal
      obtain rfl := Option.some.inj (found.symm.trans other)
      exact lodged

/-- What a body fetches is pooled: equality does not tell it from what stands for it in the pool. -/
theorem Body.fetches (distinct : Distinct known genuine) (grafted : c.Grafted known genuine longer d)
    (h : u.Body known genuine longer d s below aside t) (rests : Rests known genuine c longer d s below aside hosts t)
    (stores : σ.Matches (Alike known) τ) (waits : Queues (Alike known) (Stays known genuine c longer d) ws xs)
    (here : u.closure.procedure.code[u.pc]? = some i) {b : Chunk} {v : Value}
    (found : Chunk.constantFor? u.closure i = some v) (pool : (b.addConstant v).2.constants <+: d.constants)
    {small : (b.addConstant v).1 ≤ maxOperand} (there : longer[t.pc]? = some ⟨.const, (b.addConstant v).1, small⟩)
    (begins : Chunk.Lodged longer d.constants s u.closure after 0 start)
    (onward : Chunk.Lodged longer d.constants s u.closure after (u.pc + 1) (t.pc + 1)) :
    Play.Keeping (Alike known) (Stays known genuine c longer d) ⟨σ, .running u, Waiting.all hosts ++ ws⟩
      ⟨τ, .running t, xs⟩ := by
  obtain ⟨x, pooled, same⟩ := poolConstant_place b.constants v
  have listed : d.constants[(b.addConstant v).1]? = some x := getElem?_of_longer pool pooled
  have value : v.Matches (Alike known) x := Value.matches_of_same distinct.names (h.guest.fetched distinct found)
    (grafted.pool distinct x (List.mem_of_getElem? listed)) (Value.same_comm same)
  have fetches := Chunk.constantFor?_fetches found
  have source : u.chunk.code[u.pc]? = some i := by
    rw [h.source]
    exact here
  have first : u.turn σ i = .go { u with stack := v :: u.stack, pc := u.pc + 1 } σ := by
    obtain ⟨op, operand, low⟩ := i
    rcases fetches with op | op
    all_goals
      obtain rfl := op
    · have own : u.closure.captured[operand]? = some v := found
      change (u.past _).fetch σ u.closure.captured[operand]? = _
      rw [own]
      rfl
    · have own : u.chunk.constants[operand]? = some v := by
        rw [h.source]
        exact found
      exact turn_const own low σ
  have second : t.turn τ ⟨.const, (b.addConstant v).1, small⟩ = .go { t with stack := x :: t.stack, pc := t.pc + 1 } τ := by
    have own : t.chunk.constants[(b.addConstant v).1]? = some x := by
      rw [h.target]
      exact listed
    exact turn_const own small τ
  have silent : i.op ∉ [.declare, .hide, .bind] := by rcases fetches with op | op <;> simp [op]
  have sure := h.sure.turn σ source
  rw [first] at sure
  obtain ⟨notes, runs⟩ := quiet_run (r := .plain) (k := 0) source silent first rfl rfl
  obtain ⟨others, goes⟩ := quiet_run (r := .plain) (k := 0) (s := t) (i := ⟨.const, (b.addConstant v).1, small⟩)
    (by rw [h.target]; exact there) (by simp) second rfl rfl
  have stays : i.op.effect.exits = false := by rcases fetches with op | op <;> rw [op] <;> rfl
  refine Play.keeping_of_steps rfl rfl 0 0 ⟨runs, notes⟩ ⟨goes, others⟩ (.running hosts ⟨_, .refl _, .body (s := s)
    ⟨h.guest, h.source, h.target, sure, ?_, h.bare, h.reached.goes (.falls here stays), ⟨after, start, begins, onward⟩,
      h.room⟩ (rests.next rfl rfl rfl fun _ _ => rfl)⟩ stores waits)
  exact { h.lies.push value with }

/-! ### Where a body returns -/

/-- In the place of a call that is no tail call there is nothing on a body's stack but what its return takes. -/
theorem Body.alone (h : u.Body known genuine longer d s below aside t) (plain : s.tail = false)
    (here : u.closure.procedure.code[u.pc]? = some i) (returns : i.op.Returns) : u.stack.length = i.pops := by
  obtain ⟨checked, accepted⟩ := h.guest.careful.accepted
  have own : u.chunk.verify = .ok checked := by
    rw [h.source]
    exact accepted
  have assigns := Chunk.assigns_of_covers (Chunk.verify_covers accepted) (Chunk.labels_nodup_of_verify accepted)
  have depth := h.guest.suits.returns (by rw [plain]; rfl) assigns h.reached here returns
  simp only [h.sure.depth own] at depth
  exact depth

/-- Nothing but what was put aside for it is put aside in a body. -/
theorem Body.put (h : u.Body known genuine longer d s below aside t) : t.saved = aside := by
  obtain ⟨put, puts, same⟩ := h.lies.saved
  rw [h.bare] at puts
  cases puts
  exact same

/-- Where a body answers, the scene that waits goes on with the value, and so does the scene that the body is in. -/
theorem keeping_answer (stores : σ.Matches (Alike known) τ)
    (waits : Queues (Alike known) (Stays known genuine c longer d) ws xs) (here : u.chunk.code[u.pc]? = some i)
    {v x : Value} (answers : u.turn σ i = .answer v) (value : v.Matches (Alike known) x) {host w t' : Scene}
    (caller : host.Caller known genuine c longer d 1 w) (there : t.chunk.code[t.pc]? = some j)
    (quiet : j.op ∉ [.declare, .hide, .bind]) (goes : t.turn τ j = .go t' τ) (comes : t'.Comes (w.push x)) :
    Play.Keeping (Alike known) (Stays known genuine c longer d) ⟨σ, .running u, Waiting.all [host] ++ ws⟩
      ⟨τ, .running t, xs⟩ := by
  have stepped : Play.step .plain ⟨σ, .running u, .resume host :: ws⟩ = ⟨σ, .returning v, .resume host :: ws⟩ :=
    (Play.step_running here).trans (congrArg (Play.follow σ _) answers)
  have notes : Play.edits .plain ⟨σ, .running u, .resume host :: ws⟩ = [] := by
    rw [Play.edits_running here]
    exact congrArg (Turn.edits _) answers
  obtain ⟨others, runs⟩ := quiet_run (r := .plain) (k := 0) there quiet goes rfl rfl
  refine Play.keeping_of_steps rfl rfl 1 0 ⟨?_, ?_⟩ ⟨runs, others⟩
    (.running [] ⟨_, comes, .caller (caller.push value)⟩ stores waits)
  · change Play.step .plain (Play.step .plain ⟨σ, .running u, .resume host :: ws⟩) = _
    rw [stepped]
    rfl
  · change Play.edits .plain ⟨σ, .running u, .resume host :: ws⟩ ++
      (Play.system .plain).noted 1 (Play.step .plain ⟨σ, .running u, .resume host :: ws⟩) = []
    rw [notes, stepped]
    rfl

section

variable {host : Scene}

theorem Body.returns (grafted : c.Grafted known genuine longer d) (h : u.Body known genuine longer d s below aside t)
    (rests : Rests known genuine c longer d s below aside [host] t) (stores : σ.Matches (Alike known) τ)
    (waits : Queues (Alike known) (Stays known genuine c longer d) ws xs)
    (here : u.closure.procedure.code[u.pc]? = some i) (op : i.op = .ret) {small : s.exit ≤ maxOperand}
    (there : longer[t.pc]? = some ⟨.jump, s.exit, small⟩) :
    Play.Keeping (Alike known) (Stays known genuine c longer d) ⟨σ, .running u, Waiting.all [host] ++ ws⟩
      ⟨τ, .running t, xs⟩ := by
  obtain ⟨last, args, saved, plain, put, leaves, caller⟩ := rests.exit
  obtain ⟨op', operand, low⟩ := i
  obtain rfl : op' = .ret := op
  have code : t.chunk.code = longer := congrArg Chunk.code h.target
  obtain ⟨v, stack⟩ := List.length_eq_one_iff.mp (h.alone plain here ⟨rfl, nofun, nofun⟩)
  obtain ⟨top, tops, same⟩ := h.lies.stack
  rw [stack] at tops
  obtain ⟨x, _, value, ⟨⟩, rfl⟩ := List.forall₂_cons_left_iff.mp tops
  have answers : u.turn σ ⟨.ret, operand, low⟩ = .answer v := by
    change Turn.withOne .answer (u.stack.take 1) = _
    rw [stack]
    rfl
  refine keeping_answer stores waits (by rw [h.source]; exact here) answers value caller
    (by rw [code]; exact there) (by simp) (turn_exit code grafted.distinct leaves small τ) ?_
  exact comes_exit (t := { t with pc := last }) code leaves rfl (h.put.trans put) same

theorem Body.answers (grafted : c.Grafted known genuine longer d) (h : u.Body known genuine longer d s below aside t)
    (rests : Rests known genuine c longer d s below aside [host] t) (stores : σ.Matches (Alike known) τ)
    (waits : Queues (Alike known) (Stays known genuine c longer d) ws xs)
    (here : u.closure.procedure.code[u.pc]? = some i) {op : Opcode} (fused : Chunk.fused? op = some i.op)
    {small : s.exit ≤ maxOperand} (there : longer[t.pc]? = some op.bare)
    (next : longer[t.pc + 1]? = some ⟨.jump, s.exit, small⟩) :
    Play.Keeping (Alike known) (Stays known genuine c longer d) ⟨σ, .running u, Waiting.all [host] ++ ws⟩
      ⟨τ, .running t, xs⟩ := by
  obtain ⟨last, args, saved, plain, put, leaves, caller⟩ := rests.exit
  have code : t.chunk.code = longer := congrArg Chunk.code h.target
  have empty : u.stack.length = 0 := by
    rw [h.alone plain here]
    · unfold Instruction.pops
      rw [(Chunk.effect_fused fused).2]
      rfl
    · refine ⟨by rw [(Chunk.effect_fused fused).2], ?_, ?_⟩
      all_goals
        rintro other
        rw [other] at fused
        cases op <;> cases fused
  obtain ⟨top, tops, same⟩ := h.lies.stack
  rw [List.length_eq_zero_iff.mp empty] at tops
  cases tops
  obtain ⟨v, answers, goes, value⟩ : ∃ v : Value, u.turn σ i = .answer v ∧
      t.turn τ op.bare = .go { t with stack := v :: t.stack, pc := t.pc + 1 } τ ∧ v.Matches (Alike known) v := by
    obtain ⟨closed, operand, low⟩ := i
    cases op <;> cases fused
    · exact ⟨.null, rfl, rfl, .null⟩
    · exact ⟨.bool true, rfl, rfl, .bool _⟩
    · exact ⟨.bool false, rfl, rfl, .bool _⟩
  refine keeping_answer stores waits (by rw [h.source]; exact here) answers value caller
    (by rw [code]; exact there) ?_ goes ?_
  · have silent : ∀ o ∈ [Opcode.declare, .hide, .bind], Chunk.fused? o = none := by decide
    intro member
    cases (silent op member).symm.trans fused
  · exact comes_jump (t := { t with stack := v :: t.stack, pc := t.pc + 1 }) code grafted.distinct leaves next
      (h.put.trans put) (congrArg (v :: ·) same)

theorem Body.calls (grafted : c.Grafted known genuine longer d) (h : u.Body known genuine longer d s below aside t)
    (rests : Rests known genuine c longer d s below aside [host] t) (stores : σ.Matches (Alike known) τ)
    (waits : Queues (Alike known) (Stays known genuine c longer d) ws xs)
    (here : u.closure.procedure.code[u.pc]? = some i) (op : i.op = .tailCall) {small : s.exit ≤ maxOperand}
    (there : longer[t.pc]? = some ⟨.call, i.operand, i.operand_le⟩)
    (next : longer[t.pc + 1]? = some ⟨.jump, s.exit, small⟩) :
    Play.Keeping (Alike known) (Stays known genuine c longer d) ⟨σ, .running u, Waiting.all [host] ++ ws⟩
      ⟨τ, .running t, xs⟩ := by
  obtain ⟨last, args, saved, plain, put, leaves, caller⟩ := rests.exit
  have code : t.chunk.code = longer := congrArg Chunk.code h.target
  have source : u.chunk.code[u.pc]? = some i := by
    rw [h.source]
    exact here
  have target : t.chunk.code[t.pc]? = some ⟨.call, i.operand, i.operand_le⟩ := by
    rw [code]
    exact there
  have length : u.stack.length = i.operand + 1 := by
    rw [h.alone plain here ⟨by rw [op]; rfl, by rw [op]; nofun, by rw [op]; nofun⟩]
    unfold Instruction.pops
    rw [op]
    exact Nat.add_comm _ _
  obtain ⟨callee, args, stack⟩ := List.exists_cons_of_length_eq_add_one length
  have counted : args.length = i.operand := by
    rw [stack] at length
    exact Nat.succ.inj length
  obtain ⟨top, tops, same⟩ := h.lies.stack
  rw [stack] at tops
  obtain ⟨other, args', called, values, rfl⟩ := List.forall₂_cons_left_iff.mp tops
  have shape : Chunk.callShape? i = some (i.operand, true) := by
    unfold Chunk.callShape?
    rw [op]
  have leaving : u.turn σ i = .leave callee args := by
    rw [turn_call shape σ stack, List.take_of_length_le counted.le]
    rfl
  have resuming : (t.past ⟨.call, i.operand, i.operand_le⟩).stack = below := by
    have pops : Instruction.pops ⟨.call, i.operand, i.operand_le⟩ = (other :: args').length := by
      rw [List.length_cons, ← values.length_eq, counted]
      exact Nat.add_comm _ _
    change t.stack.drop (Instruction.pops ⟨.call, i.operand, i.operand_le⟩) = _
    rw [same, pops, List.drop_left]
  have calling : t.turn τ ⟨.call, i.operand, i.operand_le⟩ =
      .call other args' (t.past ⟨.call, i.operand, i.operand_le⟩) := by
    have taken : (args' ++ below).take i.operand = args' := by
      rw [← counted, values.length_eq, List.take_left]
    refine (turn_call rfl τ same).trans ?_
    change Turn.call other ((args' ++ below).take i.operand) _ = _
    rw [taken]
  have resume : ∀ {v x : Value}, v.Matches (Alike known) x → Stays known genuine c longer d (host.push v) []
      ((t.past ⟨.call, i.operand, i.operand_le⟩).push x) := fun {v x} value =>
    ⟨_, comes_jump code grafted.distinct leaves next (h.put.trans put) (congrArg (x :: ·) resuming),
      .caller (caller.push value)⟩
  have queue : Queues (Alike known) (Stays known genuine c longer d) (.resume host :: (Waiting.all [] ++ ws))
      (.resume (t.past ⟨.call, i.operand, i.operand_le⟩) :: xs) := .resume resume waits
  refine Play.keeping_of_steps rfl rfl 0 0 ⟨?_, ?_⟩ ⟨?_, ?_⟩ (.calling called values stores queue)
  · exact (Play.step_running source).trans (congrArg (Play.follow σ _) leaving)
  · exact (Play.noted_one _).trans ((Play.edits_running source).trans (congrArg (Turn.edits _) leaving))
  · exact (Play.step_running target).trans (congrArg (Play.follow τ _) calling)
  · exact (Play.noted_one _).trans ((Play.edits_running target).trans (congrArg (Turn.edits _) calling))

end

/-- A guest and the scene that its body is in come to such scenes again. -/
theorem Body.keeps (distinct : Distinct known genuine) (grafted : c.Grafted known genuine longer d)
    (h : u.Body known genuine longer d s below aside t) (rests : Rests known genuine c longer d s below aside hosts t)
    (stores : σ.Matches (Alike known) τ) (waits : Queues (Alike known) (Stays known genuine c longer d) ws xs) :
    Play.Keeping (Alike known) (Stays known genuine c longer d) ⟨σ, .running u, Waiting.all hosts ++ ws⟩
      ⟨τ, .running t, xs⟩ := by
  obtain ⟨i, here, -⟩ := h.sure.stands
  rw [h.source] at here
  have here : u.closure.procedure.code[u.pc]? = some i := here
  obtain ⟨after, start, begins, lodged⟩ := h.lodged
  obtain ⟨b, e, code, moved, pool, ⟨rest, there⟩, onward⟩ := lodged.next here
  cases moved with
  | ret plain op small =>
    obtain ⟨host, rfl⟩ := rests.host plain
    exact h.returns grafted rests stores waits here op (Chunk.suffix_cons there.symm).1
  | literal plain fused small =>
    obtain ⟨host, rfl⟩ := rests.host plain
    obtain ⟨first, later⟩ := Chunk.suffix_cons there.symm
    exact h.answers grafted rests stores waits here fused first (Chunk.suffix_cons later).1
  | call plain op small =>
    obtain ⟨host, rfl⟩ := rests.host plain
    obtain ⟨first, later⟩ := Chunk.suffix_cons there.symm
    exact h.calls grafted rests stores waits here op first (Chunk.suffix_cons later).1
  | constant found small =>
    exact h.fetches distinct grafted rests stores waits here found pool (Chunk.suffix_cons there.symm).1 begins onward
  | slot locals small =>
    refine h.moves grafted rests stores waits here (Chunk.suffix_cons there.symm).1 rfl (Opcode.plain_of_locals locals).1
      (fun other => absurd locals other) (fun _ => rfl) (fun labels => ?_)
      (fun _ => (Opcode.plain_of_locals locals).2) begins onward
    cases locals.symm.trans labels
  | label labels small =>
    refine h.moves grafted rests stores waits here (Chunk.suffix_cons there.symm).1 rfl (Opcode.plain_of_labels labels).1
      (fun _ other => absurd labels other) (fun locals => ?_) (fun _ => rfl)
      (fun _ => (Opcode.plain_of_labels labels).2) begins onward
    cases labels.symm.trans locals
  | kept closed other =>
    refine h.moves grafted rests stores waits here (Chunk.suffix_cons there.symm).1 rfl ⟨other.1, other.2.1⟩ (fun _ _ => rfl)
      (fun locals => absurd locals other.2.2.1) (fun labels => absurd labels other.2.2.2) (fun plain returns => ?_)
      begins onward
    exact returns.2.1 (closed plain returns.1)

end Scene

end StackLisp
