import StackLisp.Proofs.Laying
import StackLisp.Proofs.Shortening
import StackLisp.Proofs.TailCalls

/-!
Code that keeps to itself. What is emitted for an expression jumps to labels of its own; only an operation in
place of a call may jump away, to the first label of all. Returns are brought forward in such code as if it
stood alone.
-/

namespace StackLisp

open Chunk Workshop

mutual

/-- The operations that stand in place of calls in an expression, each with the number of its arguments. Those
of the lambdas in it are not its own. -/
def Expr.operators : Expr → List (Opcode × Nat)
  | .literal _ | .name _ | .through _ | .later _ | .mention _ _ | .lambda _ _ _ _ _ => []
  | .seq first rest => first.operators ++ rest.operators
  | .branch test yes no => test.operators ++ no.operators ++ yes.operators
  | .scope e => e.operators
  | .bind _ value rest => value.operators ++ rest.operators
  | .fresh _ rest => rest.operators
  | .fill _ value rest => value.operators ++ rest.operators
  | .define _ value => value.operators
  | .call args head => Expr.operatorsIn args ++ head.operators
  | .intrinsic op _ args => (op, args.length) :: Expr.operatorsIn args
termination_by structural e => e

def Expr.operatorsIn : List Expr → List (Opcode × Nat)
  | [] => []
  | e :: es => e.operators ++ Expr.operatorsIn es
termination_by structural es => es

end

def Exprs.operators : Exprs → List (Opcode × Nat)
  | .one e => e.operators
  | .many es => Expr.operatorsIn es

/-- The operation stands for calls of a builtin with so many arguments. -/
def Expands (known : String → Option Value) (entry : Opcode × Nat) : Prop :=
  ∃ x b times, known x = some (.builtin b) ∧ Compile.expansion? b entry.2 = some (entry.1, times)

/-- What stands in place of calls is what the builtins say that are known by now. -/
theorem Reads.operators {known : String → Option Value} {s : Sight} {src : Source} {es : Exprs}
    (h : Reads known s src es) : ∀ entry ∈ es.operators, Expands known entry := by
  induction h with
  | @expanded s head b args es op times bound expands operands ih =>
    obtain ⟨_, same, length⟩ := operands.length rfl
    cases same
    refine List.forall_mem_cons.mpr ⟨?_, ih⟩
    unfold Sight.static? at bound
    split at bound
    · split at bound
      · cases bound
      · exact ⟨_, b, times, bound, length ▸ expands⟩
    · cases bound
  | _ => simp_all [Exprs.operators, Expr.operators, Expr.operatorsIn, or_imp]

/-- A builtin stands for an operation in calls with arguments only. -/
theorem Expands.pos {known : String → Option Value} {entry : Opcode × Nat} (h : Expands known entry) :
    0 < entry.2 := by
  obtain ⟨x, b, times, -, expands⟩ := h
  obtain ⟨intrinsic, -, expands⟩ := Option.bind_eq_some_iff.mp expands
  unfold Intrinsic.expand? at expands
  split at expands
  next count => exact count ▸ Nat.one_pos
  next count => exact count ▸ Nat.two_pos
  next count => exact count ▸ Nat.succ_pos _
  next => cases expands

/-- Whether the operation is neither a label nor a jump nor a return. -/
def Opcode.acts : Opcode → Bool
  | .label | .jump | .ret => false
  | _ => true

/-- What the code jumps to is anchored in it, or is the first label of all. It starts with something to do. -/
structure Chunk.Secluded (code : List Instruction) : Prop where
  jumps : ∀ i ∈ code, i.op = .jump → i.operand ∈ labelsOf code ∨ i.operand = 0
  first : ∀ i ∈ code.head?, i.op.acts

namespace Chunk.Secluded

variable {code more : List Instruction} {i : Instruction}

theorem nil : Secluded [] :=
  ⟨fun _ member => absurd member List.not_mem_nil, fun _ member => absurd member (Option.not_mem_none _)⟩

theorem one (h : i.op.acts) : Secluded [i] where
  jumps j member jump := by
    obtain rfl := List.mem_singleton.mp member
    rw [jump] at h
    cases h
  first j member := by
    obtain rfl := Option.some.inj member
    exact h

theorem append (h : Secluded code) (g : Secluded more) : Secluded (code ++ more) where
  jumps i member jump := by
    rw [labelsOf_append]
    rcases List.mem_append.mp member with left | right
    · exact (h.jumps i left jump).imp_left (List.mem_append_left _)
    · exact (g.jumps i right jump).imp_left (List.mem_append_right _)
  first i member := by
    cases code with
    | nil => exact g.first i member
    | cons j code => exact h.first i member

/-- Operations in place of a call follow its arguments, and have no operands of their own. -/
theorem operations (h : Secluded code) (some : code ≠ []) (times : Nat) (op : Opcode) :
    Secluded (code ++ List.replicate times op.bare) where
  jumps i member jump := by
    rw [labelsOf_append]
    rcases List.mem_append.mp member with left | right
    · exact (h.jumps i left jump).imp_left (List.mem_append_left _)
    · exact .inr (List.eq_of_mem_replicate right ▸ rfl)
  first := by
    rw [List.head?_append_of_ne_nil _ some]
    exact h.first

/-- The parts of a conditional, with the jump from one alternative past the other. -/
theorem branch {test no yes : List Instruction} (first : Secluded test) (some : test ≠ []) (second : Secluded no)
    (third : Secluded yes) {a b : Nat} (g : a ≤ maxOperand) (h : b ≤ maxOperand) :
    Secluded (test ++ [⟨.condJump, a, g⟩] ++ no ++ [⟨.jump, b, h⟩] ++ [⟨.label, a, g⟩] ++ yes ++ [⟨.label, b, h⟩]) where
  jumps i member jump := by
    simp only [labelsOf_append, List.mem_append, List.mem_singleton] at member ⊢
    rcases member with (((((test | rfl) | no) | rfl) | rfl) | yes) | rfl
    · exact (first.jumps i test jump).imp_left fun own => by simp [own]
    · cases jump
    · exact (second.jumps i no jump).imp_left fun own => by simp [own]
    · exact .inl (.inr (List.mem_singleton.mpr rfl))
    · cases jump
    · exact (third.jumps i yes jump).imp_left fun own => by simp [own]
    · cases jump
  first i member := by
    refine first.first i ?_
    obtain ⟨j, rest, rfl⟩ := List.exists_cons_of_ne_nil some
    exact member

end Chunk.Secluded

/-- Code that keeps to itself is added, and some at all if so stated. -/
def Workshop.Adjoins (w x : Workshop) (some : Prop) : Prop :=
  ∃ code, x.body.code = w.body.code ++ code ∧ Secluded code ∧ (some → code ≠ [])

section

variable {w u x : Workshop} {i : Instruction} {P Q : Prop}

namespace Workshop

theorem Adjoins.none (code : x.body.code = w.body.code) : w.Adjoins x False :=
  ⟨[], by rw [code, List.append_nil], .nil, False.elim⟩

theorem Adjoins.trans (h : w.Adjoins u P) (g : u.Adjoins x Q) : w.Adjoins x (P ∨ Q) := by
  obtain ⟨code, adds, secluded, some⟩ := h
  obtain ⟨more, adds', secluded', some'⟩ := g
  refine ⟨code ++ more, by rw [adds', adds, List.append_assoc], secluded.append secluded', ?_⟩
  rintro (left | right)
  · exact List.append_ne_nil_of_left_ne_nil (some left) more
  · exact List.append_ne_nil_of_right_ne_nil code (some' right)

theorem Adjoins.weaken (h : w.Adjoins x P) (less : Q → P) : w.Adjoins x Q := by
  obtain ⟨code, adds, secluded, some⟩ := h
  exact ⟨code, adds, secluded, fun q => some (less q)⟩

theorem adjoins_emit (h : i.op.acts) : w.Adjoins (w.emit i) True :=
  ⟨[i], rfl, .one h, fun _ => List.cons_ne_nil _ _⟩

theorem adjoins_emitConst {v : Value} (h : w.place v ≤ maxOperand) : w.Adjoins (w.emitConst v h) True :=
  ⟨_, rfl, .one rfl, fun _ => List.cons_ne_nil _ _⟩

theorem adjoins_reach (name : String) : w.Adjoins (w.reach name) False := by
  refine .none ?_
  unfold reach
  split <;> rfl

end Workshop

theorem Cell.Loads.adjoins {cell : Cell} (loads : cell.Loads i) : i.op.acts := by
  obtain ⟨kind, scope, index⟩ := cell
  rw [loads.1]
  cases scope <;> cases kind <;> rfl

theorem acts_of_callShape? {shape : Nat × Bool} (h : callShape? i = some shape) : i.op.acts := by
  unfold callShape? at h
  split at h
  next op => rw [op]; rfl
  next op => rw [op]; rfl
  next op => rw [op]; rfl
  next op => rw [op]; rfl
  · cases h

/-- The operations in place of calls in what stands under a clause. -/
def Phrase.operators : Phrase → List (Opcode × Nat)
  | .one e | .opened e => e.operators
  | .many es => Expr.operatorsIn es
  | _ => []

/-- The phrase is part of a clause. -/
def Phrase.IsPart : Phrase → Prop
  | .one _ | .opened _ | .many _ | .captured _ => True
  | _ => False

/-- Whether there is anything to emit for the phrase. -/
def Phrase.Speaks : Phrase → Prop
  | .one _ | .opened _ => True
  | .many es => es ≠ []
  | _ => False

/-- The code of an expression keeps to itself. -/
theorem Emits.adjoins {ph : Phrase} (h : Emits w ph x) (part : ph.IsPart)
    (applied : ∀ entry ∈ ph.operators, 0 < entry.2) : w.Adjoins x ph.Speaks := by
  induction h with
  | literal pushes =>
    rcases literal_adds pushes with ⟨i, ops, rfl⟩ | ⟨h, rfl⟩
    · refine adjoins_emit ?_
      simp only [List.mem_cons, List.not_mem_nil, or_false] at ops
      rcases ops with op | op | op | op | op <;> rw [op] <;> rfl
    · exact adjoins_emitConst h
  | const h => exact adjoins_emitConst h
  | name found plain loads => exact ((adjoins_reach _).trans (adjoins_emit loads.adjoins)).weaken .inr
  | through found reference loads =>
    exact (((adjoins_reach _).trans (adjoins_emit loads.adjoins)).trans (adjoins_emit rfl)).weaken .inr
  | later h => exact ((adjoins_emitConst h).trans (adjoins_emit rfl)).weaken .inl
  | seq before after ihBefore ihAfter =>
    obtain ⟨first, rest⟩ := List.forall_mem_append.mp applied
    exact (((ihBefore trivial first).trans (adjoins_emit rfl)).trans (ihAfter trivial rest)).weaken .inr
  | branch consequent done tests fails holds ihTest ihNo ihYes =>
    obtain ⟨both, yes⟩ := List.forall_mem_append.mp applied
    obtain ⟨test, no⟩ := List.forall_mem_append.mp both
    obtain ⟨testCode, tested, secluded, some⟩ := ihTest trivial test
    obtain ⟨noCode, failed, secluded', -⟩ := ihNo trivial no
    obtain ⟨yesCode, held, secluded'', -⟩ := ihYes trivial yes
    refine ⟨_, ?_, .branch secluded (some trivial) secluded' secluded'' consequent done, fun _ => by simp⟩
    simp only [emit, body_alter, Workshop.label] at tested failed held ⊢
    simp [held, failed, tested]
  | scope inside ih =>
    obtain ⟨code, adds, secluded, some⟩ := ih trivial applied
    exact ⟨code, by rw [code_leave, adds]; rfl, secluded, some⟩
  | define bound h g ih =>
    exact ((((ih trivial applied).trans (adjoins_emitConst h)).trans (adjoins_emit rfl)).trans
      (adjoins_emitConst g)).weaken .inr
  | mention which h g =>
    refine (((adjoins_emitConst h).trans (adjoins_emit ?_)).trans (adjoins_emitConst g)).weaken .inr
    rw [which]
    split <;> rfl
  | call operands operator calls ihArgs ihHead =>
    obtain ⟨args, head⟩ := List.forall_mem_append.mp applied
    have operated := (ihArgs trivial args).trans (ihHead trivial head)
    exact (operated.trans (adjoins_emit (acts_of_callShape? calls))).weaken .inr
  | @intrinsic w u op times args operands ih =>
    obtain ⟨own, others⟩ := List.forall_mem_cons.mp applied
    obtain ⟨code, adds, secluded, some⟩ := ih trivial others
    have given : code ≠ [] := some (List.ne_nil_of_length_pos own)
    refine ⟨code ++ List.replicate times op.bare, ?_, secluded.operations given times op, fun _ => ?_⟩
    · rw [← List.append_assoc, ← adds]
      rfl
    · exact List.append_ne_nil_of_left_ne_nil given _
  | constant inner alone built h ih => exact adjoins_emitConst h
  | closure inner some built loads h count ihInner ihLoads =>
    have loaded : Adjoins _ _ False := ihLoads trivial (fun _ member => absurd member List.not_mem_nil)
    exact ((loaded.trans (adjoins_emitConst h)).trans (adjoins_emit rfl)).weaken .inr
  | bind bound admits h after ihValue ihRest =>
    obtain ⟨value, rest⟩ := List.forall_mem_append.mp applied
    exact ((((ihValue trivial value).trans (.none (body_bindLocal _ _ _).1)).trans
      (adjoins_emit rfl)).trans (ihRest trivial rest)).weaken .inr
  | fresh admits h after ih =>
    exact ((((Adjoins.none (body_bindLocal _ _ _).1).trans (adjoins_emit rfl)).trans
      (adjoins_emit rfl)).trans (ih trivial applied)).weaken .inr
  | fill filled found reference loads after ihValue ihRest =>
    obtain ⟨value, rest⟩ := List.forall_mem_append.mp applied
    exact ((((ihValue trivial value).trans (adjoins_emit loads.adjoins)).trans (adjoins_emit rfl)).trans
      (ihRest trivial rest)).weaken .inr
  | last inside ih => exact ih trivial applied
  | none => exact (Adjoins.none rfl).weaken fun some => some rfl
  | more others first ihOthers ihFirst =>
    obtain ⟨own, rest⟩ := List.forall_mem_append.mp applied
    exact ((ihOthers trivial rest).trans (ihFirst trivial own)).weaken fun _ => .inr trivial
  | loaded => exact .none rfl
  | load found loads others ih =>
    exact (((adjoins_reach _).trans (adjoins_emit loads.adjoins)).trans
      (ih trivial fun _ member => absurd member List.not_mem_nil)).weaken .inr
  | clause | caseNone | caseMore | single | several => exact part.elim

end

namespace Chunk

variable {code cur front back : List Instruction} {pc label : Nat} {i : Instruction}

/-- Control does something before it could return or jump. -/
inductive Blocked (code : List Instruction) : Nat → Prop
  | acts {pc : Nat} {i : Instruction} (here : code[pc]? = some i) (acts : i.op.acts) : Blocked code pc
  | label {pc : Nat} {i : Instruction} (here : code[pc]? = some i) (label : i.op = .label)
      (next : Blocked code (pc + 1)) : Blocked code pc

/-- Where the label is anchored, if it is, control does something. -/
def Bars (code : List Instruction) (label : Nat) : Prop :=
  ∀ (pc : Nat) (i : Instruction), code[pc]? = some i → i.op = .label → i.operand = label → Blocked code pc

/-- All but jumps is as it was. -/
def Spares (code cur : List Instruction) : Prop :=
  ∀ (k : Nat) (i : Instruction), code[k]? = some i → i.op ≠ .jump → cur[k]? = some i

theorem Spares.append {first second : List Instruction} (length : first.length = front.length)
    (h : Spares front first) (g : Spares back second) : Spares (front ++ back) (first ++ second) := by
  intro k i here plain
  by_cases inside : k < front.length
  · rw [List.getElem?_append_left inside] at here
    rw [List.getElem?_append_left (length ▸ inside)]
    exact h k i here plain
  · rw [List.getElem?_append_right (Nat.le_of_not_lt inside)] at here
    rw [List.getElem?_append_right (length ▸ Nat.le_of_not_lt inside), length]
    exact g _ i here plain

theorem Blocked.leadsToReturn_eq (h : Blocked code pc) (spares : Spares code cur) :
    leadsToReturn cur pc = false := by
  induction h with
  | @acts pc i here acts =>
    have plain (op : Opcode) (other : op.acts = false) : i.op ≠ op := fun same => by
      rw [same, other] at acts
      cases acts
    rw [leadsToReturn_plain (spares _ _ here (plain .jump rfl)) (plain .label rfl)]
    exact decide_eq_false (plain .ret rfl)
  | label here label next ih =>
    rw [leadsToReturn_label (spares _ _ here (by simp [label])) label, ih]

theorem lastAnchor?_eq_some_iff (distinct : (labelsOf code).Nodup) :
    lastAnchor? code label = some pc ↔ ∃ i, code[pc]? = some i ∧ i.op = .label ∧ i.operand = label := by
  rw [lastAnchor?_eq_anchor? distinct, anchor?_eq_some_iff distinct]

theorem lastAnchor?_of_mem (distinct : (labelsOf code).Nodup) (member : label ∈ labelsOf code) :
    ∃ pc i, lastAnchor? code label = some pc ∧ code[pc]? = some i ∧ i.op = .label ∧ i.operand = label := by
  obtain ⟨i, inside, is, named⟩ := mem_labelsOf.mp member
  obtain ⟨pc, here⟩ := List.mem_iff_getElem?.mp inside
  exact ⟨pc, i, (lastAnchor?_eq_some_iff distinct).mpr ⟨i, here, is, named⟩, here, is, named⟩

theorem Bars.any_eq_false (bars : Bars code label) (distinct : (labelsOf code).Nodup) (spares : Spares code cur) :
    (lastAnchor? code label).any (leadsToReturn cur) = false := by
  cases found : lastAnchor? code label with
  | none => rfl
  | some pc =>
    obtain ⟨i, here, is, named⟩ := (lastAnchor?_eq_some_iff distinct).mp found
    exact (bars pc i here is named).leadsToReturn_eq spares

theorem leadsToReturn_front (some : (skipLabels (front.drop pc)).isSome) :
    leadsToReturn (front ++ back) pc = leadsToReturn front pc := by
  obtain ⟨i, found⟩ := Option.isSome_iff_exists.mp some
  have inside : pc ≤ front.length := by
    by_contra beyond
    rw [List.drop_eq_nil_of_le (Nat.le_of_not_le beyond)] at found
    cases found
  unfold leadsToReturn skipLabels at *
  rw [List.drop_append_of_le_length inside, List.find?_append, found]
  rfl

theorem leadsToReturn_eq_false_front (h : leadsToReturn (front ++ back) pc = false) :
    leadsToReturn front pc = false := by
  cases some : skipLabels (front.drop pc) with
  | none => rw [leadsToReturn, some, Option.any_none]
  | some i => rw [← h, leadsToReturn_front (by rw [some]; rfl)]

/-- Control does not leave the code at its end. -/
def Closed (code : List Instruction) : Prop :=
  ∀ i ∈ code.getLast?, i.op.effect.exits

/-- From no label of closed code control goes past it. -/
theorem leadsToReturn_closed (closed : Closed front) (inside : pc < front.length) :
    leadsToReturn (front ++ back) pc = leadsToReturn front pc := by
  refine leadsToReturn_front (List.find?_isSome.mpr ?_)
  have some : front ≠ [] := List.ne_nil_of_length_pos (Nat.zero_lt_of_lt inside)
  have exits := closed _ (List.getLast?_eq_some_getLast some)
  refine ⟨front.getLast some, ?_, decide_eq_true fun label => ?_⟩
  swap
  · rw [label] at exits
    cases exits
  have rest : front.drop pc ≠ [] := mt List.drop_eq_nil_iff.mp (Nat.not_le.mpr inside)
  rw [← List.getLast_drop rest]
  exact List.getLast_mem _

theorem leadsToReturn_back (front back : List Instruction) (pc : Nat) :
    leadsToReturn (front ++ back) (front.length + pc) = leadsToReturn back pc := by
  unfold leadsToReturn
  rw [← List.drop_drop, List.drop_left]

section

variable {address? address'? : Nat → Option Nat}

theorem returnEarlyAt_front (inside : pc < front.length)
    (same : ∀ i, front[pc]? = some i → i.op = .jump →
      (address? i.operand).any (leadsToReturn (front ++ back)) = (address'? i.operand).any (leadsToReturn front)) :
    returnEarlyAt address? (front ++ back) pc = returnEarlyAt address'? front pc ++ back := by
  have here : front[pc]? = some front[pc] := List.getElem?_eq_getElem inside
  unfold returnEarlyAt
  rw [List.getElem?_append_left inside, here]
  dsimp only
  by_cases jump : front[pc].op = .jump
  · rw [same _ here jump, List.set_append_left _ _ inside]
    split <;> rfl
  · simp [jump]

theorem returnEarlyAt_back (inside : pc < back.length)
    (same : ∀ i, back[pc]? = some i → i.op = .jump →
      (address? i.operand).any (leadsToReturn (front ++ back)) = (address'? i.operand).any (leadsToReturn back)) :
    returnEarlyAt address? (front ++ back) (front.length + pc) = front ++ returnEarlyAt address'? back pc := by
  have here : back[pc]? = some back[pc] := List.getElem?_eq_getElem inside
  have place : front.length + pc - front.length = pc := Nat.add_sub_cancel_left ..
  unfold returnEarlyAt
  rw [List.getElem?_append_right (Nat.le_add_right ..), place, here]
  dsimp only
  by_cases jump : back[pc].op = .jump
  · rw [same _ here jump, List.set_append_right _ _ (Nat.le_add_right ..), place]
    split <;> rfl
  · simp [jump]

end

theorem Early.closed {n : Nat} (early : Early code cur n) (closed : Closed code) : Closed cur := by
  unfold Closed at closed ⊢
  rw [List.getLast?_eq_getElem?] at closed ⊢
  rw [early.length]
  intro i here
  cases there : code[code.length - 1]? with
  | none =>
    have inside := (List.getElem?_eq_some_iff.mp here).1
    rw [early.length] at inside
    cases (List.getElem?_eq_none_iff.mp there).not_gt inside
  | some j =>
    by_cases jump : j.op = .jump
    · rcases early.jumps there jump with same | ret
      · obtain rfl := Option.some.inj (here.symm.trans same)
        rw [jump]
        rfl
      · obtain rfl := Option.some.inj (here.symm.trans ret)
        rfl
    · obtain rfl := Option.some.inj (here.symm.trans (early.kept there jump))
      exact closed i there

section

variable {n : Nat}

/-- Whether a jump of the first part of code is to become a return is told by this part alone, if its label is
there and leads to no other, or bars the way. -/
theorem any_front (distinct : (labelsOf (front ++ back)).Nodup) (early : Early front cur n)
    (goal : label ∈ labelsOf front ∧ Closed front ∨ Bars (front ++ back) label) :
    (lastAnchor? (front ++ back) label).any (leadsToReturn (cur ++ back)) =
      (lastAnchor? front label).any (leadsToReturn cur) := by
  have left := (List.nodup_append.mp (labelsOf_append front back ▸ distinct)).1
  have whole {pc : Nat} {i : Instruction} (there : front[pc]? = some i) :
      pc < front.length ∧ (front ++ back)[pc]? = some i := by
    have inside := (List.getElem?_eq_some_iff.mp there).1
    exact ⟨inside, List.getElem?_append_left inside ▸ there⟩
  rcases goal with ⟨own, closed⟩ | bars
  · obtain ⟨pc, i, found, there, is, named⟩ := lastAnchor?_of_mem left own
    obtain ⟨inside, here⟩ := whole there
    rw [found, (lastAnchor?_eq_some_iff distinct).mpr ⟨i, here, is, named⟩]
    exact leadsToReturn_closed (early.closed closed) (early.length ▸ inside)
  · have spares : Spares (front ++ back) (cur ++ back) :=
      .append early.length (fun k i => early.kept) fun k i here _ => here
    rw [bars.any_eq_false distinct spares]
    cases found : lastAnchor? front label with
    | none => rfl
    | some pc =>
      obtain ⟨i, there, is, named⟩ := (lastAnchor?_eq_some_iff left).mp found
      have blocked := bars pc i (whole there).2 is named
      exact (leadsToReturn_eq_false_front (blocked.leadsToReturn_eq spares)).symm

/-- So is whether one of the second part is. -/
theorem any_back {first : List Instruction} {m : Nat} (distinct : (labelsOf (front ++ back)).Nodup)
    (before : Early front first m) (early : Early back cur n)
    (goal : label ∈ labelsOf back ∨ Bars (front ++ back) label) :
    (lastAnchor? (front ++ back) label).any (leadsToReturn (first ++ cur)) =
      (lastAnchor? back label).any (leadsToReturn cur) := by
  have right := (List.nodup_append.mp (labelsOf_append front back ▸ distinct)).2.1
  have whole {pc : Nat} {i : Instruction} (there : back[pc]? = some i) :
      (front ++ back)[front.length + pc]? = some i := by
    rw [List.getElem?_append_right (Nat.le_add_right ..), Nat.add_sub_cancel_left, there]
  rcases goal with own | bars
  · obtain ⟨pc, i, found, there, is, named⟩ := lastAnchor?_of_mem right own
    rw [found, (lastAnchor?_eq_some_iff distinct).mpr ⟨i, whole there, is, named⟩, ← before.length]
    exact leadsToReturn_back _ _ pc
  · have spares : Spares (front ++ back) (first ++ cur) :=
      .append before.length (fun k i => before.kept) fun k i => early.kept
    rw [bars.any_eq_false distinct spares]
    cases found : lastAnchor? back label with
    | none => rfl
    | some pc =>
      obtain ⟨i, there, is, named⟩ := (lastAnchor?_eq_some_iff right).mp found
      have blocked := (bars _ i (whole there) is named).leadsToReturn_eq spares
      rw [← before.length, leadsToReturn_back] at blocked
      exact blocked.symm

end

/-- Two parts of code whose jumps stay in their part, or come to a label that leads to no return, have their
returns brought forward apart. -/
theorem returnEarly_append (distinct : (labelsOf (front ++ back)).Nodup)
    (ahead : ∀ i ∈ front, i.op = .jump → i.operand ∈ labelsOf front ∧ Closed front ∨ Bars (front ++ back) i.operand)
    (behind : ∀ i ∈ back, i.op = .jump → i.operand ∈ labelsOf back ∨ Bars (front ++ back) i.operand) :
    returnEarly (front ++ back) = returnEarly front ++ returnEarly back := by
  -- the sweep goes through the first part, and leaves the second as it is
  have first : ∀ n ≤ front.length,
      (List.range n).foldl (returnEarlyAt (lastAnchor? (front ++ back))) (front ++ back) =
        (List.range n).foldl (returnEarlyAt (lastAnchor? front)) front ++ back := by
    intro n small
    induction n with
    | zero => rfl
    | succ n ih =>
      have early := early_sweep front n
      rw [List.range_succ, List.foldl_append, List.foldl_append, ih (Nat.le_of_succ_le small)]
      refine returnEarlyAt_front (early.length ▸ small) fun i here jump => ?_
      rw [early.ahead (Nat.le_refl n)] at here
      exact any_front distinct early (ahead i (List.mem_of_getElem? here) jump)
  -- then it goes through the second
  have before := early_returnEarly front
  have second : ∀ n ≤ back.length,
      (List.range n).foldl (fun code k => returnEarlyAt (lastAnchor? (front ++ back)) code (front.length + k))
          (returnEarly front ++ back) =
        returnEarly front ++ (List.range n).foldl (returnEarlyAt (lastAnchor? back)) back := by
    intro n small
    induction n with
    | zero => rfl
    | succ n ih =>
      have early := early_sweep back n
      rw [List.range_succ, List.foldl_append, List.foldl_append, ih (Nat.le_of_succ_le small)]
      simp only [List.foldl_cons, List.foldl_nil]
      rw [← before.length]
      refine returnEarlyAt_back (early.length ▸ small) fun i here jump => ?_
      rw [early.ahead (Nat.le_refl n)] at here
      exact any_back distinct before early (behind i (List.mem_of_getElem? here) jump)
  have all := second back.length (Nat.le_refl _)
  rw [← List.foldl_map (f := (front.length + ·)) (g := returnEarlyAt (lastAnchor? (front ++ back)))] at all
  unfold returnEarly at all ⊢
  rw [List.length_append, List.range_add, List.foldl_append, first _ (Nat.le_refl _), all]

end Chunk

end StackLisp
