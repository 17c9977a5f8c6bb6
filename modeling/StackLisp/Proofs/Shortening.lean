import Mathlib.Algebra.GroupWithZero.Nat
import StackLisp.Proofs.Acceptance

/-!
What the shortening passes do to code, whatever its paths. Each instruction of the shorter code stands for
one address of the longer: it is the instruction there, or it returns where the longer code goes on to a
return. Three passes in turn do no more than that.
-/

namespace StackLisp.Chunk

/-- Labels and jumps lead control from an address to a return. -/
inductive Exits (code : List Instruction) : Nat → Prop
  | ret {pc : Nat} {i : Instruction} (here : code[pc]? = some i) (ret : i.op = .ret) : Exits code pc
  | label {pc : Nat} {i : Instruction} (here : code[pc]? = some i) (label : i.op = .label)
      (next : Exits code (pc + 1)) : Exits code pc
  | jump {pc target : Nat} {i : Instruction} (here : code[pc]? = some i) (jump : i.op = .jump)
      (goal : anchor? code i.operand = some target) (next : Exits code target) : Exits code pc

/-- A return or tail call does what an instruction does that is followed by a return. -/
def Closes (i short : Instruction) : Prop :=
  (∃ op, fused? i.op = some op ∧ short = op.bare) ∨ tailForm? i = some short

/-- What an instruction of the shorter code stands for at an address of the longer, and which address
comes after it. -/
inductive StandsFor (code : List Instruction) (pc next : Nat) (short : Instruction) : Prop
  | same (here : code[pc]? = some short) (onward : short.op.effect.exits = false → next = pc + 1)
  | ret (exits : Exits code pc) (returns : short = Opcode.ret.bare)
  | closes {i : Instruction} (here : code[pc]? = some i) (closes : Closes i short)
      (exits : Exits code (pc + 1))

/-- The shorter code does what the longer does; `source` gives the address that one of its own stands
for. -/
structure Shortens (code short : List Instruction) (source : Nat → Nat) : Prop where
  start : source 0 = 0
  labels : labelsOf short = labelsOf code
  stands : ∀ {pc : Nat} {i : Instruction}, short[pc]? = some i →
    StandsFor code (source pc) (source (pc + 1)) i
  ends : ∀ {pc : Nat}, short[pc]? = none → code[source pc]? = none

variable {code mid short : List Instruction} {source first second : Nat → Nat}

/-- What closes a call takes the operands of the instruction that it closes with, and no label or slot. -/
structure Closes.Spec (i short : Instruction) : Prop where
  pops : short.pops = i.pops
  pushes : short.pushes = 0 ∧ i.pushes = 1
  exits : short.op.effect.exits ∧ i.op.effect.exits = false
  operand : short.op.effect.operand ≠ .labels ∧ short.op.effect.operand ≠ .locals

theorem Closes.spec {i short : Instruction} (h : Closes i short) : Closes.Spec i short := by
  obtain ⟨op, operand, small⟩ := i
  rcases h with ⟨fused, fuses, rfl⟩ | form
  · cases op <;> cases fuses <;> exact ⟨rfl, ⟨rfl, rfl⟩, ⟨rfl, rfl⟩, nofun, nofun⟩
  · cases op <;> cases form <;> exact ⟨rfl, ⟨rfl, rfl⟩, ⟨rfl, rfl⟩, nofun, nofun⟩

/-- An instruction with a label or a slot stands for itself. -/
theorem StandsFor.same_of_operand {pc next : Nat} {i : Instruction} (h : StandsFor code pc next i)
    (operand : i.op.effect.operand = .labels ∨ i.op.effect.operand = .locals) :
    code[pc]? = some i ∧ (i.op.effect.exits = false → next = pc + 1) := by
  cases h with
  | same here onward => exact ⟨here, onward⟩
  | ret exits returns =>
    subst returns
    rcases operand with labels | locals
    · cases labels
    · cases locals
  | closes here closes exits => exact absurd operand (not_or.mpr closes.spec.operand)

/-- So does one that control goes on from. -/
theorem StandsFor.same_of_stays {pc next : Nat} {i : Instruction} (h : StandsFor code pc next i)
    (stays : i.op.effect.exits = false) : code[pc]? = some i ∧ next = pc + 1 := by
  cases h with
  | same here onward => exact ⟨here, onward stays⟩
  | ret exits returns =>
    subst returns
    cases stays
  | closes here closes exits => cases closes.spec.exits.1.symm.trans stays

theorem anchor?_eq_some_iff (distinct : (labelsOf code).Nodup) {label target : Nat} :
    anchor? code label = some target ↔ ∃ i, code[target]? = some i ∧ i.op = .label ∧ i.operand = label := by
  have listed : ∀ {pc : Nat}, anchor? code label = some pc →
      ∃ i, code[pc]? = some i ∧ i.op = .label ∧ i.operand = label := fun found => by
    obtain ⟨i, here, anchors, same⟩ := anchor?_spec found
    exact ⟨i, here, anchors_iff.mp anchors, same⟩
  refine ⟨listed, ?_⟩
  rintro ⟨i, here, is, rfl⟩
  have present : (anchor? code i.operand).isSome := by
    unfold anchor?
    rw [List.findIdx?_isSome, List.any_eq_true]
    exact ⟨i, List.mem_of_getElem? here, by simp [anchors_iff.mpr is]⟩
  obtain ⟨pc, found⟩ := Option.isSome_iff_exists.mp present
  obtain ⟨j, there, label, same⟩ := listed found
  have last := lastAnchor?_eq distinct here is
  rw [← same, lastAnchor?_eq distinct there label] at last
  rw [found, last]

theorem anchor?_isSome {label : Nat} : (anchor? code label).isSome ↔ label ∈ labelsOf code := by
  unfold anchor? labelsOf
  rw [List.findIdx?_isSome, List.any_eq_true, List.mem_filterMap]
  refine exists_congr fun i => and_congr_right fun _ => ?_
  rw [Bool.and_eq_true, decide_eq_true_eq, anchors_iff]
  split <;> simp_all

theorem lastAnchor?_eq_anchor? (distinct : (labelsOf code).Nodup) (label : Nat) :
    lastAnchor? code label = anchor? code label := by
  cases found : anchor? code label with
  | none =>
    refine foldl_anchors_absent code 0 none fun present => ?_
    rw [← anchor?_isSome, found] at present
    cases present
  | some target =>
    obtain ⟨i, here, is, rfl⟩ := (anchor?_eq_some_iff distinct).mp found
    exact lastAnchor?_eq distinct here is

namespace Shortens

theorem refl (code : List Instruction) : Shortens code code id where
  start := rfl
  labels := rfl
  stands here := .same here fun _ => rfl
  ends beyond := beyond

theorem anchor (h : Shortens code short source) (distinct : (labelsOf code).Nodup) {label target : Nat}
    (found : anchor? short label = some target) : anchor? code label = some (source target) := by
  obtain ⟨i, here, is, same⟩ := (anchor?_eq_some_iff (h.labels ▸ distinct)).mp found
  refine (anchor?_eq_some_iff distinct).mpr ⟨i, ?_, is, same⟩
  exact ((h.stands here).same_of_operand (.inl (by rw [is]; rfl))).1

theorem exits (h : Shortens code mid source) (distinct : (labelsOf code).Nodup) {pc : Nat}
    (leads : Exits mid pc) : Exits code (source pc) := by
  induction leads with
  | ret here ret =>
    cases h.stands here with
    | same here onward => exact .ret here ret
    | ret exits returns => exact exits
    | closes here closes exits =>
      rcases closes with ⟨op, fuses, rfl⟩ | form
      · obtain ⟨-, fused⟩ := fused?_cases fuses
        obtain rfl : op = .ret := ret
        simp at fused
      · obtain ⟨count, -, shape⟩ := callShape?_of_tailForm? form
        simp [callShape?, ret] at shape
  | label here label next ih =>
    obtain ⟨there, onward⟩ := (h.stands here).same_of_stays (by rw [label]; rfl)
    exact .label there label (onward ▸ ih)
  | jump here jump goal next ih =>
    obtain ⟨there, -⟩ := (h.stands here).same_of_operand (.inl (by rw [jump]; rfl))
    exact .jump there jump (h.anchor distinct goal) ih

theorem trans (h : Shortens code mid first) (g : Shortens mid short second)
    (distinct : (labelsOf code).Nodup) : Shortens code short (first ∘ second) where
  start := by rw [Function.comp_apply, g.start, h.start]
  labels := g.labels.trans h.labels
  ends beyond := h.ends (g.ends beyond)
  stands {pc i} here := by
    cases g.stands here with
    | same there onward =>
      cases h.stands there with
      | same source next => exact .same source fun stays => (congrArg first (onward stays)).trans (next stays)
      | ret exits returns => exact .ret exits returns
      | closes source closes exits => exact .closes source closes exits
    | ret exits returns => exact .ret (h.exits distinct exits) returns
    | closes there closes exits =>
      obtain ⟨source, next⟩ := (h.stands there).same_of_stays closes.spec.exits.2
      exact .closes source closes (next ▸ h.exits distinct exits)

end Shortens

theorem exits_of_leadsToReturn {pc : Nat} (leads : leadsToReturn code pc = true) : Exits code pc := by
  cases here : code[pc]? with
  | none =>
    rw [leadsToReturn, List.drop_eq_nil_iff.mpr (List.getElem?_eq_none_iff.mp here)] at leads
    cases leads
  | some i =>
    by_cases label : i.op = .label
    · rw [leadsToReturn_label here label] at leads
      have inside : pc < code.length := (List.getElem?_eq_some_iff.mp here).1
      exact .label here label (exits_of_leadsToReturn leads)
    · rw [leadsToReturn_plain here label, decide_eq_true_eq] at leads
      exact .ret here leads
termination_by code.length - pc

theorem labelsOf_set {pc : Nat} {i j : Instruction} (here : code[pc]? = some i) (plain : i.op ≠ .label)
    (new : j.op ≠ .label) : labelsOf (code.set pc j) = labelsOf code := by
  obtain ⟨inside, rfl⟩ := List.getElem?_eq_some_iff.mp here
  have split : labelsOf code = labelsOf (code.take pc) ++ labelsOf (code.drop (pc + 1)) := by
    rw [← labelsOf_cons_plain plain (code.drop (pc + 1)), ← List.drop_eq_getElem_cons inside,
      ← labelsOf_append, List.take_append_drop]
  rw [List.set_eq_take_append_cons_drop, if_pos inside, labelsOf_append, labelsOf_cons_plain new, split]

/-- One address of the first pass: a jump that leads to a return becomes one. -/
theorem Shortens.returnEarlyAt (h : Shortens code mid id) (distinct : (labelsOf code).Nodup) (pc : Nat) :
    Shortens code (returnEarlyAt (lastAnchor? code) mid pc) id := by
  unfold Chunk.returnEarlyAt
  split
  next i here =>
    split
    next returns =>
      rw [Bool.and_eq_true, decide_eq_true_eq, lastAnchor?_eq_anchor? distinct] at returns
      obtain ⟨jump, leads⟩ := returns
      obtain ⟨target, goal, leads⟩ := (Option.any_eq_true ..).mp leads
      obtain ⟨there, -⟩ := (h.stands here).same_of_operand (.inl (by rw [jump]; rfl))
      have exits : Exits code pc :=
        .jump there jump goal (h.exits distinct (exits_of_leadsToReturn leads))
      refine ⟨h.start, ?_, fun {k j} found => ?_, fun {k} beyond => ?_⟩
      · rw [labelsOf_set here (by simp [jump]) (by simp [Opcode.bare]), h.labels]
      · by_cases same : pc = k
        · subst same
          rw [List.getElem?_set_self (List.getElem?_eq_some_iff.mp here).1] at found
          exact .ret exits (Option.some.inj found).symm
        · rw [List.getElem?_set_ne same] at found
          exact h.stands found
      · refine h.ends ?_
        rw [List.getElem?_eq_none_iff, List.length_set] at beyond
        exact List.getElem?_eq_none_iff.mpr beyond
    next => exact h
  next => exact h

theorem shortens_returnEarly (distinct : (labelsOf code).Nodup) : Shortens code (returnEarly code) id :=
  List.foldlRecOn (motive := fun early => Shortens code early id) (List.range code.length) _
    (Shortens.refl code) fun _ h pc _ => h.returnEarlyAt distinct pc

/-- Code and a shorter one side by side: instructions stay, or close with a return that follows. The list
between says how many instructions of the first each of the second stands for. -/
inductive Trims : List Instruction → List Nat → List Instruction → Prop
  | nil : Trims [] [] []
  | keep (i : Instruction) {code short : List Instruction} {widths : List Nat}
    (rest : Trims code widths short) : Trims (i :: code) (1 :: widths) (i :: short)
  | close {i k : Instruction} {code short : List Instruction} {widths : List Nat} (closes : Closes i k)
    (leads : leadsToReturn code 0 = true) (rest : Trims code widths short) :
    Trims (i :: code) (1 :: widths) (k :: short)
  | drop {i j k : Instruction} {code short : List Instruction} {widths : List Nat} (closes : Closes i k)
    (ret : j.op = .ret) (rest : Trims code widths short) :
    Trims (i :: j :: code) (2 :: widths) (k :: short)

/-- An instruction stays and goes on to the next, or closes with a return that follows. -/
def Trimmed (code : List Instruction) (pc next : Nat) (k : Instruction) : Prop :=
  (code[pc]? = some k ∧ next = pc + 1) ∨
    ∃ i, code[pc]? = some i ∧ Closes i k ∧ leadsToReturn code (pc + 1) = true

theorem Trimmed.cons {pc next : Nat} {k : Instruction} (h : Trimmed code pc next k) (i : Instruction) :
    Trimmed (i :: code) (1 + pc) (1 + next) k := by
  rw [Nat.add_comm 1, Nat.add_comm 1]
  rcases h with ⟨here, rfl⟩ | ⟨j, here, closes, leads⟩
  · exact .inl ⟨here, rfl⟩
  · exact .inr ⟨j, here, closes, leads⟩

theorem Trimmed.standsFor {pc next : Nat} {k : Instruction} (h : Trimmed code pc next k) :
    StandsFor code pc next k := by
  rcases h with ⟨here, onward⟩ | ⟨i, here, closes, leads⟩
  · exact .same here fun _ => onward
  · exact .closes here closes (exits_of_leadsToReturn leads)

namespace Trims

variable {widths : List Nat}

theorem trimmed (h : Trims code widths short) {pc : Nat} {k : Instruction} (here : short[pc]? = some k) :
    Trimmed code (widths.take pc).sum (widths.take (pc + 1)).sum k := by
  induction h generalizing pc with
  | nil => cases here
  | keep i rest ih =>
    cases pc with
    | zero => exact .inl ⟨here, by simp⟩
    | succ pc =>
      rw [List.take_succ_cons, List.take_succ_cons, List.sum_cons, List.sum_cons]
      exact (ih here).cons i
  | @close i _ _ _ _ closes leads rest ih =>
    cases pc with
    | zero =>
      obtain rfl := Option.some.inj here
      exact .inr ⟨_, rfl, closes, leads⟩
    | succ pc =>
      rw [List.take_succ_cons, List.take_succ_cons, List.sum_cons, List.sum_cons]
      exact (ih here).cons i
  | @drop i j _ code _ _ closes ret rest ih =>
    cases pc with
    | zero =>
      obtain rfl := Option.some.inj here
      refine .inr ⟨_, rfl, closes, ?_⟩
      change leadsToReturn (j :: code) 0 = true
      rw [leadsToReturn_cons_plain (by simp [ret]), decide_eq_true ret]
    | succ pc =>
      rw [List.take_succ_cons, List.take_succ_cons, List.sum_cons, List.sum_cons]
      have shifted := ((ih here).cons j).cons i
      rwa [← Nat.add_assoc, ← Nat.add_assoc] at shifted

theorem ends (h : Trims code widths short) {pc : Nat} (beyond : short.length ≤ pc) :
    code.length ≤ (widths.take pc).sum := by
  induction h generalizing pc with
  | nil => exact Nat.zero_le _
  | keep _ _ ih | close _ _ _ ih | drop _ _ _ ih =>
    obtain ⟨pc, rfl⟩ := Nat.exists_eq_succ_of_ne_zero (Nat.ne_of_gt (Nat.lt_of_lt_of_le (Nat.succ_pos _) beyond))
    have rest := ih (Nat.le_of_succ_le_succ beyond)
    rw [List.take_succ_cons, List.sum_cons]
    simp only [List.length_cons]
    omega

theorem shortens (h : Trims code widths short) (labels : labelsOf short = labelsOf code) :
    Shortens code short fun pc => (widths.take pc).sum where
  start := rfl
  labels
  stands here := (h.trimmed here).standsFor
  ends beyond := List.getElem?_eq_none_iff.mpr (h.ends (List.getElem?_eq_none_iff.mp beyond))

end Trims

theorem trims_fuseReturns (code : List Instruction) : ∃ widths, Trims code widths (fuseReturns code) := by
  fun_induction fuseReturns code with
  | case1 => exact ⟨_, .nil⟩
  | case2 i => exact ⟨_, .keep i .nil⟩
  | case3 i j code op fuses ret ih =>
    obtain ⟨widths, rest⟩ := ih
    exact ⟨_, .drop (.inl ⟨op, fuses, rfl⟩) ret rest⟩
  | case4 i j code op fuses other ih =>
    obtain ⟨widths, rest⟩ := ih
    exact ⟨_, .keep i rest⟩
  | case5 i j code none ih =>
    obtain ⟨widths, rest⟩ := ih
    exact ⟨_, .keep i rest⟩

theorem trims_convertTailCalls (code : List Instruction) :
    ∃ widths, Trims code widths (convertTailCalls code) := by
  fun_induction convertTailCalls code with
  | case1 => exact ⟨_, .nil⟩
  | case2 i code none ih =>
    obtain ⟨widths, rest⟩ := ih
    exact ⟨_, .keep i rest⟩
  | case3 i tail form => exact ⟨_, .keep i .nil⟩
  | case4 i tail form j rest ret ih =>
    obtain ⟨widths, trims⟩ := ih
    exact ⟨_, .drop (.inr form) ret trims⟩
  | case5 i tail form j rest other leads ih =>
    obtain ⟨widths, trims⟩ := ih
    exact ⟨_, .close (.inr form) leads trims⟩
  | case6 i tail form j rest other stays ih =>
    obtain ⟨widths, trims⟩ := ih
    exact ⟨_, .keep i trims⟩

/-- The three passes shorten code in which no label comes twice. -/
theorem shortens_shorten (distinct : (labelsOf code).Nodup) :
    ∃ source, Shortens code (shorten code) source := by
  have early := shortens_returnEarly distinct
  have distinctEarly : (labelsOf (returnEarly code)).Nodup := early.labels ▸ distinct
  obtain ⟨_, fused⟩ := trims_fuseReturns (returnEarly code)
  obtain ⟨_, converted⟩ := trims_convertTailCalls (fuseReturns (returnEarly code))
  have fuses := fused.shortens (labelsOf_fuseReturns _)
  have converts := converted.shortens (labelsOf_convertTailCalls _)
  exact ⟨_, early.trans (fuses.trans converts distinctEarly) distinct⟩

/-- On the way to a return there is a value to return. -/
theorem Exits.depth_pos {checked : Checked} (covers : checked.Covers code) {pc depth : Nat}
    (h : Exits code pc) (reached : checked.depths[pc]? = some (some depth)) : 0 < depth := by
  induction h generalizing depth with
  | ret here ret =>
    obtain ⟨i, there, pops, -⟩ := covers.supports reached
    obtain rfl := Option.some.inj (here.symm.trans there)
    rwa [Instruction.pops, ret] at pops
  | label here label next ih =>
    have onward := covers.next reached here (by rw [label]; rfl)
    have low := ih onward
    rwa [Instruction.depthAfter, Instruction.pops, Instruction.pushes, label] at low
  | jump here jump goal next ih =>
    have onward := covers.target reached here (by rw [jump]; rfl) goal
    have low := ih onward
    rwa [Instruction.depthAfter, Instruction.pops, Instruction.pushes, jump] at low

theorem Shortens.levels (h : Shortens code short source) (distinct : (labelsOf code).Nodup)
    {checked : Checked} (covers : checked.Covers code) :
    Levels short checked.stackSize fun pc depth => checked.depths[source pc]? = some (some depth) where
  start := by
    rw [h.start]
    exact covers.start
  single first second := Option.some.inj (Option.some.inj (first.symm.trans second))
  supports {pc depth} reached := by
    obtain ⟨i, there, pops, before, after⟩ := covers.supports reached
    cases here : short[pc]? with
    | none => cases there.symm.trans (h.ends here)
    | some k =>
      refine ⟨k, here, ?_⟩
      cases h.stands here with
      | same same onward =>
        obtain rfl := Option.some.inj (there.symm.trans same)
        exact ⟨pops, before, after⟩
      | ret exits returns =>
        subst returns
        refine ⟨exits.depth_pos covers reached, before, ?_⟩
        exact Nat.le_trans (Nat.sub_le depth 1) before
      | closes same closes exits =>
        obtain rfl := Option.some.inj (there.symm.trans same)
        have spec := closes.spec
        refine ⟨spec.pops ▸ pops, before, ?_⟩
        rw [Instruction.depthAfter, spec.pushes.1]
        exact Nat.le_trans (Nat.sub_le depth _) before
  next {pc depth i} reached here stays := by
    obtain ⟨there, onward⟩ := (h.stands here).same_of_stays stays
    rw [onward]
    exact covers.next reached there stays
  target {pc depth target i} reached here jumps goal := by
    obtain ⟨there, -⟩ := (h.stands here).same_of_operand (.inl (Opcode.operand_of_jumps jumps))
    exact covers.target reached there jumps (h.anchor distinct goal)

theorem Shortens.mem_of_operand (h : Shortens code short source) {i : Instruction} (member : i ∈ short)
    (operand : i.op.effect.operand = .labels ∨ i.op.effect.operand = .locals) : i ∈ code := by
  obtain ⟨pc, here⟩ := List.getElem?_of_mem member
  exact List.mem_of_getElem? ((h.stands here).same_of_operand operand).1

theorem Shortens.anchor_isSome (h : Shortens code short source) (label : Nat) :
    (anchor? code label).isSome = (anchor? short label).isSome := by
  rw [Bool.eq_iff_iff, anchor?_isSome, anchor?_isSome, h.labels]

/-- Code that is accepted is accepted when it is shortened, with no more of the stack. -/
theorem Shortens.verify {c d : Chunk} (h : Shortens c.code d.code source) {checked : Checked}
    (accepted : c.verify = .ok checked) :
    ∃ shortened, d.verify = .ok shortened ∧ shortened.stackSize ≤ checked.stackSize := by
  have distinct := labels_nodup_of_verify accepted
  have covers := verify_covers accepted
  have anchored : ∀ i ∈ d.code, i.op.jumps → (anchor? d.code i.operand).isSome := by
    intro i member jumps
    have original : i ∈ c.code := h.mem_of_operand member (.inl (Opcode.operand_of_jumps jumps))
    obtain ⟨target, found, -⟩ := covers.anchored original jumps
    rw [← h.anchor_isSome, found]
    rfl
  obtain ⟨shortened, verified, low, -⟩ :=
    verify_of_levels (h.labels ▸ distinct) anchored (h.levels distinct covers)
  exact ⟨shortened, verified, low⟩

end StackLisp.Chunk
