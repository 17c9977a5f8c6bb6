import StackLisp.Chunk.Build
import StackLisp.Proofs.Runs

/-!
What an accepted check promises. Every address that control can reach has one depth, nothing pops
more than its depth, and a label that is jumped to stands where the check says.
-/

namespace StackLisp

namespace Instruction

/-- The depth after an instruction that starts at a depth. -/
def depthAfter (i : Instruction) (depth : Nat) : Nat :=
  depth - i.pops + i.pushes

end Instruction

theorem Opcode.operand_of_jumps {op : Opcode} (h : op.jumps) : op.effect.operand = .labels := by
  simp only [Opcode.jumps, Bool.and_eq_true, decide_eq_true_eq] at h
  exact h.1

namespace Chunk

/-- An address has an instruction that the depth suffices for, and all depths stay below a bound. -/
def Supports (code : List Instruction) (bound pc depth : Nat) : Prop :=
  ∃ i, code[pc]? = some i ∧ i.pops ≤ depth ∧ depth ≤ bound ∧ i.depthAfter depth ≤ bound

/-- One depth for each address that control reaches from the start. -/
structure DepthAssignment (code : List Instruction) (found : List (Nat × Nat))
    (depths : List (Option Nat)) (bound : Nat) : Prop where
  start : depths[0]? = some (some 0)
  supports : ∀ {pc depth}, depths[pc]? = some (some depth) → Supports code bound pc depth
  successor : ∀ {pc depth i next}, depths[pc]? = some (some depth) → code[pc]? = some i →
    next ∈ successors found pc i → depths[next]? = some (some (i.depthAfter depth))

/-- What holds while the paths are followed: a successor has its depth or waits for it. -/
structure Walking (code : List Instruction) (found : List (Nat × Nat))
    (depths : List (Option Nat)) (work : List (Nat × Nat)) (deepest : Nat) : Prop where
  length : depths.length = code.length
  waiting : ∀ {pc depth}, (pc, depth) ∈ work → depth ≤ deepest
  start : depths[0]? = some (some 0) ∨ (0, 0) ∈ work
  supports : ∀ {pc depth}, depths[pc]? = some (some depth) → Supports code deepest pc depth
  successor : ∀ {pc depth i next}, depths[pc]? = some (some depth) → code[pc]? = some i →
    next ∈ successors found pc i →
      depths[next]? = some (some (i.depthAfter depth)) ∨ (next, i.depthAfter depth) ∈ work

theorem Supports.mono {code : List Instruction} {bound wider pc depth : Nat}
    (h : Supports code bound pc depth) (le : bound ≤ wider) : Supports code wider pc depth := by
  obtain ⟨i, here, pops, before, after⟩ := h
  exact ⟨i, here, pops, Nat.le_trans before le, Nat.le_trans after le⟩

theorem Walking.initial (code : List Instruction) (found : List (Nat × Nat)) :
    Walking code found (List.replicate code.length none) [(0, 0)] 0 where
  length := List.length_replicate
  waiting member := by simp_all
  start := Or.inr (List.mem_singleton.mpr rfl)
  supports reached := by simp [List.getElem?_replicate] at reached
  successor reached := by simp [List.getElem?_replicate] at reached

/-- A path that comes back to an address with the depth it has there ends. -/
theorem Walking.drop {code : List Instruction} {found : List (Nat × Nat)}
    {depths : List (Option Nat)} {work : List (Nat × Nat)} {pc depth deepest : Nat}
    (h : Walking code found depths ((pc, depth) :: work) deepest)
    (seen : depths[pc]? = some (some depth)) : Walking code found depths work deepest where
  length := h.length
  waiting member := h.waiting (List.mem_cons_of_mem _ member)
  start := by
    rcases h.start with start | start
    · exact Or.inl start
    · rcases List.mem_cons.mp start with same | later
      · cases same
        exact Or.inl seen
      · exact Or.inr later
  supports := h.supports
  successor reached here next := by
    rcases h.successor reached here next with settled | waits
    · exact Or.inl settled
    · rcases List.mem_cons.mp waits with same | later
      · cases same
        exact Or.inl seen
      · exact Or.inr later

/-- An address met for the first time takes its depth, and its successors wait for theirs. -/
theorem Walking.visit {code : List Instruction} {found : List (Nat × Nat)}
    {depths : List (Option Nat)} {work : List (Nat × Nat)} {pc depth deepest : Nat}
    {i : Instruction} (h : Walking code found depths ((pc, depth) :: work) deepest)
    (here : code[pc]? = some i) (fresh : depths[pc]? = some none) (pops : i.pops ≤ depth) :
    Walking code found (depths.set pc (some depth))
      ((successors found pc i).map (·, i.depthAfter depth) ++ work)
      (max deepest (i.depthAfter depth)) := by
  have inside : pc < depths.length := (List.getElem?_eq_some_iff.mp fresh).1
  have before : depth ≤ deepest := h.waiting List.mem_cons_self
  have kept : ∀ {other known : Nat}, depths[other]? = some (some known) →
      (depths.set pc (some depth))[other]? = some (some known) := by
    intro other known reached
    by_cases same : pc = other
    · subst same
      rw [fresh] at reached
      cases reached
    · rw [List.getElem?_set_ne same]
      exact reached
  have now : (depths.set pc (some depth))[pc]? = some (some depth) :=
    List.getElem?_set_self inside
  have settle : ∀ {other known : Nat}, depths[other]? = some (some known) ∨
      (other, known) ∈ (pc, depth) :: work →
      (depths.set pc (some depth))[other]? = some (some known) ∨
        (other, known) ∈ (successors found pc i).map (·, i.depthAfter depth) ++ work := by
    rintro other known (reached | waits)
    · exact Or.inl (kept reached)
    · rcases List.mem_cons.mp waits with same | later
      · cases same
        exact Or.inl now
      · exact Or.inr (List.mem_append_right _ later)
  have back : ∀ {other known : Nat}, (depths.set pc (some depth))[other]? = some (some known) →
      (other = pc ∧ known = depth) ∨ depths[other]? = some (some known) := by
    intro other known reached
    by_cases same : pc = other
    · subst same
      rw [now] at reached
      cases reached
      exact Or.inl ⟨rfl, rfl⟩
    · rw [List.getElem?_set_ne same] at reached
      exact Or.inr reached
  refine ⟨by rw [List.length_set, h.length], ?_, settle h.start, ?_, ?_⟩
  · intro other known member
    rcases List.mem_append.mp member with new | old
    · obtain ⟨_, _, same⟩ := List.mem_map.mp new
      cases same
      exact Nat.le_max_right _ _
    · exact Nat.le_trans (h.waiting (List.mem_cons_of_mem _ old)) (Nat.le_max_left _ _)
  · intro other known reached
    rcases back reached with ⟨rfl, rfl⟩ | reached
    · exact ⟨i, here, pops, Nat.le_trans before (Nat.le_max_left _ _), Nat.le_max_right _ _⟩
    · exact (h.supports reached).mono (Nat.le_max_left _ _)
  · intro other known j next reached there member
    rcases back reached with ⟨rfl, rfl⟩ | reached
    · rw [here] at there
      cases there
      exact Or.inr (List.mem_append_left _ (List.mem_map_of_mem member))
    · exact settle (h.successor reached there member)

/-- Every run of the walk that ends ends in an assignment of depths. -/
theorem Walking.assignment {code : List Instruction} {found : List (Nat × Nat)}
    {depths : List (Option Nat)} {work : List (Nat × Nat)} {deepest : Nat}
    (h : Walking code found depths work deepest) {stackSize : Nat} {result : List (Option Nat)}
    (ended : walk code found depths work deepest = .ok (stackSize, result)) :
    DepthAssignment code found result stackSize := by
  fun_induction walk code found depths work deepest with
  | case1 depths deepest =>
    cases ended
    exact ⟨h.start.resolve_right List.not_mem_nil, h.supports,
      fun reached here next => (h.successor reached here next).resolve_right List.not_mem_nil⟩
  | case2 | case3 | case5 | case6 => cases ended
  | case4 depths deepest pc depth work i here seen ih => exact ih (h.drop seen) ended
  | case7 depths deepest pc depth work i here fresh pops _ ih =>
    exact ih (h.visit here fresh (Nat.le_of_not_lt pops)) ended

/-- The address at which a label is anchored. -/
def anchor? (code : List Instruction) (label : Nat) : Option Nat :=
  code.findIdx? fun i => i.op.effect.anchors && i.operand = label

theorem lookup_anchorsFrom {pc : Nat} {found result : List (Nat × Nat)} {code : List Instruction}
    (h : anchorsFrom pc found code = .ok result) (label : Nat) :
    result.lookup label = (found.lookup label).or ((anchor? code label).map (pc + ·)) := by
  fun_induction anchorsFrom pc found code with
  | case1 pc found =>
    cases h
    simp [anchor?]
  | case2 => cases h
  | case3 pc found i code anchors fresh ih =>
    rw [ih h, List.lookup_cons]
    by_cases same : i.operand = label
    · subst same
      simp [anchor?, List.findIdx?_cons, anchors, fresh]
    · have other : (label == i.operand) = false := by simpa using Ne.symm same
      simp [anchor?, List.findIdx?_cons, same, other, Nat.add_assoc, Nat.add_comm 1, Function.comp_def]
  | case4 pc found i code plain ih =>
    rw [ih h]
    simp [anchor?, List.findIdx?_cons, plain, Nat.add_assoc, Nat.add_comm 1, Function.comp_def]

theorem anchor?_spec {code : List Instruction} {label target : Nat}
    (h : anchor? code label = some target) :
    ∃ i, code[target]? = some i ∧ i.op.effect.anchors ∧ i.operand = label := by
  obtain ⟨inside, holds, _⟩ := List.findIdx?_eq_some_iff_getElem.mp h
  simp only [Bool.and_eq_true, decide_eq_true_eq] at holds
  exact ⟨code[target], List.getElem?_eq_getElem inside, holds.1, holds.2⟩

theorem anchors_eq_ok {code : List Instruction} {found : List (Nat × Nat)} :
    anchors code = .ok found ↔ anchorsFrom 0 [] code = .ok found ∧
      code.find? (fun i => i.op.jumps && (found.lookup i.operand).isNone) = none := by
  unfold anchors
  rw [bind_eq_ok]
  constructor
  · rintro ⟨result, listed, h⟩
    split at h
    · cases h
    · rename_i none
      cases h
      exact ⟨listed, none⟩
  · rintro ⟨listed, none⟩
    refine ⟨found, listed, ?_⟩
    rw [none]

theorem lookup_anchors {code : List Instruction} {found : List (Nat × Nat)}
    (h : anchors code = .ok found) (label : Nat) : found.lookup label = anchor? code label := by
  rw [lookup_anchorsFrom (anchors_eq_ok.mp h).1 label]
  simp

theorem jump_anchored {code : List Instruction} {found : List (Nat × Nat)}
    (h : anchors code = .ok found) {i : Instruction} (member : i ∈ code) (jumps : i.op.jumps) :
    ∃ target, anchor? code i.operand = some target := by
  rw [← lookup_anchors h]
  have present := List.find?_eq_none.mp (anchors_eq_ok.mp h).2 i member
  simp only [jumps, Bool.true_and, Bool.not_eq_true, Option.isNone_eq_false_iff] at present
  exact Option.isSome_iff_exists.mp present

theorem le_foldl_max {start n : Nat} {ns : List Nat} (h : n ≤ start ∨ n ∈ ns) :
    n ≤ ns.foldl max start := by
  induction ns generalizing start with
  | nil => simpa using h
  | cons m ms ih =>
    rcases h with small | member
    · exact ih (Or.inl (Nat.le_trans small (Nat.le_max_left _ _)))
    · rcases List.mem_cons.mp member with rfl | later
      · exact ih (Or.inl (Nat.le_max_right _ _))
      · exact ih (Or.inr later)

theorem operand_lt_labelBound {code : List Instruction} (labelCount : Nat) {i : Instruction}
    (member : i ∈ code) (labelled : i.op.effect.operand = .labels) :
    i.operand < labelBound code labelCount := by
  refine le_foldl_max (Or.inr (List.mem_map.mpr ⟨i.operand, ?_, rfl⟩))
  exact List.mem_filterMap.mpr ⟨i, member, by simp [labelOf?, labelled]⟩

end Chunk

/-- What the check promises: depths that agree along every step of control, and an anchor for each
label that is jumped to. -/
structure Checked.Covers (checked : Checked) (code : List Instruction) : Prop where
  start : checked.depths[0]? = some (some 0)
  supports : ∀ {pc depth : Nat}, checked.depths[pc]? = some (some depth) →
    Chunk.Supports code checked.stackSize pc depth
  next : ∀ {pc depth : Nat} {i : Instruction}, checked.depths[pc]? = some (some depth) →
    code[pc]? = some i → i.op.effect.exits = false →
      checked.depths[pc + 1]? = some (some (i.depthAfter depth))
  target : ∀ {pc depth target : Nat} {i : Instruction}, checked.depths[pc]? = some (some depth) →
    code[pc]? = some i → i.op.jumps → Chunk.anchor? code i.operand = some target →
      checked.depths[target]? = some (some (i.depthAfter depth))
  anchored : ∀ {i : Instruction}, i ∈ code → i.op.jumps →
    ∃ target, Chunk.anchor? code i.operand = some target ∧
      checked.labels[i.operand]?.bind id = some target

namespace Chunk

/-- An accepted chunk has a depth at every address that control reaches. -/
theorem verify_covers {c : Chunk} {checked : Checked} (h : c.verify = .ok checked) :
    checked.Covers c.code := by
  unfold verify at h
  obtain ⟨found, listed, h⟩ := bind_eq_ok.mp h
  obtain ⟨⟨stackSize, depths⟩, ended, h⟩ := bind_eq_ok.mp h
  cases h
  have assigned := (Walking.initial c.code found).assignment ended
  refine ⟨assigned.start, assigned.supports, ?_, ?_, ?_⟩
  · intro pc depth i reached here stays
    exact assigned.successor reached here (by simp [successors, stays])
  · intro pc depth target i reached here jumps goal
    rw [← lookup_anchors listed] at goal
    exact assigned.successor reached here (by simp [successors, jumps, goal])
  · intro i member jumps
    obtain ⟨target, goal⟩ := jump_anchored listed member jumps
    have small := operand_lt_labelBound c.labelCount member (Opcode.operand_of_jumps jumps)
    refine ⟨target, goal, ?_⟩
    simp [List.getElem?_range small, lookup_anchors listed, goal]

end Chunk

end StackLisp
