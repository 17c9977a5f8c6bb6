import Mathlib.Data.Set.Finite.Lemmas
import Mathlib.Logic.Relation
import Mathlib.Order.Bounds.Basic
import StackLisp.Proofs.Shortening

/-!
The check is exact. It accepts a chunk just if its labels are anchored as they have to be and one depth
can be given to each address that control reaches. Nothing is left to how the paths are walked: the stack
size is the greatest of these depths, and the labels are those in the code.
-/

namespace StackLisp.Chunk

/-- The label is anchored at the address. -/
def AnchoredAt (code : List Instruction) (label pc : Nat) : Prop :=
  ∃ i, code[pc]? = some i ∧ i.op.effect.anchors ∧ i.operand = label

/-- Each label is anchored at most once, and each that a jump refers to is anchored. -/
structure Anchored (code : List Instruction) : Prop where
  once : ∀ {label pc other : Nat}, AnchoredAt code label pc → AnchoredAt code label other → pc = other
  present : ∀ {i : Instruction}, i ∈ code → i.op.jumps → ∃ pc, AnchoredAt code i.operand pc

/-- Control goes from an address to another, by falling through or by a jump. -/
inductive Goes (code : List Instruction) : Nat → Nat → Prop where
  | falls {pc : Nat} {i : Instruction} (here : code[pc]? = some i) (stays : i.op.effect.exits = false) :
    Goes code pc (pc + 1)
  | jumps {pc target : Nat} {i : Instruction} (here : code[pc]? = some i) (jumps : i.op.jumps)
    (goal : AnchoredAt code i.operand target) : Goes code pc target

/-- Control reaches an address from the start. -/
def Reached (code : List Instruction) (pc : Nat) : Prop :=
  Relation.ReflTransGen (Goes code) 0 pc

/-- One depth for each address that control reaches, enough for the instruction there and changed by it
as the effects say. -/
structure Assigns (code : List Instruction) (depth : Nat → Nat) : Prop where
  start : depth 0 = 0
  inside : ∀ {pc : Nat}, Reached code pc → pc < code.length
  pops : ∀ {pc : Nat} {i : Instruction}, Reached code pc → code[pc]? = some i → i.pops ≤ depth pc
  successor : ∀ {pc next : Nat} {i : Instruction}, Reached code pc → code[pc]? = some i →
    Goes code pc next → depth next = depth pc - i.pops + i.pushes

variable {code : List Instruction} {c : Chunk} {checked : Checked} {depth : Nat → Nat} {pc label : Nat}

theorem Reached.start : Reached code 0 :=
  .refl

theorem Reached.goes {next : Nat} (reached : Reached code pc) (goes : Goes code pc next) :
    Reached code next :=
  Relation.ReflTransGen.tail reached goes

/-- An instruction that control does not go on from leaves nothing on the stack. -/
theorem pushes_of_exits {i : Instruction} (exits : i.op.effect.exits = true) : i.pushes = 0 := by
  obtain ⟨op, operand, small⟩ := i
  cases op <;> first | rfl | exact absurd exits Bool.false_ne_true

/-! ### Labels -/

theorem Anchored.nodup (h : Anchored code) : (labelsOf code).Nodup := by
  unfold labelsOf
  rw [List.Nodup, List.pairwise_filterMap, List.pairwise_iff_getElem]
  intro a b insideA insideB before label anchoredA other anchoredB same
  have anchored : ∀ {pc : Nat} (inside : pc < code.length) {label : Nat},
      (if code[pc].op = .label then some code[pc].operand else none) = some label →
        AnchoredAt code label pc := by
    intro pc inside label there
    split at there
    next is => exact ⟨code[pc], List.getElem?_eq_getElem inside, anchors_iff.mpr is, Option.some.inj there⟩
    · cases there
  subst same
  exact absurd (h.once (anchored insideA anchoredA) (anchored insideB anchoredB)) (Nat.ne_of_lt before)

theorem anchor?_eq_some_iff_anchoredAt (distinct : (labelsOf code).Nodup) :
    anchor? code label = some pc ↔ AnchoredAt code label pc := by
  rw [anchor?_eq_some_iff distinct]
  exact exists_congr fun i => and_congr_right fun _ => and_congr_left fun _ => anchors_iff.symm

theorem Anchored.isSome (h : Anchored code) {i : Instruction} (member : i ∈ code) (jumps : i.op.jumps) :
    (anchor? code i.operand).isSome := by
  obtain ⟨pc, goal⟩ := h.present member jumps
  rw [(anchor?_eq_some_iff_anchoredAt h.nodup).mpr goal]
  rfl

theorem anchored_of_verify (accepted : c.verify = .ok checked) : Anchored c.code := by
  have distinct := labels_nodup_of_verify accepted
  constructor
  · intro label pc other there again
    rw [← anchor?_eq_some_iff_anchoredAt distinct] at there again
    exact Option.some.inj (there.symm.trans again)
  · intro i member jumps
    obtain ⟨pc, goal, -⟩ := (verify_covers accepted).anchored member jumps
    exact ⟨pc, (anchor?_eq_some_iff_anchoredAt distinct).mp goal⟩

theorem foldl_max_le {start n : Nat} {ns : List Nat} (first : start ≤ n) (rest : ∀ m ∈ ns, m ≤ n) :
    ns.foldl max start ≤ n := by
  induction ns generalizing start with
  | nil => exact first
  | cons m ms ih =>
    exact ih (Nat.max_le.mpr ⟨first, rest m List.mem_cons_self⟩) fun m member =>
      rest m (List.mem_cons_of_mem _ member)

/-- Labels are numbered below the least number that will do. -/
theorem isLeast_labelBound (code : List Instruction) (labelCount : Nat) :
    IsLeast {n | labelCount ≤ n ∧ ∀ i ∈ code, i.op.effect.operand = .labels → i.operand < n}
      (labelBound code labelCount) := by
  constructor
  · exact ⟨le_foldl_max (Or.inl (Nat.le_refl _)), fun i member => operand_lt_labelBound labelCount member⟩
  · rintro n ⟨count, operands⟩
    apply foldl_max_le count
    intro m listed
    obtain ⟨label, mentioned, rfl⟩ := List.mem_map.mp listed
    obtain ⟨i, member, mentions⟩ := List.mem_filterMap.mp mentioned
    unfold labelOf? at mentions
    split at mentions
    next labelled =>
      cases mentions
      exact operands i member labelled
    · cases mentions

theorem labels_of_verify (accepted : c.verify = .ok checked) :
    checked.labels = (List.range (labelBound c.code c.labelCount)).map (anchor? c.code) := by
  unfold verify at accepted
  obtain ⟨found, listed, accepted⟩ := bind_eq_ok.mp accepted
  obtain ⟨⟨stackSize, depths⟩, -, accepted⟩ := bind_eq_ok.mp accepted
  cases accepted
  exact List.map_congr_left fun label _ => lookup_anchors listed label

theorem length_labels_of_verify (accepted : c.verify = .ok checked) :
    checked.labels.length = labelBound c.code c.labelCount := by
  simp [labels_of_verify accepted]

theorem getElem?_labels_of_verify (accepted : c.verify = .ok checked) (inside : label < checked.labels.length) :
    checked.labels[label]? = some (anchor? c.code label) := by
  rw [length_labels_of_verify accepted] at inside
  simp [labels_of_verify accepted, inside]

/-! ### Depths -/

theorem covers_goes (covers : checked.Covers code) (distinct : (labelsOf code).Nodup) {pc next d : Nat}
    {i : Instruction} (there : checked.depths[pc]? = some (some d)) (here : code[pc]? = some i)
    (goes : Goes code pc next) : checked.depths[next]? = some (some (i.depthAfter d)) := by
  cases goes with
  | falls also stays =>
    obtain rfl := Option.some.inj (here.symm.trans also)
    exact covers.next there here stays
  | jumps also jumps goal =>
    obtain rfl := Option.some.inj (here.symm.trans also)
    exact covers.target there here jumps ((anchor?_eq_some_iff_anchoredAt distinct).mpr goal)

theorem covers_reached (covers : checked.Covers code) (distinct : (labelsOf code).Nodup)
    (reached : Reached code pc) : ∃ d, checked.depths[pc]? = some (some d) := by
  induction reached with
  | refl => exact ⟨0, covers.start⟩
  | tail _ goes ih =>
    obtain ⟨d, there⟩ := ih
    obtain ⟨i, here, -⟩ := covers.supports there
    exact ⟨i.depthAfter d, covers_goes covers distinct there here goes⟩

theorem assigns_of_covers (covers : checked.Covers code) (distinct : (labelsOf code).Nodup) :
    Assigns code fun pc => ((checked.depths[pc]?).bind id).getD 0 where
  start := by simp [covers.start]
  inside := by
    intro pc reached
    obtain ⟨d, there⟩ := covers_reached covers distinct reached
    obtain ⟨i, here, -⟩ := covers.supports there
    exact (List.getElem?_eq_some_iff.mp here).1
  pops := by
    intro pc i reached here
    obtain ⟨d, there⟩ := covers_reached covers distinct reached
    obtain ⟨j, also, pops, -⟩ := covers.supports there
    obtain rfl := Option.some.inj (here.symm.trans also)
    simpa [there] using pops
  successor := by
    intro pc next i reached here goes
    obtain ⟨d, there⟩ := covers_reached covers distinct reached
    simp [covers_goes covers distinct there here goes, there, Instruction.depthAfter]

/-- Two assignments agree on all that control reaches. -/
theorem Assigns.unique {other : Nat → Nat} (h : Assigns code depth) (g : Assigns code other)
    (reached : Reached code pc) : depth pc = other pc := by
  induction reached with
  | refl => rw [h.start, g.start]
  | @tail pc next reached goes ih =>
    obtain ⟨i, here⟩ : ∃ i, code[pc]? = some i := ⟨_, List.getElem?_eq_getElem (h.inside reached)⟩
    rw [h.successor reached here goes, g.successor reached here goes, ih]

theorem Assigns.exists_deepest (h : Assigns code depth) :
    ∃ top, Reached code top ∧ ∀ pc, Reached code pc → depth pc ≤ depth top := by
  have finite : {pc | Reached code pc}.Finite :=
    (Set.finite_lt_nat code.length).subset fun pc reached => h.inside reached
  exact Set.exists_max_image _ depth finite ⟨0, Reached.start⟩

/-- The depth after an instruction is that of an address too, unless there is less on the stack. -/
theorem Assigns.depthAfter_le {top : Nat} (h : Assigns code depth)
    (deepest : ∀ pc, Reached code pc → depth pc ≤ top) {i : Instruction} (reached : Reached code pc)
    (here : code[pc]? = some i) : i.depthAfter (depth pc) ≤ top := by
  by_cases exits : i.op.effect.exits = true
  · have less := deepest pc reached
    simp only [Instruction.depthAfter, pushes_of_exits exits]
    omega
  · have falls := Goes.falls here (Bool.eq_false_iff.mpr exits)
    rw [Instruction.depthAfter, ← h.successor reached here falls]
    exact deepest (pc + 1) (reached.goes falls)

theorem Assigns.levels {top : Nat} (h : Assigns code depth) (distinct : (labelsOf code).Nodup)
    (deepest : ∀ pc, Reached code pc → depth pc ≤ top) :
    Levels code top fun pc d => Reached code pc ∧ d = depth pc where
  start := ⟨.start, h.start.symm⟩
  single := by
    rintro pc _ _ ⟨-, rfl⟩ ⟨-, rfl⟩
    rfl
  supports := by
    rintro pc _ ⟨reached, rfl⟩
    have here := List.getElem?_eq_getElem (h.inside reached)
    exact ⟨_, here, h.pops reached here, deepest pc reached, h.depthAfter_le deepest reached here⟩
  next := by
    rintro pc _ i ⟨reached, rfl⟩ here stays
    have falls := Goes.falls here stays
    exact ⟨reached.goes falls, (h.successor reached here falls).symm⟩
  target := by
    rintro pc _ target i ⟨reached, rfl⟩ here jumps goal
    have jump := Goes.jumps here jumps ((anchor?_eq_some_iff_anchoredAt distinct).mp goal)
    exact ⟨reached.goes jump, (h.successor reached here jump).symm⟩

/-- The check accepts what has an assignment. -/
theorem verify_of_assigns (anchored : Anchored c.code) (h : Assigns c.code depth) :
    ∃ checked, c.verify = .ok checked := by
  obtain ⟨top, -, deepest⟩ := h.exists_deepest
  obtain ⟨checked, accepted, -⟩ := verify_of_levels anchored.nodup (fun i => anchored.isSome)
    (h.levels anchored.nodup deepest)
  exact ⟨checked, accepted⟩

/-- The stack size is the greatest depth. -/
theorem isGreatest_stackSize (accepted : c.verify = .ok checked) (h : Assigns c.code depth) :
    IsGreatest (depth '' {pc | Reached c.code pc}) checked.stackSize := by
  have anchored := anchored_of_verify accepted
  have covers := verify_covers accepted
  have below : ∀ pc, Reached c.code pc → depth pc ≤ checked.stackSize := by
    intro pc reached
    obtain ⟨d, there⟩ := covers_reached covers anchored.nodup reached
    obtain ⟨-, -, -, low, -⟩ := covers.supports there
    have same := h.unique (assigns_of_covers covers anchored.nodup) reached
    simp only [there, Option.bind_some, id_eq, Option.getD_some] at same
    rwa [same]
  obtain ⟨top, reached, deepest⟩ := h.exists_deepest
  obtain ⟨found, also, least, -⟩ := verify_of_levels anchored.nodup (fun i => anchored.isSome)
    (h.levels anchored.nodup deepest)
  obtain rfl := Except.ok.inj (accepted.symm.trans also)
  have same : checked.stackSize = depth top := Nat.le_antisymm least (below top reached)
  constructor
  · exact ⟨top, reached, same.symm⟩
  · rintro _ ⟨pc, reached, rfl⟩
    exact below pc reached

/-- The check ends, and it accepts a chunk just if the labels are anchored and an assignment of depths is
there. Then its stack size is the greatest depth of that assignment, and it gives the anchor of each
label that is counted or mentioned. -/
theorem verify_exact (c : Chunk) :
    ((∃ checked, c.verify = .ok checked) ↔ Anchored c.code ∧ ∃ depth, Assigns c.code depth) ∧
      ∀ checked, c.verify = .ok checked →
        (∀ depth, Assigns c.code depth →
          IsGreatest (depth '' {pc | Reached c.code pc}) checked.stackSize) ∧
        IsLeast {n | c.labelCount ≤ n ∧ ∀ i ∈ c.code, i.op.effect.operand = .labels → i.operand < n}
          checked.labels.length ∧
        ∀ label < checked.labels.length,
          (∀ pc, checked.labels[label]? = some (some pc) ↔ AnchoredAt c.code label pc) ∧
          (checked.labels[label]? = some none ↔ ¬∃ pc, AnchoredAt c.code label pc) := by
  constructor
  · constructor
    · rintro ⟨checked, accepted⟩
      have anchored := anchored_of_verify accepted
      exact ⟨anchored, _, assigns_of_covers (verify_covers accepted) anchored.nodup⟩
    · rintro ⟨anchored, depth, assigns⟩
      exact verify_of_assigns anchored assigns
  · intro checked accepted
    have distinct := labels_nodup_of_verify accepted
    refine ⟨fun depth => isGreatest_stackSize accepted, ?_, fun label inside => ?_⟩
    · rw [length_labels_of_verify accepted]
      exact isLeast_labelBound c.code c.labelCount
    · rw [getElem?_labels_of_verify accepted inside]
      constructor
      · intro pc
        rw [Option.some.injEq]
        exact anchor?_eq_some_iff_anchoredAt distinct
      · rw [Option.some.injEq, Option.eq_none_iff_forall_ne_some, not_exists]
        exact forall_congr' fun pc => not_congr (anchor?_eq_some_iff_anchoredAt distinct)

/-- A conditional one of whose arms needs two slots. Its last label is counted, but anchored nowhere. -/
def branching : Chunk where
  code := [Opcode.trueLit.bare, ⟨.condJump, 0, Nat.zero_le _⟩, ⟨.posInt, 1, one_le_maxOperand⟩,
    ⟨.posInt, 2, two_le_maxOperand⟩, Opcode.add.bare, ⟨.jump, 1, one_le_maxOperand⟩,
    ⟨.label, 0, Nat.zero_le _⟩, ⟨.posInt, 3, three_le_maxOperand⟩, ⟨.label, 1, one_le_maxOperand⟩,
    Opcode.ret.bare]
  constants := []
  localCount := 0
  labelCount := 3
  globals := 0
  name := none

theorem verify_branching :
    branching.verify = .ok ⟨2, [some 6, some 8, none],
      [some 0, some 1, some 0, some 1, some 2, some 1, some 0, some 0, some 1, some 1]⟩ := by
  with_unfolding_all rfl

theorem verify_exact_branching :
    ∃ depth, Assigns branching.code depth ∧ IsGreatest (depth '' {pc | Reached branching.code pc}) 2 ∧
      AnchoredAt branching.code 0 6 ∧ ¬∃ pc, AnchoredAt branching.code 2 pc := by
  obtain ⟨accepts, finds⟩ := verify_exact branching
  obtain ⟨-, depth, assigns⟩ := accepts.mp ⟨_, verify_branching⟩
  obtain ⟨deepest, -, labels⟩ := finds _ verify_branching
  obtain ⟨first, -⟩ := labels 0 (by decide)
  obtain ⟨-, last⟩ := labels 2 (by decide)
  exact ⟨depth, assigns, deepest depth assigns, (first 6).mp rfl, last.mp rfl⟩

end StackLisp.Chunk
