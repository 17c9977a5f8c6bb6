import StackLisp.Proofs.Returns

/-!
What the check accepts. If each label is anchored once, each jump has an anchor, and the addresses that
control can reach have depths that suffice and agree, then the check succeeds, and it finds no other
depths.
-/

namespace StackLisp.Chunk

/-- Depths along the paths of control: one at each address, enough for the instruction there. -/
structure Levels (code : List Instruction) (bound : Nat) (level : Nat → Nat → Prop) : Prop where
  start : level 0 0
  single : ∀ {pc depth other : Nat}, level pc depth → level pc other → depth = other
  supports : ∀ {pc depth : Nat}, level pc depth → Supports code bound pc depth
  next : ∀ {pc depth : Nat} {i : Instruction}, level pc depth → code[pc]? = some i →
    i.op.effect.exits = false → level (pc + 1) (i.depthAfter depth)
  target : ∀ {pc depth target : Nat} {i : Instruction}, level pc depth → code[pc]? = some i →
    i.op.jumps → anchor? code i.operand = some target → level target (i.depthAfter depth)

variable {code : List Instruction} {bound : Nat} {level : Nat → Nat → Prop}

theorem anchorsFrom_ok (distinct : (labelsOf code).Nodup) {pc : Nat} {found : List (Nat × Nat)}
    (fresh : ∀ label ∈ labelsOf code, found.lookup label = none) :
    ∃ result, anchorsFrom pc found code = .ok result := by
  fun_induction anchorsFrom pc found code with
  | case1 pc found => exact ⟨found, rfl⟩
  | case2 pc found i code anchors target again =>
    rw [labelsOf_cons_label (anchors_iff.mp anchors)] at fresh
    cases again.symm.trans (fresh _ List.mem_cons_self)
  | case3 pc found i code anchors new ih =>
    rw [labelsOf_cons_label (anchors_iff.mp anchors)] at distinct fresh
    obtain ⟨first, rest⟩ := List.nodup_cons.mp distinct
    refine ih rest fun label member => ?_
    have other : (label == i.operand) = false := by
      rw [beq_eq_false_iff_ne]
      rintro rfl
      exact first member
    rw [List.lookup_cons, other]
    exact fresh label (List.mem_cons_of_mem _ member)
  | case4 pc found i code plain ih =>
    rw [labelsOf_cons_plain fun label => plain (anchors_iff.mpr label)] at distinct fresh
    exact ih distinct fresh

theorem anchors_ok (distinct : (labelsOf code).Nodup)
    (anchored : ∀ i ∈ code, i.op.jumps → (anchor? code i.operand).isSome) :
    ∃ found, anchors code = .ok found := by
  obtain ⟨found, listed⟩ : ∃ found, anchorsFrom 0 [] code = .ok found :=
    anchorsFrom_ok distinct fun _ _ => rfl
  refine ⟨found, anchors_eq_ok.mpr ⟨listed, List.find?_eq_none.mpr fun i member missing => ?_⟩⟩
  rw [Bool.and_eq_true, lookup_anchorsFrom listed] at missing
  obtain ⟨jumps, none⟩ := missing
  obtain ⟨target, there⟩ := Option.isSome_iff_exists.mp (anchored i member jumps)
  simp [there] at none

/-- A walk along paths with levels ends, and finds nothing but levels. -/
theorem walk_ok (levels : Levels code bound level) {found : List (Nat × Nat)}
    (listed : anchors code = .ok found) {depths : List (Option Nat)} {work : List (Nat × Nat)}
    {deepest : Nat} (length : depths.length = code.length)
    (waiting : ∀ pc depth, (pc, depth) ∈ work → level pc depth)
    (reached : ∀ pc depth, depths[pc]? = some (some depth) → level pc depth) (low : deepest ≤ bound) :
    ∃ stackSize result, walk code found depths work deepest = .ok (stackSize, result) ∧
      stackSize ≤ bound ∧ ∀ pc depth, result[pc]? = some (some depth) → level pc depth := by
  fun_induction walk code found depths work deepest with
  | case1 depths deepest => exact ⟨deepest, depths, rfl, low, reached⟩
  | case2 depths deepest pc depth work missing =>
    obtain ⟨i, here, -⟩ := levels.supports (waiting pc depth List.mem_cons_self)
    cases missing.symm.trans here
  | case3 depths deepest pc depth work i here missing =>
    have inside : pc < depths.length := length ▸ (List.getElem?_eq_some_iff.mp here).1
    cases missing.symm.trans (List.getElem?_eq_getElem inside)
  | case4 depths deepest pc depth work i here seen ih =>
    exact ih length (fun pc depth member => waiting pc depth (List.mem_cons_of_mem _ member)) reached low
  | case5 depths deepest pc depth work i here seen there differ =>
    exact absurd (levels.single (reached pc seen there) (waiting pc depth List.mem_cons_self)) differ
  | case6 depths deepest pc depth work i here fresh under =>
    obtain ⟨j, there, pops, -⟩ := levels.supports (waiting pc depth List.mem_cons_self)
    obtain rfl := Option.some.inj (here.symm.trans there)
    exact absurd pops (Nat.not_le_of_lt under)
  | case7 depths deepest pc depth work i here fresh enough next ih =>
    have now : level pc depth := waiting pc depth List.mem_cons_self
    obtain ⟨j, there, -, -, after⟩ := levels.supports now
    obtain rfl := Option.some.inj (here.symm.trans there)
    refine ih ?_ ?_ ?_ (Nat.max_le.mpr ⟨low, after⟩)
    · rw [List.length_set, length]
    · intro other known member
      rcases List.mem_append.mp member with new | old
      · obtain ⟨succ, onward, same⟩ := List.mem_map.mp new
        cases same
        rcases List.mem_append.mp onward with falls | goes
        · split at falls
          · cases falls
          next stays =>
            rw [List.mem_singleton.mp falls]
            exact levels.next now here (Bool.eq_false_iff.mpr stays)
        · split at goes
          next jumps =>
            rw [Option.mem_toList, lookup_anchors listed] at goes
            exact levels.target now here jumps goes
          · cases goes
      · exact waiting other known (List.mem_cons_of_mem _ old)
    · intro other known there
      by_cases same : pc = other
      · subst same
        rw [List.getElem?_set_self (List.getElem?_eq_some_iff.mp fresh).1] at there
        cases there
        exact now
      · rw [List.getElem?_set_ne same] at there
        exact reached other known there

/-- Code with levels is accepted, and needs no more of the stack than they say. -/
theorem verify_of_levels {c : Chunk} (distinct : (labelsOf c.code).Nodup)
    (anchored : ∀ i ∈ c.code, i.op.jumps → (anchor? c.code i.operand).isSome)
    (levels : Levels c.code bound level) :
    ∃ checked, c.verify = .ok checked ∧ checked.stackSize ≤ bound ∧
      ∀ pc depth, checked.depths[pc]? = some (some depth) → level pc depth := by
  obtain ⟨found, listed⟩ := anchors_ok distinct anchored
  have start : ∀ pc depth, (pc, depth) ∈ [(0, 0)] → level pc depth := fun pc depth member => by
    cases List.mem_singleton.mp member
    exact levels.start
  have unseen : ∀ pc depth : Nat, (List.replicate c.code.length none)[pc]? = some (some depth) →
      level pc depth := fun pc depth there => by simp [List.getElem?_replicate] at there
  obtain ⟨stackSize, depths, walked, low, reached⟩ :=
    walk_ok levels listed List.length_replicate start unseen (Nat.zero_le _)
  have accepted : c.verify = .ok ⟨stackSize, (List.range (labelBound c.code c.labelCount)).map fun label =>
      found.lookup label, depths⟩ :=
    bind_eq_ok.mpr ⟨found, listed, bind_eq_ok.mpr ⟨_, walked, rfl⟩⟩
  exact ⟨_, accepted, low, reached⟩

end StackLisp.Chunk
