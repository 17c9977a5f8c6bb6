import Mathlib.Order.Lattice
import StackLisp.Proofs.Shortening

/-!
Views: ways to know things of an activation along the paths of code. What is known before an instruction
settles what is known after it; a label has one answer for all the ways to it. Flows are told along a
stretch of code, charts by addresses.
-/

namespace StackLisp

/-- What an instruction asks for where something is known, and what is known after it and where it jumps.
Constants count for the instructions that push them only. -/
structure View (W : Type) where
  allows : List Value → W → Instruction → Prop
  after : List Value → Instruction → W → W
  taken : Instruction → W → W
  allows_congr : ∀ {pool more : List Value} {i : Instruction},
    (i.op = .const → pool[i.operand]? = more[i.operand]?) → ∀ {X : W}, allows pool X i → allows more X i
  after_congr : ∀ {pool more : List Value} {i : Instruction},
    (i.op = .const → pool[i.operand]? = more[i.operand]?) → after pool i = after more i

section

variable {W : Type} [Preorder W] {X Y Z : Option W}

theorem known_refl (X : Option W) : X ≤ X := by
  cases X with
  | none => exact Option.none_le
  | some X => exact Option.some_le_some.mpr (le_refl X)

theorem known_trans (h : X ≤ Y) (g : Y ≤ Z) : X ≤ Z := by
  match X, Y, Z, h, g with
  | none, _, _, _, _ => exact Option.none_le
  | some X, some Y, some Z, h, g =>
    exact Option.some_le_some.mpr (le_trans (Option.some_le_some.mp h) (Option.some_le_some.mp g))

theorem some_of_known {X : W} (h : some X ≤ Y) : ∃ Z, Y = some Z ∧ X ≤ Z := by
  cases Y with
  | none => exact (Option.not_some_le_none h).elim
  | some Z => exact ⟨Z, rfl, Option.some_le_some.mp h⟩

theorem map_known_le {f : W → W} (mono : ∀ {X Y : W}, X ≤ Y → f X ≤ f Y) (h : X ≤ Y) :
    X.map f ≤ Y.map f := by
  cases X with
  | none => exact Option.none_le
  | some X =>
    obtain ⟨Z, rfl, le⟩ := some_of_known h
    exact Option.some_le_some.mpr (mono le)

end

namespace View

variable {W : Type} (v : View W)

/-- Where control comes to next, if it goes on. -/
def onward (constants : List Value) (i : Instruction) (X : Option W) : Option W :=
  if i.op.effect.exits then none else X.map (v.after constants i)

@[simp] theorem onward_none (constants : List Value) (i : Instruction) : v.onward constants i none = none := by
  unfold onward
  split <;> rfl

theorem onward_exits {i : Instruction} (leaves : i.op.effect.exits = true) (constants : List Value) (X : Option W) :
    v.onward constants i X = none :=
  if_pos leaves

theorem onward_some {i : Instruction} (stays : i.op.effect.exits = false) (constants : List Value) (X : W) :
    v.onward constants i (some X) = some (v.after constants i X) := by
  rw [onward, if_neg (by simp [stays]), Option.map_some]

theorem onward_congr {pool more : List Value} {i : Instruction}
    (same : i.op = .const → pool[i.operand]? = more[i.operand]?) (X : Option W) :
    v.onward pool i X = v.onward more i X := by
  rw [onward, onward, v.after_congr same]

/-- What one view allows the other allows as well; both know the same. -/
structure Refines (u v : View W) : Prop where
  after : u.after = v.after
  taken : u.taken = v.taken
  allows : ∀ {constants : List Value} {X : W} {i : Instruction}, u.allows constants X i → v.allows constants X i

theorem Refines.refl (v : View W) : v.Refines v :=
  ⟨rfl, rfl, id⟩

theorem Refines.onward {u v : View W} (h : u.Refines v) : u.onward = v.onward := by
  unfold View.onward
  rw [h.after]

variable [Preorder W]

/-- An instruction where this much is known. -/
structure Passes (constants : List Value) (goals : Nat → Option W) (i : Instruction) (Z : Option W) : Prop where
  anchor : i.op = .label → Z = goals i.operand
  allows : ∀ {X : W}, Z = some X → v.allows constants X i
  goal : ∀ {X : W}, Z = some X → i.op.jumps → some (v.taken i X) ≤ goals i.operand

/-- Code between two points where things are known. At each instruction something of it may be given up. -/
def Flows (constants : List Value) (goals : Nat → Option W) (X : Option W) :
    List Instruction → Option W → Prop
  | [], Y => X ≤ Y
  | i :: code, Y => ∃ Z, X ≤ Z ∧ v.Passes constants goals i Z ∧
      Flows constants goals (v.onward constants i Z) code Y

/-- What is known at the addresses of code, in agreement along its paths. -/
structure Charted (constants : List Value) (code : List Instruction) (D : Nat → Option W) : Prop where
  allows : ∀ {pc : Nat} {X : W}, D pc = some X → ∃ i, code[pc]? = some i ∧ v.allows constants X i
  next : ∀ {pc : Nat} {i : Instruction}, code[pc]? = some i → v.onward constants i (D pc) ≤ D (pc + 1)
  target : ∀ {pc : Nat} {X : W} {i : Instruction}, D pc = some X → code[pc]? = some i →
    i.op.jumps → ∃ target, Chunk.anchor? code i.operand = some target ∧ some (v.taken i X) ≤ D target

/-- What is known at the labels of code that is charted. -/
def goalsOf (code : List Instruction) (D : Nat → Option W) : Nat → Option W :=
  fun label => (Chunk.anchor? code label).bind D

variable {v} {constants pool more : List Value} {goals other : Nat → Option W} {X Y Z : Option W}
  {code rest : List Instruction} {i : Instruction} {D : Nat → Option W}

/-- An instruction that has to do with no label passes where it is allowed. -/
theorem passes_of_allows (labels : i.op.effect.operand ≠ .labels) {X : W} (allows : v.allows constants X i) :
    v.Passes constants goals i (some X) where
  anchor label := absurd (by rw [label]; rfl) labels
  allows same := Option.some.inj same ▸ allows
  goal _ jumps := absurd (Opcode.operand_of_jumps jumps) labels

namespace Flows

theorem refl (X : Option W) : v.Flows constants goals X [] X :=
  known_refl X

theorem cons (passes : v.Passes constants goals i X)
    (h : v.Flows constants goals (v.onward constants i X) code Y) :
    v.Flows constants goals X (i :: code) Y :=
  ⟨X, known_refl X, passes, h⟩

theorem single (le : X ≤ Z) (passes : v.Passes constants goals i Z) :
    v.Flows constants goals X [i] (v.onward constants i Z) :=
  ⟨Z, le, passes, known_refl _⟩

theorem weaken (h : v.Flows constants goals X code Y) {U : Option W} (before : U ≤ X) :
    v.Flows constants goals U code Y := by
  cases code with
  | nil => exact known_trans before h
  | cons i code =>
    obtain ⟨Z, le, passes, rest⟩ := h
    exact ⟨Z, known_trans before le, passes, rest⟩

theorem append (h : v.Flows constants goals X code Y) (g : v.Flows constants goals Y rest Z) :
    v.Flows constants goals X (code ++ rest) Z := by
  induction code generalizing X with
  | nil => exact g.weaken h
  | cons i code ih =>
    obtain ⟨U, le, passes, more⟩ := h
    exact ⟨U, le, passes, ih more⟩

theorem widen (h : v.Flows constants goals X code Y) (after : Y ≤ Z) : v.Flows constants goals X code Z := by
  have whole : v.Flows constants goals X (code ++ []) Z := h.append after
  rwa [List.append_nil] at whole

/-- Only the labels and constants of the code count. -/
theorem congr (h : v.Flows pool goals X code Y)
    (labels : ∀ i ∈ code, i.op.effect.operand = .labels → goals i.operand = other i.operand)
    (same : ∀ i ∈ code, i.op = .const → pool[i.operand]? = more[i.operand]?) :
    v.Flows more other X code Y := by
  induction code generalizing X with
  | nil => exact h
  | cons i code ih =>
    obtain ⟨Z, le, passes, rest⟩ := h
    have own := same i List.mem_cons_self
    refine ⟨Z, le, ⟨fun label => ?_, fun known => v.allows_congr own (passes.allows known),
      fun known jumps => ?_⟩, ?_⟩
    · rw [← labels i List.mem_cons_self (by rw [label]; rfl)]
      exact passes.anchor label
    · rw [← labels i List.mem_cons_self (Opcode.operand_of_jumps jumps)]
      exact passes.goal known jumps
    · rw [← v.onward_congr own]
      exact ih rest (fun j member => labels j (List.mem_cons_of_mem _ member))
        fun j member => same j (List.mem_cons_of_mem _ member)

theorem refine {u : View W} (r : u.Refines v) (h : u.Flows constants goals X code Y) :
    v.Flows constants goals X code Y := by
  induction code generalizing X with
  | nil => exact h
  | cons i code ih =>
    obtain ⟨Z, le, passes, rest⟩ := h
    refine ⟨Z, le, ⟨passes.anchor, fun known => r.allows (passes.allows known), ?_⟩, ih (r.onward ▸ rest)⟩
    exact r.taken ▸ passes.goal

/-- Where control does not come to, code is of no account. -/
theorem dead (labels : ∀ i ∈ code, i.op = .label → goals i.operand = none) :
    v.Flows constants goals none code none := by
  induction code with
  | nil => exact Option.none_le
  | cons i code ih =>
    refine cons ⟨fun label => (labels i List.mem_cons_self label).symm, nofun, nofun⟩ ?_
    rw [v.onward_none]
    exact ih fun j member => labels j (List.mem_cons_of_mem _ member)

/-- What is known along a flow, by addresses. -/
theorem marks (h : v.Flows constants goals X code none) : ∃ D : Nat → Option W, X ≤ D 0 ∧
    (∀ {pc : Nat} {i : Instruction}, code[pc]? = some i →
      v.Passes constants goals i (D pc) ∧ v.onward constants i (D pc) ≤ D (pc + 1)) ∧
    ∀ {pc : Nat}, code[pc]? = none → D pc = none := by
  induction code generalizing X with
  | nil => exact ⟨fun _ => none, h, fun here => (by cases here), fun _ => rfl⟩
  | cons i code ih =>
    obtain ⟨Z, le, passes, rest⟩ := h
    obtain ⟨D, start, steps, ends⟩ := ih rest
    refine ⟨fun pc => pc.casesOn Z D, le, fun {pc j} here => ?_, fun {pc} here => ?_⟩
    · cases pc with
      | zero =>
        obtain rfl := Option.some.inj here
        exact ⟨passes, start⟩
      | succ pc => exact steps here
    · cases pc with
      | zero => cases here
      | succ pc => exact ends here

/-- A flow of the whole code is a chart, if every label that is jumped to is there. -/
theorem charted (h : v.Flows constants goals X code none) (distinct : (Chunk.labelsOf code).Nodup)
    (anchored : ∀ i ∈ code, i.op.jumps → i.operand ∈ Chunk.labelsOf code) :
    ∃ D, v.Charted constants code D ∧ X ≤ D 0 := by
  obtain ⟨D, start, steps, ends⟩ := h.marks
  refine ⟨D, ⟨fun {pc X} known => ?_, fun here => (steps here).2, fun {pc X i} known here jumps => ?_⟩, start⟩
  · cases here : code[pc]? with
    | none => cases known.symm.trans (ends here)
    | some i => exact ⟨i, rfl, (steps here).1.allows known⟩
  · obtain ⟨target, found⟩ := Option.isSome_iff_exists.mp
      (Chunk.anchor?_isSome.mpr (anchored i (List.mem_of_getElem? here) jumps))
    obtain ⟨j, there, label, same⟩ := (Chunk.anchor?_eq_some_iff distinct).mp found
    refine ⟨target, found, ?_⟩
    rw [(steps there).1.anchor label, same]
    exact (steps here).1.goal known jumps

end Flows

namespace Charted

theorem passes (h : v.Charted constants code D) (distinct : (Chunk.labelsOf code).Nodup) {pc : Nat}
    (here : code[pc]? = some i) : v.Passes constants (goalsOf code D) i (D pc) where
  anchor label := by
    rw [goalsOf, (Chunk.anchor?_eq_some_iff distinct).mpr ⟨i, here, label, rfl⟩, Option.bind_some]
  allows known := by
    obtain ⟨j, again, allows⟩ := h.allows known
    obtain rfl := Option.some.inj (again.symm.trans here)
    exact allows
  goal known jumps := by
    obtain ⟨target, found, le⟩ := h.target known here jumps
    rw [goalsOf, found, Option.bind_some]
    exact le

theorem ends (h : v.Charted constants code D) {pc : Nat} (beyond : code.length ≤ pc) : D pc = none := by
  cases known : D pc with
  | none => rfl
  | some X =>
    obtain ⟨i, here, -⟩ := h.allows known
    have inside := (List.getElem?_eq_some_iff.mp here).1
    omega

theorem flows (h : v.Charted constants code D) (distinct : (Chunk.labelsOf code).Nodup) :
    v.Flows constants (goalsOf code D) (D 0) code none := by
  suffices ∀ rest start, code.drop start = rest →
      v.Flows constants (goalsOf code D) (D start) rest none from this code 0 rfl
  intro rest
  induction rest with
  | nil =>
    intro start ends
    rw [h.ends (List.drop_eq_nil_iff.mp ends)]
    exact Option.none_le
  | cons i rest ih =>
    intro start suffix
    have here : code[start]? = some i := by rw [← List.head?_drop, suffix, List.head?_cons]
    have later : code.drop (start + 1) = rest := by rw [← List.tail_drop, suffix, List.tail_cons]
    exact .cons (h.passes distinct here) ((ih (start + 1) later).weaken (h.next here))

theorem after (h : v.Charted constants code D) {pc : Nat} {X : W} (known : D pc = some X)
    (here : code[pc]? = some i) (stays : i.op.effect.exits = false) :
    ∃ Y, D (pc + 1) = some Y ∧ v.after constants i X ≤ Y := by
  have onward := h.next here
  rw [known, v.onward_some stays] at onward
  exact some_of_known onward

/-- A chart of code is one of the shorter code, if what is new in that is allowed. -/
theorem shortens (h : v.Charted constants code D) {short : List Instruction} {source : Nat → Nat}
    (shortens : Chunk.Shortens code short source) (distinct : (Chunk.labelsOf code).Nodup)
    (allows : ∀ {pc next : Nat} {k : Instruction} {X : W}, Chunk.StandsFor code pc next k → D pc = some X →
      v.allows constants X k) : v.Charted constants short (D ∘ source) where
  allows {pc X} known := by
    cases here : short[pc]? with
    | none =>
      obtain ⟨i, there, -⟩ := h.allows known
      cases there.symm.trans (shortens.ends here)
    | some k => exact ⟨k, rfl, allows (shortens.stands here) known⟩
  next {pc k} here := by
    cases leaves : k.op.effect.exits with
    | true =>
      rw [v.onward_exits leaves]
      exact Option.none_le
    | false =>
      obtain ⟨there, next⟩ := (shortens.stands here).same_of_stays leaves
      have onward := h.next there
      rw [← next] at onward
      exact onward
  target {pc X k} known here jumps := by
    obtain ⟨there, -⟩ := (shortens.stands here).same_of_operand (.inl (Opcode.operand_of_jumps jumps))
    obtain ⟨goal, found, le⟩ := h.target known there jumps
    have some := shortens.anchor_isSome k.operand
    rw [found] at some
    obtain ⟨target, again⟩ := Option.isSome_iff_exists.mp some.symm
    refine ⟨target, again, ?_⟩
    obtain rfl := Option.some.inj ((shortens.anchor distinct again).symm.trans found)
    exact le

end Charted

end View

end StackLisp
