import Mathlib.Data.Finset.Lattice.Fold
import StackLisp.Proofs.Careful
import StackLisp.Proofs.Outlook
import StackLisp.Proofs.Views

/-!
Charts: an outlook for each address that control can come to, which allows the instruction there and
which the instruction leads on. Code with a chart passes the check, stores to each slot before it loads
it, and still has a chart when it is shortened.
-/

namespace StackLisp

namespace Outlook

/-- What is known of the operands, the arguments and the slots that are stored to. -/
def view : View Outlook where
  allows _ X i := X.Allows i
  after constants i X := X.after constants i
  taken i X := X.taken i
  allows_congr _ _ h := h
  after_congr {pool more i} same := by
    refine funext fun X => ?_
    unfold after
    by_cases const : i.op = .const
    · rw [same const]
    · split <;> first | rfl | contradiction

theorem onward_some {i : Instruction} (stays : i.op.effect.exits = false) (constants : List Value) (X : Outlook) :
    view.onward constants i (some X) = some (X.after constants i) :=
  view.onward_some stays constants X

theorem passes {constants : List Value} {goals : Nat → Option Outlook} {i : Instruction} {X : Outlook}
    (labels : i.op.effect.operand ≠ .labels) (allows : X.Allows i) : view.Passes constants goals i (some X) :=
  View.passes_of_allows labels allows

end Outlook

namespace Chunk

open Outlook

/-- An operand that points into the chunk does not point past its end. -/
def Fits (c : Chunk) (i : Instruction) : Prop :=
  match i.op.effect.operand with
  | .constants => i.operand < c.constants.length
  | .locals => i.operand < c.localCount
  | .labels => i.operand < c.labelCount
  | _ => True

/-- The outlook where a call with so many arguments starts. -/
def Start (least : Nat) : Outlook :=
  { least }

/-- Code whose operands point into its chunk, with each label once and an anchor for each jump. -/
structure Formed (c : Chunk) : Prop where
  fits : ∀ i ∈ c.code, c.Fits i
  distinct : (labelsOf c.code).Nodup
  anchored : ∀ i ∈ c.code, i.op.jumps → i.operand ∈ labelsOf c.code

/-- Code that runs as its chart says when it is called with so many arguments at least. -/
structure Mapped (c : Chunk) (least : Nat) : Prop extends c.Formed where
  chart : ∃ D, view.Charted c.constants c.code D ∧ some (Start least) ≤ D 0

theorem pushes_of_jumps {i : Instruction} (h : i.op.jumps) : i.pushes = 0 := by
  unfold Opcode.jumps at h
  unfold Instruction.pushes
  generalize i.op = op at h ⊢
  cases op <;> first | rfl | cases h

theorem Closes.allows {i k : Instruction} (h : Closes i k) {X : Outlook}
    (whole : X.stack.length = k.pops) : X.Allows k := by
  refine ⟨whole.ge, fun _ _ _ => whole, ?_, ?_, ?_, ?_⟩ <;>
  · intro op
    obtain ⟨other, operand, small⟩ := i
    rcases h with ⟨fused, fuses, rfl⟩ | form
    · cases other <;> cases fuses <;> cases op
    · cases other <;> cases form <;> cases op

theorem Shortens.mem_or {code short : List Instruction} {source : Nat → Nat} (h : Shortens code short source) {k : Instruction} (member : k ∈ short) :
    k ∈ code ∨ k.op.effect.operand = .nothing ∨ k.op = .tailCall := by
  obtain ⟨pc, here⟩ := List.mem_iff_getElem?.mp member
  cases h.stands here with
  | same there onward => exact .inl (List.mem_of_getElem? there)
  | ret exits returns => exact .inr (.inl (by rw [returns]; rfl))
  | @closes i there closes exits =>
    refine .inr ?_
    obtain ⟨op, operand, small⟩ := i
    rcases closes with ⟨fused, fuses, rfl⟩ | form
    · cases op <;> cases fuses <;> exact .inl rfl
    · cases op <;> cases form <;> exact .inr rfl

theorem Formed.shorten {c : Chunk} (h : c.Formed) : ({ c with code := Chunk.shorten c.code } : Chunk).Formed := by
  obtain ⟨source, shortens⟩ := shortens_shorten h.distinct
  refine ⟨fun k member => ?_, ?_, fun k member jumps => ?_⟩
  · rcases shortens.mem_or member with old | plain | tail
    · exact h.fits k old
    · unfold Fits
      rw [plain]
      trivial
    · unfold Fits
      rw [tail]
      trivial
  · exact shortens.labels ▸ h.distinct
  · rw [shortens.labels]
    exact h.anchored k (shortens.mem_of_operand member (.inl (Opcode.operand_of_jumps jumps))) jumps

end Chunk

namespace View.Charted

open Chunk

variable {constants : List Value} {code short : List Instruction} {D : Nat → Option Outlook}
  {c : Chunk}

theorem length_after (h : Outlook.view.Charted constants code D) {pc : Nat} {X : Outlook} {i : Instruction}
    (at_pc : D pc = some X) (here : code[pc]? = some i) (stays : i.op.effect.exits = false) :
    ∃ Y, D (pc + 1) = some Y ∧ Y.stack.length = i.depthAfter X.stack.length := by
  obtain ⟨Y, there, le⟩ := h.after at_pc here stays
  refine ⟨Y, there, ?_⟩
  rw [← le.stack.length_eq, Instruction.depthAfter]
  exact Outlook.length_after X i

/-- The stacks of a chart are depths along the paths. -/
theorem levels (h : Outlook.view.Charted constants code D) {least : Nat} (start : some (Start least) ≤ D 0) :
    ∃ bound, Levels code bound fun pc depth => ∃ X, D pc = some X ∧ X.stack.length = depth := by
  let size pc := (((D pc).map (·.stack.length + 1)).getD 0)
  have bounded {pc : Nat} {X : Outlook} {i : Instruction} (at_pc : D pc = some X)
      (here : code[pc]? = some i) : X.stack.length + 1 ≤ (Finset.range code.length).sup size := by
    have inside : pc ∈ Finset.range code.length :=
      Finset.mem_range.mpr (List.getElem?_eq_some_iff.mp here).1
    have le : size pc ≤ _ := Finset.le_sup inside
    simpa [size, at_pc] using le
  refine ⟨(Finset.range code.length).sup size, ?_, ?_, ?_, ?_, ?_⟩
  · obtain ⟨X, at_start, le⟩ := some_of_known start
    exact ⟨X, at_start, le.stack.length_eq.symm⟩
  · rintro pc _ _ ⟨X, at_pc, rfl⟩ ⟨Y, again, rfl⟩
    rw [Option.some.inj (at_pc.symm.trans again)]
  · rintro pc _ ⟨X, at_pc, rfl⟩
    obtain ⟨i, here, allows⟩ := h.allows at_pc
    have below := bounded at_pc here
    have one : i.pushes ≤ 1 := by
      unfold Instruction.pushes
      cases i.op <;> decide
    refine ⟨i, here, allows.pops, by omega, ?_⟩
    unfold Instruction.depthAfter
    omega
  · rintro pc _ i ⟨X, at_pc, rfl⟩ here stays
    obtain ⟨Y, there, length⟩ := h.length_after at_pc here stays
    exact ⟨Y, there, length⟩
  · rintro pc _ target i ⟨X, at_pc, rfl⟩ here jumps found
    obtain ⟨goal, again, le⟩ := h.target at_pc here jumps
    obtain rfl := Option.some.inj (again.symm.trans found)
    obtain ⟨Y, there, le⟩ := some_of_known le
    refine ⟨Y, there, ?_⟩
    rw [← le.stack.length_eq, Instruction.depthAfter, pushes_of_jumps jumps]
    exact List.length_drop

/-- What is stored to where control does not come to is of no account. -/
theorem stores (h : Outlook.view.Charted c.constants c.code D) (start : some (Start least) ≤ D 0) :
    c.Stores fun pc slot => ∀ X, D pc = some X → X.stored slot where
  start stored := by
    obtain ⟨X, at_start, le⟩ := some_of_known start
    exact le.stored _ (stored X at_start)
  next := by
    intro pc slot i here stays stored
    refine Classical.or_iff_not_imp_right.mpr fun other X at_pc => ?_
    obtain ⟨Y, there, le⟩ := h.after at_pc here stays
    exact (Outlook.stored_after X i (le.stored _ (stored Y there))).resolve_right other
  target := by
    intro pc target slot i here jumps found stored X at_pc
    obtain ⟨goal, again, le⟩ := h.target at_pc here jumps
    obtain rfl := Option.some.inj (again.symm.trans found)
    obtain ⟨Y, there, le⟩ := some_of_known le
    exact le.stored _ (stored Y there)
  loads := by
    intro pc i here loads X at_pc
    obtain ⟨j, again, allows⟩ := h.allows at_pc
    obtain rfl := Option.some.inj (again.symm.trans here)
    exact allows.slots loads

theorem exits (h : Outlook.view.Charted constants code D) {pc : Nat} (leads : Exits code pc) {X : Outlook}
    (at_pc : D pc = some X) : X.stack.length = 1 := by
  induction leads generalizing X with
  | @ret pc i here ret =>
    obtain ⟨j, again, allows⟩ := h.allows at_pc
    obtain rfl := Option.some.inj (again.symm.trans here)
    rw [allows.exits (by rw [ret]; rfl) (by rw [ret]; nofun) (by rw [ret]; nofun)]
    simp [Instruction.pops, ret, Opcode.effect]
  | @label pc i here label _ ih =>
    obtain ⟨Y, there, length⟩ := h.length_after at_pc here (by rw [label]; rfl)
    rw [ih there, Instruction.depthAfter] at length
    simpa [Instruction.pops, Instruction.pushes, label, Opcode.effect] using length.symm
  | @jump pc target i here jump goal _ ih =>
    obtain ⟨other, again, le⟩ := h.target at_pc here (by rw [jump]; rfl)
    obtain rfl := Option.some.inj (again.symm.trans goal)
    obtain ⟨Y, there, le⟩ := some_of_known le
    have length := le.stack.length_eq
    rw [ih there] at length
    simpa [Outlook.view, Outlook.taken, Instruction.pops, jump, Opcode.effect] using length

/-- Where the shorter code stands, what is known in the longer allows the instruction. -/
theorem allows_short (h : Outlook.view.Charted constants code D) {pc next : Nat} {k : Instruction}
    (stands : StandsFor code pc next k) {X : Outlook} (at_pc : D pc = some X) : X.Allows k := by
  cases stands with
  | same here onward =>
    obtain ⟨j, again, allows⟩ := h.allows at_pc
    obtain rfl := Option.some.inj (again.symm.trans here)
    exact allows
  | ret exits returns =>
    subst returns
    have length := h.exits exits at_pc
    exact ⟨length.ge, fun _ _ _ => length, nofun, nofun, nofun, nofun⟩
  | @closes i here closes exits =>
    obtain ⟨j, again, allows⟩ := h.allows at_pc
    obtain rfl := Option.some.inj (again.symm.trans here)
    have spec := closes.spec
    obtain ⟨Y, there, length⟩ := h.length_after at_pc here spec.exits.2
    rw [h.exits exits there, Instruction.depthAfter, spec.pushes.2] at length
    have enough := allows.pops
    have pops := spec.pops
    exact closes.allows (by omega)

end View.Charted

namespace Chunk

variable {c : Chunk} {least : Nat}

/-- Code with a chart is accepted. -/
theorem Mapped.verify (h : c.Mapped least) : ∃ checked, c.verify = .ok checked := by
  obtain ⟨D, charted, start⟩ := h.chart
  obtain ⟨bound, levels⟩ := charted.levels start
  obtain ⟨checked, accepted, -⟩ := verify_of_levels h.distinct
    (fun i member jumps => anchor?_isSome.mpr (h.anchored i member jumps)) levels
  exact ⟨checked, accepted⟩

theorem Mapped.careful (h : c.Mapped least) : c.Careful where
  accepted := h.verify
  bounded member operand := by
    have fits := h.fits _ member
    rwa [Fits, operand] at fits
  stored := by
    obtain ⟨D, charted, start⟩ := h.chart
    exact ⟨_, charted.stores start⟩

theorem Mapped.shorten (h : c.Mapped least) :
    ({ c with code := Chunk.shorten c.code } : Chunk).Mapped least := by
  obtain ⟨source, shortens⟩ := shortens_shorten h.distinct
  obtain ⟨D, charted, start⟩ := h.chart
  refine ⟨h.toFormed.shorten, D ∘ source,
    charted.shortens shortens h.distinct fun stands at_pc => charted.allows_short stands at_pc, ?_⟩
  rw [Function.comp, shortens.start]
  exact start

end Chunk

end StackLisp
