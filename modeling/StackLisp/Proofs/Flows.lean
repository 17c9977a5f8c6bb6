import StackLisp.Proofs.Charts

/-!
Flows along stretches of code while labels and constants are added: those that code does not mention are of
no account to it.
-/

namespace StackLisp

theorem getElem?_of_longer {α : Type} {xs ys : List α} (h : xs <+: ys) {n : Nat} {a : α}
    (found : xs[n]? = some a) : ys[n]? = some a := by
  obtain ⟨inside, rfl⟩ := List.getElem?_eq_some_iff.mp found
  exact List.prefix_iff_getElem?.mp h n inside

theorem Chunk.suffix_cons {code rest : List Instruction} {start : Nat} {i : Instruction}
    (suffix : code.drop start = i :: rest) : code[start]? = some i ∧ code.drop (start + 1) = rest := by
  constructor
  · rw [← List.head?_drop, suffix, List.head?_cons]
  · rw [← List.tail_drop, suffix, List.tail_cons]

/-- The labels and constants that an instruction mentions are those of the chunk. -/
structure Chunk.Mentions (c : Chunk) (i : Instruction) : Prop where
  label : i.op.effect.operand = .labels → i.operand < c.labelCount
  constant : i.op = .const → i.operand < c.constants.length

theorem Chunk.Fits.mentions {c : Chunk} {i : Instruction} (h : c.Fits i) : c.Mentions i where
  label labels := by
    unfold Chunk.Fits at h
    rwa [labels] at h
  constant const := by
    unfold Chunk.Fits at h
    rwa [const] at h

theorem Chunk.Mentions.mono {c d : Chunk} {i : Instruction} (h : c.Mentions i)
    (constants : c.constants.length ≤ d.constants.length) (labels : c.labelCount ≤ d.labelCount) : d.Mentions i :=
  ⟨fun op => Nat.lt_of_lt_of_le (h.label op) labels, fun op => Nat.lt_of_lt_of_le (h.constant op) constants⟩

namespace View

variable {W : Type} [Preorder W] {v : View W} {more pool : List Value} {goals other own : Nat → Option W}
  {X Y Z : Option W} {code rest seg : List Instruction}

/-- Labels and constants that a chunk does not have yet are of no account to code that mentions its own. -/
theorem Flows.fresh {c : Chunk} (h : v.Flows c.constants goals X code Y) (mentions : ∀ i ∈ code, c.Mentions i)
    (agree : ∀ label < c.labelCount, other label = goals label) (grows : c.constants <+: more) :
    v.Flows more other X code Y := by
  refine h.congr (fun i member labels => (agree _ ((mentions i member).label labels)).symm) fun i member const => ?_
  obtain ⟨v, found⟩ : ∃ v, c.constants[i.operand]? = some v :=
    ⟨_, List.getElem?_eq_getElem ((mentions i member).constant const)⟩
  rw [found, getElem?_of_longer grows found]

end View

end StackLisp
