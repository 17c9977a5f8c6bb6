import StackLisp.Proofs.Charts

/-!
Labels of code that others are put into. The ones that are new have numbers of their own, so no label comes
twice, and every jump still has a label to go to.
-/

namespace StackLisp.Chunk

/-- Labels are numbered below the count that the chunk gives, each stands once, and every jump has one. -/
structure Numbered (c : Chunk) : Prop where
  below : ∀ i ∈ c.code, i.op.effect.operand = .labels → i.operand < c.labelCount
  distinct : (labelsOf c.code).Nodup
  anchored : ∀ i ∈ c.code, i.op.jumps → i.operand ∈ labelsOf c.code

/-- Code with labels as before and perhaps new ones, from a number on and below another. -/
structure Renumbers (low high : Nat) (code longer : List Instruction) : Prop where
  le : low ≤ high
  kept : ∀ label ∈ labelsOf code, label ∈ labelsOf longer
  new : ∀ label ∈ labelsOf longer, label ∈ labelsOf code ∨ low ≤ label ∧ label < high
  distinct : (labelsOf code).Nodup → (∀ label ∈ labelsOf code, label < low) → (labelsOf longer).Nodup
  jumps : ∀ i ∈ longer, i.op.jumps → i ∈ code ∨ i.operand ∈ labelsOf longer

variable {c : Chunk} {low mid high : Nat} {code rest longer others : List Instruction}

theorem Opcode.anchors_or_jumps {op : Opcode} (labels : op.effect.operand = .labels) : op = .label ∨ op.jumps := by
  cases op <;> first | exact .inl rfl | exact .inr rfl | cases labels

theorem Formed.numbered (h : c.Formed) : c.Numbered where
  below i member labels := by
    have fits := h.fits i member
    unfold Fits at fits
    rwa [labels] at fits
  distinct := h.distinct
  anchored := h.anchored

theorem Numbered.label_lt (h : c.Numbered) {label : Nat} (member : label ∈ labelsOf c.code) :
    label < c.labelCount := by
  obtain ⟨i, inside, anchors, rfl⟩ := mem_labelsOf.mp member
  exact h.below i inside (by rw [anchors]; rfl)

theorem Renumbers.same (code : List Instruction) (count : Nat) : Renumbers count count code code where
  le := Nat.le_refl _
  kept _ := id
  new _ := .inl
  distinct each _ := each
  jumps _ member _ := .inl member

theorem Renumbers.append (h : Renumbers low mid code longer) (g : Renumbers mid high rest others) :
    Renumbers low high (code ++ rest) (longer ++ others) where
  le := Nat.le_trans h.le g.le
  kept label member := by
    rw [labelsOf_append] at member ⊢
    exact (List.mem_append.mp member).elim (fun here => List.mem_append_left _ (h.kept label here))
      fun there => List.mem_append_right _ (g.kept label there)
  new label member := by
    rw [labelsOf_append] at member ⊢
    rcases List.mem_append.mp member with here | there
    · rcases h.new label here with old | ⟨least, most⟩
      · exact .inl (List.mem_append_left _ old)
      · exact .inr ⟨least, Nat.lt_of_lt_of_le most g.le⟩
    · rcases g.new label there with old | ⟨least, most⟩
      · exact .inl (List.mem_append_right _ old)
      · exact .inr ⟨Nat.le_trans h.le least, most⟩
  distinct each below := by
    rw [labelsOf_append] at each below ⊢
    obtain ⟨first, second, apart⟩ := List.nodup_append.mp each
    obtain ⟨before, after⟩ := List.forall_mem_append.mp below
    refine List.nodup_append.mpr ⟨h.distinct first before, g.distinct second fun label member =>
      Nat.lt_of_lt_of_le (after label member) h.le, ?_⟩
    rintro label here _ there rfl
    rcases h.new label here with old | ⟨least, most⟩
    · rcases g.new label there with again | ⟨least, -⟩
      · exact apart label old label again rfl
      · have earlier := before label old
        have between := h.le
        omega
    · rcases g.new label there with again | ⟨beyond, -⟩
      · have earlier := after label again
        omega
      · omega
  jumps i member op := by
    rw [labelsOf_append]
    rcases List.mem_append.mp member with here | there
    · exact (h.jumps i here op).imp (List.mem_append_left _) (List.mem_append_left _)
    · exact (g.jumps i there op).imp (List.mem_append_right _) (List.mem_append_right _)

/-- A label or a jump that is not of the code as it was has one of the new labels. -/
theorem Renumbers.numbered (h : Renumbers c.labelCount high c.code longer) (numbered : c.Numbered) :
    ({ c with code := longer, labelCount := high } : Chunk).Numbered where
  below i member labels := by
    have anchored {label : Nat} (inside : label ∈ labelsOf longer) : label < high := by
      rcases h.new label inside with old | ⟨-, less⟩
      · exact Nat.lt_of_lt_of_le (numbered.label_lt old) h.le
      · exact less
    rcases Opcode.anchors_or_jumps labels with anchors | jumps
    · exact anchored (mem_labelsOf.mpr ⟨i, member, anchors, rfl⟩)
    · rcases h.jumps i member jumps with old | new
      · exact Nat.lt_of_lt_of_le (numbered.below i old labels) h.le
      · exact anchored new
  distinct := h.distinct numbered.distinct fun _ => numbered.label_lt
  anchored i member jumps :=
    (h.jumps i member jumps).elim (fun old => h.kept _ (numbered.anchored i old jumps)) id

theorem Numbered.shorten (h : c.Numbered) : ({ c with code := Chunk.shorten c.code } : Chunk).Numbered := by
  obtain ⟨source, shortens⟩ := shortens_shorten h.distinct
  refine ⟨fun k member labels => ?_, shortens.labels ▸ h.distinct, fun k member jumps => ?_⟩
  · exact h.below k (shortens.mem_of_operand member (.inl labels)) labels
  · rw [shortens.labels]
    exact h.anchored k (shortens.mem_of_operand member (.inl (Opcode.operand_of_jumps jumps))) jumps

end StackLisp.Chunk
