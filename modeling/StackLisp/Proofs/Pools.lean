import StackLisp.Frame.Pool

/-!
Frames handed out are blank and have the size that was asked for, since the free frames of a class have
its capacity and are cleared.
-/

namespace StackLisp

/-- A blank frame of at least the size. -/
def Frame.Suits (frame : Frame) (size : Nat) : Prop :=
  ∃ length span, frame = blank length span ∧ size ≤ length

theorem Frame.clear_suits {frame : Frame} {size : Nat} (h : size ≤ frame.length) :
    frame.clear.Suits size :=
  ⟨frame.length, frame.span, rfl, h⟩

namespace Pool

/-- The free frames of each class are blank and have its capacity. -/
def Tidy (p : Pool) : Prop :=
  ∀ i, ∀ frame ∈ (p.classAt i).free, ∃ span, frame = Frame.blank (capacity i) span

theorem tidy_new (o : PoolOptions) : (new o).Tidy := by
  intro i frame member
  have empty : ((new o).classAt i).free = [] := by
    show ((List.replicate classCount ({} : SizeClass))[i]?.getD {}).free = []
    rw [List.getElem?_replicate]
    split <;> rfl
  rw [empty] at member
  cases member

theorem classAt_setClass (p : Pool) (i j : Nat) (c : SizeClass) :
    (p.setClass i c).classAt j = c ∨ (p.setClass i c).classAt j = p.classAt j := by
  show (p.classes.set i c)[j]?.getD {} = c ∨ (p.classes.set i c)[j]?.getD {} = p.classes[j]?.getD {}
  rw [List.getElem?_set]
  by_cases same : i = j
  · by_cases inside : j < p.classes.length
    · simp [same, inside]
    · simp [same, inside]
  · simp [same]

theorem classAt_setClass_ne (p : Pool) {i j : Nat} (c : SizeClass) (other : i ≠ j) :
    (p.setClass i c).classAt j = p.classAt j := by
  show (p.classes.set i c)[j]?.getD {} = p.classes[j]?.getD {}
  rw [List.getElem?_set_ne other]

theorem Tidy.setClass {p : Pool} (h : p.Tidy) {i : Nat} {c : SizeClass}
    (blanks : ∀ frame ∈ c.free, ∃ span, frame = Frame.blank (capacity i) span) :
    (p.setClass i c).Tidy := by
  intro j frame member
  by_cases same : i = j
  · subst same
    rcases classAt_setClass p i i c with new | old
    · rw [new] at member
      exact blanks frame member
    · rw [old] at member
      exact h i frame member
  · rw [classAt_setClass_ne p c same] at member
    exact h j frame member

theorem Tidy.alloc {p : Pool} (h : p.Tidy) (size : Nat) :
    (p.alloc size).frame.Suits size ∧ (p.alloc size).pool.Tidy := by
  cases chosen : classFor? size with
  | none =>
    simp only [Pool.alloc, chosen]
    exact ⟨⟨size, p.nextSpan, rfl, Nat.le_refl size⟩, h⟩
  | some i =>
    have fits : size ≤ capacity i := (classFor?_eq_some_iff.mp chosen).2.1
    cases listed : (p.classAt i).free with
    | cons frame free =>
      simp only [Pool.alloc, chosen, listed]
      have blanks := h i
      rw [listed] at blanks
      obtain ⟨⟨span, first⟩, rest⟩ := List.forall_mem_cons.mp blanks
      exact ⟨⟨capacity i, span, first, fits⟩, h.setClass rest⟩
    | nil =>
      cases count : p.spanEntries with
      | zero =>
        simp only [Pool.alloc, chosen, listed, carve, count, List.replicate]
        exact ⟨⟨capacity i, _, rfl, fits⟩, Tidy.setClass h fun _ member => nomatch member⟩
      | succ n =>
        simp only [Pool.alloc, chosen, listed, carve, count, List.replicate]
        refine ⟨⟨capacity i, _, rfl, fits⟩, Tidy.setClass h fun frame member => ?_⟩
        exact ⟨p.nextSpan, (List.mem_replicate.mp member).2⟩

theorem Tidy.free {p : Pool} (h : p.Tidy) (frame : Frame) : (p.free frame).Tidy := by
  unfold Pool.free
  split
  · exact h
  · rename_i i chosen
    split
    · rename_i whole
      refine h.setClass fun other member => ?_
      rcases List.mem_cons.mp member with rfl | old
      · exact ⟨frame.span, by rw [whole]; rfl⟩
      · exact h i other old
    · exact h

theorem Tidy.reserve {p : Pool} (h : p.Tidy) (frame : Frame) (size : Nat) :
    (p.reserve frame size).frame.Suits size ∧ (p.reserve frame size).pool.Tidy := by
  unfold Pool.reserve
  split
  · rename_i fits
    exact ⟨Frame.clear_suits fits, h⟩
  · exact ⟨(h.alloc size).1, (h.alloc size).2.free frame⟩

end Pool

end StackLisp
