import StackLisp.Proofs.Inlining

/-!
Where code stands once calls in it are inlined. Each address of the code has one beside it in the longer code,
but for those of the calls that are replaced; each address of a body has one where the body is lodged. Labels
are found at the addresses beside each other.
-/

namespace StackLisp.Chunk

/-- A chunk that more constants, slots and labels are added to. -/
structure Extends (c d : Chunk) : Prop where
  constants : c.constants <+: d.constants
  locals : c.localCount ≤ d.localCount
  labels : c.labelCount ≤ d.labelCount
  globals : d.globals = c.globals

variable {b c d e : Chunk} {callee : Closure} {s : Site} {code longer body after : List Instruction}
  {constants : List Value} {count pc spot : Nat} {tail : Bool} {i : Instruction} {good : Bool → Closure → Prop}

theorem Extends.refl (c : Chunk) : c.Extends c :=
  ⟨List.prefix_refl _, Nat.le_refl _, Nat.le_refl _, rfl⟩

theorem Extends.trans (h : b.Extends c) (g : c.Extends d) : b.Extends d :=
  ⟨h.constants.trans g.constants, Nat.le_trans h.locals g.locals, Nat.le_trans h.labels g.labels,
    g.globals.trans h.globals⟩

theorem Spliced.locals (h : Spliced c callee count tail code d) :
    d.localCount = c.localCount + callee.procedure.localCount := by
  rw [h.mem.1]
  rfl

theorem Spliced.extends (h : Spliced c callee count tail code d) : c.Extends d where
  constants := h.constants
  locals := h.locals ▸ Nat.le_add_right _ _
  labels := by
    rw [h.mem.1]
    change c.labelCount ≤ if tail then _ else _
    split <;> omega
  globals := h.globals

theorem Inlines.extends (h : Inlines good c code longer d) : c.Extends d := by
  induction h with
  | nil => exact .refl _
  | keep _ ih => exact ih
  | splice _ _ _ _ _ _ _ spliced _ ih => exact spliced.extends.trans ih

/-! ### Addresses beside each other -/

/-- From an address of the longer code on stands what becomes of the code from another on. -/
def Alongside (good : Bool → Closure → Prop) (c : Chunk) (longer : List Instruction) (d : Chunk)
    (pc spot : Nat) : Prop :=
  ∃ b, c.Extends b ∧ Inlines good b (c.code.drop pc) (longer.drop spot) d

/-- What stands at an address of the longer code: the instruction beside it, or a body in the place of the call
that begins there. -/
inductive Alongside.Next (good : Bool → Closure → Prop) (c : Chunk) (longer : List Instruction) (d : Chunk)
    (pc spot : Nat) (i : Instruction) : Prop
  | kept (there : longer[spot]? = some i) (onward : Alongside good c longer d (pc + 1) (spot + 1))
  | replaced {b e : Chunk} {j : Instruction} {callee : Closure} {count : Nat} {tail : Bool}
    {body : List Instruction} (const : i.op = .const) (found : b.constants[i.operand]? = some callee.value)
    (next : c.code[pc + 1]? = some j) (shape : callShape? j = some (count, tail)) (callees : good tail callee)
    (home : callee.procedure.globals = c.globals) (accepts : callee.procedure.arity.accepts count)
    (before : c.Extends b) (spliced : Spliced b callee count tail body e)
    (later : e.Extends d) (there : body <+: longer.drop spot)
    (onward : Alongside good c longer d (pc + 2) (spot + body.length))

theorem Alongside.next (h : Alongside good c longer d pc spot) (here : c.code[pc]? = some i) :
    Alongside.Next good c longer d pc spot i := by
  obtain ⟨b, before, inlines⟩ := h
  generalize rest : c.code.drop pc = code at inlines
  generalize others : longer.drop spot = made at inlines
  cases inlines with
  | nil =>
    have beyond := List.drop_eq_nil_iff.mp rest
    have inside := (List.getElem?_eq_some_iff.mp here).1
    omega
  | keep inlines =>
    obtain ⟨same, later⟩ := suffix_cons rest
    obtain ⟨there, onward⟩ := suffix_cons others
    obtain rfl := Option.some.inj (here.symm.trans same)
    exact .kept there ⟨b, before, later ▸ onward ▸ inlines⟩
  | @splice _ e _ _ j callee count tail rest' body more const found shape callees home accepts _ spliced inlines =>
    obtain ⟨same, later⟩ := suffix_cons rest
    obtain ⟨next, after⟩ := suffix_cons later
    obtain rfl := Option.some.inj (here.symm.trans same)
    refine .replaced const found next shape callees (home.trans before.globals) accepts before spliced inlines.extends
      (others ▸ List.prefix_append _ _) ⟨e, before.trans spliced.extends, ?_⟩
    have onward : longer.drop (spot + body.length) = more := by
      rw [← List.drop_drop, others, List.drop_left]
    exact after ▸ onward ▸ inlines

theorem Inlines.label (h : Inlines good b code longer d) (here : code[pc]? = some i) (label : i.op = .label) :
    ∃ spot e, longer[spot]? = some i ∧ b.Extends e ∧ Inlines good e (code.drop pc) (longer.drop spot) d := by
  induction h generalizing pc with
  | nil => cases here
  | @keep b d k code rest others ih =>
    cases pc with
    | zero => exact ⟨0, b, here, .refl b, .keep others⟩
    | succ pc =>
      obtain ⟨spot, e, there, more, inlines⟩ := ih here
      exact ⟨spot + 1, e, there, more, inlines⟩
  | @splice b e _ k j callee count tail code body rest const _ shape _ _ _ _ spliced _ ih =>
    match pc, here with
    | 0, here =>
      obtain rfl := Option.some.inj here
      cases label.symm.trans const
    | 1, here =>
      obtain rfl := Option.some.inj here
      simp [callShape?, label] at shape
    | pc + 2, here =>
      obtain ⟨spot, f, there, more, inlines⟩ := ih here
      refine ⟨body.length + spot, f, ?_, spliced.extends.trans more, ?_⟩
      · rw [List.getElem?_append_right (Nat.le_add_right _ _), Nat.add_sub_cancel_left]
        exact there
      · rw [List.drop_length_add_append]
        exact inlines

/-- A label of the code is at the address beside its own. -/
theorem Inlines.anchor (h : Inlines good c c.code longer d) (distinct : (labelsOf c.code).Nodup)
    (others : (labelsOf longer).Nodup) {label : Nat} (found : anchor? c.code label = some pc) :
    ∃ spot, anchor? longer label = some spot ∧ Alongside good c longer d pc spot := by
  obtain ⟨i, here, op, same⟩ := (anchor?_eq_some_iff distinct).mp found
  obtain ⟨spot, e, there, more, inlines⟩ := h.label here op
  exact ⟨spot, (anchor?_eq_some_iff others).mpr ⟨i, there, op, same⟩, e, more, inlines⟩

/-! ### Addresses of a body in its place -/

/-- From an address of the longer code on stands what becomes of a body from an address on, up to what comes
after it. Its constants are in the pool. -/
def Lodged (longer : List Instruction) (constants : List Value) (s : Site) (callee : Closure)
    (after : List Instruction) (pc spot : Nat) : Prop :=
  ∃ b e code, RelocatedAll s callee b (callee.procedure.code.drop pc) code e ∧ e.constants <+: constants ∧
    longer.drop spot = code ++ after

theorem Lodged.next (h : Lodged longer constants s callee after pc spot)
    (here : callee.procedure.code[pc]? = some i) : ∃ b e code, Relocated s callee b i code e ∧
      e.constants <+: constants ∧ code <+: longer.drop spot ∧
        Lodged longer constants s callee after (pc + 1) (spot + code.length) := by
  obtain ⟨b, e, code, moved, pool, there⟩ := h
  generalize rest : callee.procedure.code.drop pc = body at moved
  cases moved with
  | nil =>
    have beyond := List.drop_eq_nil_iff.mp rest
    have inside := (List.getElem?_eq_some_iff.mp here).1
    omega
  | @cons _ f _ k body first others one moved =>
    obtain ⟨same, later⟩ := suffix_cons rest
    obtain rfl := Option.some.inj (here.symm.trans same)
    rw [List.append_assoc] at there
    refine ⟨b, f, first, one, moved.constants.trans pool, there ▸ List.prefix_append _ _, f, e, others, later ▸ moved,
      pool, ?_⟩
    rw [← List.drop_drop, there, List.drop_left]

theorem RelocatedAll.label (h : RelocatedAll s callee b body code e) (here : body[pc]? = some i)
    (label : i.op = .label) : ∃ spot f j, code[spot]? = some j ∧ j.op = .label ∧
      j.operand = i.operand + s.labelBase ∧ RelocatedAll s callee f (body.drop pc) (code.drop spot) e := by
  induction h generalizing pc with
  | nil => cases here
  | @cons b d e k body first rest one others ih =>
    cases pc with
    | zero =>
      obtain rfl := Option.some.inj here
      have labelled : labelsOf first = [k.operand + s.labelBase] := by
        rw [one.labels, labelsOf_cons_label label]
        rfl
      cases one with
      | @label _ h => exact ⟨0, b, ⟨k.op, k.operand + s.labelBase, h⟩, rfl, label, rfl, .cons (.label ‹_› h) others⟩
      | kept _ op =>
        rw [label] at op
        exact absurd rfl op.2.2.2
      | slot locals _ =>
        rw [label] at locals
        cases locals
      | constant found _ =>
        rcases constantFor?_fetches found with op | op <;> cases label.symm.trans op
      | ret _ op _ => cases label.symm.trans op
      | call _ op _ => cases label.symm.trans op
      | literal _ fused _ =>
        obtain ⟨-, closed⟩ := effect_fused fused
        rw [label] at closed
        cases closed
    | succ pc =>
      obtain ⟨spot, f, j, there, op, operand, moved⟩ := ih here
      refine ⟨first.length + spot, f, j, ?_, op, operand, ?_⟩
      · rw [List.getElem?_append_right (Nat.le_add_right _ _), Nat.add_sub_cancel_left]
        exact there
      · rw [List.drop_length_add_append]
        exact moved

/-- A label of a body is where the body is lodged. -/
theorem Lodged.anchor (h : Lodged longer constants s callee after 0 spot)
    (distinct : (labelsOf callee.procedure.code).Nodup) (others : (labelsOf longer).Nodup) {label : Nat}
    (found : anchor? callee.procedure.code label = some pc) :
    ∃ target, anchor? longer (label + s.labelBase) = some target ∧
      Lodged longer constants s callee after pc target := by
  obtain ⟨i, here, op, rfl⟩ := (anchor?_eq_some_iff distinct).mp found
  obtain ⟨b, e, code, moved, pool, there⟩ := h
  obtain ⟨m, f, j, inside, label, operand, rest⟩ := moved.label here op
  have low : m < code.length := (List.getElem?_eq_some_iff.mp inside).1
  refine ⟨spot + m, (anchor?_eq_some_iff others).mpr ⟨j, ?_, label, operand⟩, f, e, code.drop m, rest, pool, ?_⟩
  · rw [← List.getElem?_drop, there, List.getElem?_append_left low]
    exact inside
  · rw [← List.drop_drop, there, List.drop_append_of_le_length (Nat.le_of_lt low)]

/-- Where a body is left: the label of its exit, and the arguments put aside before that come back. -/
def Leaves (longer : List Instruction) (exit last : Nat) : Prop :=
  (∃ i, longer[last]? = some i ∧ i.op = .label ∧ i.operand = exit) ∧
    longer[last + 1]? = some Opcode.popArgs.bare

/-- The body in the place of a call is lodged behind the instruction that stages its arguments, and before its
exit if it has one. -/
theorem Spliced.lodged (h : Spliced b callee count tail body e) (there : body <+: longer.drop spot)
    (pool : e.constants <+: constants) :
    (∃ small : count ≤ maxOperand, longer[spot]? = some ⟨.pushArgs, count, small⟩) ∧
      (∃ after, Lodged longer constants (b.siteFor callee.procedure tail) callee after 0 (spot + 1)) ∧
        (tail = false → ∃ last, last + 2 = spot + body.length ∧
          Leaves longer (b.siteFor callee.procedure tail).exit last) := by
  obtain ⟨rest, there⟩ := there
  cases h with
  | @tail code d small moved =>
    obtain ⟨here, later⟩ := suffix_cons there.symm
    exact ⟨⟨small, here⟩, ⟨rest, _, _, _, moved, pool, later⟩, nofun⟩
  | @plain code d small g moved =>
    rw [List.cons_append, List.cons_append, List.append_assoc] at there
    obtain ⟨here, later⟩ := suffix_cons there.symm
    have left : longer.drop (spot + 1 + code.length) =
        ⟨.label, b.labelCount + callee.procedure.labelCount, g⟩ :: Opcode.popArgs.bare :: rest := by
      rw [← List.drop_drop, later, List.drop_left]
      rfl
    obtain ⟨label, following⟩ := suffix_cons left
    obtain ⟨pops, -⟩ := suffix_cons following
    refine ⟨⟨small, here⟩, ⟨_, _, _, _, moved, pool, later⟩, fun _ => ⟨spot + 1 + code.length, ?_, ?_⟩⟩
    · simp only [List.cons_append, List.length_cons, List.length_append, List.length_nil]
      omega
    · exact ⟨⟨_, label, rfl, rfl⟩, pops⟩

end StackLisp.Chunk
