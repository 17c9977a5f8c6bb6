import StackLisp.Proofs.Recalling

/-!
The program of a form: its lambdas, nested ones too, and the form itself as a lambda without parameters. With
inlining off the procedure of each is built from the code that was emitted for it, and has a number of its own.
-/

namespace StackLisp

open Workshop

mutual

/-- The lambdas of an expression with the procedures built for them, in the order in which they are built. -/
def Expr.table : Expr → List (Procedure Value × Lambda)
  | .literal _ | .name _ | .through _ | .later _ | .mention _ _ => []
  | .seq first rest => first.table ++ rest.table
  | .branch test yes no => test.table ++ (no.table ++ yes.table)
  | .scope e => e.table
  | .bind _ value rest => value.table ++ rest.table
  | .fresh _ rest => rest.table
  | .fill _ value rest => value.table ++ rest.table
  | .define _ value => value.table
  | .call args head => Expr.tableIn args ++ head.table
  | .intrinsic _ _ args => Expr.tableIn args
  | .lambda p captures x cs bodies => Expr.tableIn bodies ++ [(p, ⟨captures.map Prod.fst, x, cs, bodies⟩)]
termination_by structural e => e

/-- The last expression comes first. -/
def Expr.tableIn : List Expr → List (Procedure Value × Lambda)
  | [] => []
  | e :: es => Expr.tableIn es ++ e.table
termination_by structural es => es

end

theorem Expr.table_subset {e : Expr} {es : List Expr} (member : e ∈ es) : e.table ⊆ Expr.tableIn es := by
  induction es with
  | nil => cases member
  | cons d es ih =>
    rcases List.mem_cons.mp member with rfl | later
    · exact List.subset_append_right _ _
    · exact List.Subset.trans (ih later) (List.subset_append_left _ _)

/-- The same with the form, for which this procedure was built. -/
def Expr.tableFor (e : Expr) (form : Value) (p : Procedure Value) : List (Procedure Value × Lambda) :=
  e.table ++ [(p, Lambda.ofForm form e)]

/-- The form and its lambdas, by the numbers of the procedures. -/
def Expr.program (e : Expr) (globals : NamespaceId) (form : Value) (p : Procedure Value) : Program where
  globals
  lambdas := (e.tableFor form p).map fun entry => (entry.1.serial, entry.2)

/-- With inlining off a procedure is built from the chunk shortened. -/
theorem Chunk.build_plain {c : Chunk} {arity : Arity} {o : CompileOptions} {s t : Store} {p : Procedure Value}
    (h : Yields (c.build arity o) s p t) (off : o.inline = false) : p.chunk = c.shortened ∧ p.arity = arity ∧
      (Chunk.labelsOf c.code).Nodup ∧ p.serial = s.built ∧ t.built = s.built + 1 := by
  obtain ⟨d, u, checked, optimized, accepted, chunk, -, -, serial, built, same, -⟩ := build_yields h
  unfold optimize at optimized
  rw [off] at optimized
  obtain ⟨rfl, rfl⟩ := Yields.pure_iff.mp optimized
  have distinct := labels_nodup_of_verify accepted
  exact ⟨chunk, same, labelsOf_shorten c.code ▸ distinct, serial, built⟩

/-- A procedure that was built from code emitted for the lambda. -/
structure Lambda.Built (T : Value → Prop) (globals : NamespaceId) (l : Lambda) (d : Chunk) (p : Procedure Value) :
    Prop where
  coded : l.Coded T globals d
  distinct : (Chunk.labelsOf d.code).Nodup
  chunk : p.chunk = d.shortened
  arity : p.arity = l.clauses.arity
  room : ∀ i ∈ p.code, i.op = .store → i.operand < p.localCount

theorem Lambda.Coded.fair {T : Value → Prop} {globals : NamespaceId} {l : Lambda} {d : Chunk}
    (h : l.Coded T globals d) : ∀ e ∈ l.bodies, e.Fair T := by
  cases h with
  | form emits fair => exact fair_one fair
  | body emits fair here => exact fair

/-! ### What is built on the way -/

namespace Workshop

/-- Every slot that is stored to is counted. -/
def Roomy (w : Workshop) : Prop :=
  ∀ i ∈ w.body.code, i.op = .store → i.operand < w.body.localCount

/-- Procedures were built for these lambdas, and for those inside of them, each with a number of its own. -/
structure Builds (T : Value → Prop) (globals : NamespaceId) (w x : Workshop)
    (entries : List (Procedure Value × Lambda)) : Prop where
  each : ∀ entry ∈ entries, ∃ d, entry.2.Built T globals d entry.1
  inner : ∀ entry ∈ entries, Expr.tableIn entry.2.bodies ⊆ entries
  distinct : (entries.map fun entry => entry.1.serial).Nodup
  within : ∀ entry ∈ entries, w.store.built ≤ entry.1.serial ∧ entry.1.serial < x.store.built
  grows : w.store.built ≤ x.store.built
  roomy : w.Roomy → x.Roomy

variable {T : Value → Prop} {globals : NamespaceId} {w u x : Workshop} {as bs : List (Procedure Value × Lambda)}
  {i : Instruction} {v : Value}

theorem Builds.quiet (built : x.store.built = w.store.built) (roomy : w.Roomy → x.Roomy) :
    w.Builds T globals x [] where
  each := nofun
  inner := nofun
  distinct := .nil
  within := nofun
  grows := built.ge
  roomy

theorem Builds.trans (h : w.Builds T globals u as) (g : u.Builds T globals x bs) : w.Builds T globals x (as ++ bs) where
  each entry member := (List.mem_append.mp member).elim (h.each entry) (g.each entry)
  inner entry member := by
    rcases List.mem_append.mp member with early | late
    · exact List.Subset.trans (h.inner entry early) (List.subset_append_left _ _)
    · exact List.Subset.trans (g.inner entry late) (List.subset_append_right _ _)
  distinct := by
    rw [List.map_append]
    refine List.nodup_append.mpr ⟨h.distinct, g.distinct, ?_⟩
    rintro a first b second rfl
    obtain ⟨entry, early, rfl⟩ := List.mem_map.mp first
    obtain ⟨other, late, same⟩ := List.mem_map.mp second
    have below := (h.within entry early).2
    have above := (g.within other late).1
    omega
  within entry member := by
    rcases List.mem_append.mp member with early | late
    · exact (h.within entry early).imp id fun below => Nat.lt_of_lt_of_le below g.grows
    · exact (g.within entry late).imp h.grows.trans id
  grows := h.grows.trans g.grows
  roomy := g.roomy ∘ h.roomy

theorem Builds.perm (h : w.Builds T globals x as) (perm : as.Perm bs) : w.Builds T globals x bs where
  each entry member := h.each entry (perm.mem_iff.mpr member)
  inner entry member := List.Subset.trans (h.inner entry (perm.mem_iff.mpr member)) perm.subset
  distinct := (perm.map _).nodup_iff.mp h.distinct
  within entry member := h.within entry (perm.mem_iff.mpr member)
  grows := h.grows
  roomy := h.roomy

theorem Builds.after (h : u.Builds T globals x as) (quiet : w.Builds T globals u []) : w.Builds T globals x as :=
  quiet.trans h

theorem Builds.then (h : w.Builds T globals u as) (quiet : u.Builds T globals x []) : w.Builds T globals x as := by
  have both := h.trans quiet
  rwa [List.append_nil] at both

theorem builds_refl (w : Workshop) : w.Builds T globals w [] :=
  .quiet rfl id

theorem builds_same (built : x.store.built = w.store.built) (code : x.body.code = w.body.code)
    (locals : w.body.localCount ≤ x.body.localCount) : w.Builds T globals x [] :=
  .quiet built fun roomy i member stores => Nat.lt_of_lt_of_le (roomy i (code ▸ member) stores) locals

theorem roomy_emit (roomy : w.Roomy) (fits : i.op = .store → i.operand < w.body.localCount) : (w.emit i).Roomy := by
  intro j member stores
  rcases List.mem_append.mp member with old | new
  · exact roomy j old stores
  · obtain rfl := List.mem_singleton.mp new
    exact fits stores

theorem builds_emit (plain : i.op ≠ .store) : w.Builds T globals (w.emit i) [] :=
  .quiet rfl fun roomy => roomy_emit roomy fun stores => absurd stores plain

theorem builds_emitAll (is : List Instruction) (plain : ∀ i ∈ is, i.op ≠ .store) :
    w.Builds T globals (w.emitAll is) [] := by
  induction is generalizing w with
  | nil =>
    rw [emitAll_nil]
    exact builds_refl w
  | cons i is ih =>
    obtain ⟨first, rest⟩ := List.forall_mem_cons.mp plain
    rw [← emitAll_emit]
    exact (ih rest).after (builds_emit first)

theorem builds_emitConst (v : Value) (h : w.place v ≤ maxOperand) : w.Builds T globals (w.emitConst v h) [] :=
  (builds_emit (i := ⟨.const, w.place v, h⟩) (ne_of_beq_false rfl)).after (builds_same rfl rfl (Nat.le_refl _))

theorem builds_label : w.Builds T globals w.label [] :=
  builds_same rfl rfl (Nat.le_refl _)

theorem builds_labels (n : Nat) : w.Builds T globals (w.labels n) [] := by
  induction n generalizing w with
  | zero => exact builds_refl w
  | succ n ih => exact ih.after builds_label

theorem builds_enter (s : Scope) : w.Builds T globals (w.enter s) [] :=
  builds_same rfl rfl (Nat.le_refl _)

theorem builds_leave : w.Builds T globals w.leave [] := by
  have kept : w.leave.stage = w.stage := stage_leave w
  exact builds_same rfl (congrArg Stage.code kept) (congrArg Stage.localCount kept).ge

theorem builds_reach (name : String) : w.Builds T globals (w.reach name) [] := by
  unfold Workshop.reach
  split
  · exact builds_same rfl rfl (Nat.le_refl _)
  · exact builds_refl w

theorem builds_bind {small : w.body.nextLocal ≤ maxOperand} (name : String) (kind : CellKind) :
    w.Builds T globals ((w.bindLocal name kind).emit ⟨.store, w.body.nextLocal, small⟩) [] := by
  obtain ⟨code, locals, -⟩ := body_bindLocal w name kind
  refine .quiet rfl fun roomy => roomy_emit (fun i member stores => ?_) fun _ => ?_
  · rw [locals]
    exact Nat.lt_of_lt_of_le (roomy i (code ▸ member) stores) (Nat.le_max_left _ _)
  · rw [locals]
    exact Nat.lt_of_lt_of_le (Nat.lt_succ_self _) (Nat.le_max_right _ _)

end Workshop

variable {T : Value → Prop} {globals : NamespaceId} {w u x : Workshop}

/-- A workshop in the namespace, where nothing is inlined. -/
def Workshop.Plain (globals : NamespaceId) (w : Workshop) : Prop :=
  w.encoder.globals = globals ∧ w.encoder.options.inline = false

theorem Workshop.Extends.plain (h : w.Extends x) (plain : w.Plain globals) : x.Plain globals :=
  ⟨h.globals.trans plain.1, (congrArg CompileOptions.inline h.options).trans plain.2⟩

theorem Compile.literal_builds {v : Value} (h : Yields (Compile.literal v) w () x) : w.Builds T globals x [] := by
  rcases literal_adds h with ⟨i, simple, rfl⟩ | ⟨fits, rfl⟩
  · exact builds_emit fun store => by simp [store] at simple
  · exact builds_emitConst _ fits

theorem Cell.Loads.ne_store {cell : Cell} {i : Instruction} (loads : cell.Loads i) : i.op ≠ .store := by
  rw [loads.1]
  obtain ⟨kind, scope, index⟩ := cell
  cases scope <;> cases kind <;> exact ne_of_beq_false rfl

theorem Tests.ne_store {cs : List (Clause × Nat)} {is : List Instruction} (tests : Tests cs is) :
    ∀ i ∈ is, i.op ≠ .store := by
  induction tests with
  | nil => nofun
  | @cons c label cs is count named rest ih =>
    have compares : (if c.isVariadic then Opcode.numGte else Opcode.numEq) ≠ .store := by
      split <;> exact ne_of_beq_false rfl
    simp only [List.forall_mem_cons]
    exact ⟨ne_of_beq_false rfl, ne_of_beq_false rfl, compares, ne_of_beq_false rfl, ih⟩

/-- The procedure of a lambda is built once those inside are. -/
theorem Workshop.Builds.build {z : Workshop} {l : Lambda} {d : Chunk} {o : CompileOptions} {p : Procedure Value}
    {store : Store} (coded : l.Coded T globals d) (room : ∀ i ∈ d.code, i.op = .store → i.operand < d.localCount)
    (inside : z.Builds T globals u (Expr.tableIn l.bodies)) (starts : z.store.built = w.store.built)
    (built : Yields (d.build l.clauses.arity o) u.store p store) (off : o.inline = false) :
    w.Builds T globals { w with store } (Expr.tableIn l.bodies ++ [(p, l)]) := by
  obtain ⟨chunk, arity, distinct, serial, next⟩ := Chunk.build_plain built off
  have made : l.Built T globals d p :=
    { coded, distinct, chunk, arity
      room := fun i member stores => by
        obtain ⟨source, shortens⟩ := Chunk.shortens_shorten distinct
        have short : p.code = Chunk.shorten d.code := congrArg Chunk.code chunk
        have slots : p.localCount = d.localCount := congrArg Chunk.localCount chunk
        rw [slots]
        exact room i (shortens.mem_of_operand (short ▸ member) (.inr (by rw [stores]; rfl))) stores }
  refine ⟨?_, ?_, ?_, ?_, ?_, id⟩
  · exact List.forall_mem_append.mpr ⟨inside.each, List.forall_mem_singleton.mpr ⟨d, made⟩⟩
  · refine List.forall_mem_append.mpr ⟨fun entry member => ?_, List.forall_mem_singleton.mpr ?_⟩
    · exact List.Subset.trans (inside.inner entry member) (List.subset_append_left _ _)
    · exact List.subset_append_left _ _
  · rw [List.map_append]
    refine List.nodup_append.mpr ⟨inside.distinct, List.nodup_singleton _, ?_⟩
    rintro a member b last rfl
    obtain ⟨entry, within, rfl⟩ := List.mem_map.mp member
    have below := (inside.within entry within).2
    rw [List.map_singleton, List.mem_singleton] at last
    exact absurd (last.trans serial) (Nat.ne_of_lt below)
  · refine List.forall_mem_append.mpr ⟨fun entry member => ?_, List.forall_mem_singleton.mpr ?_⟩
    · obtain ⟨above, below⟩ := inside.within entry member
      exact ⟨starts ▸ above, next ▸ Nat.lt_succ_of_lt below⟩
    · rw [serial, next]
      exact ⟨starts ▸ inside.grows, Nat.lt_succ_self _⟩
  · rw [next]
    exact Nat.le_succ_of_le (starts ▸ inside.grows)

/-- The lambdas of a phrase. -/
def Phrase.table (ph : Phrase) : List (Procedure Value × Lambda) :=
  Expr.tableIn ph.exprs

/-- Where a fair phrase is emitted with inlining off, all its lambdas are built. -/
theorem Emits.builds {ph : Phrase} (h : Emits w ph x) (plain : w.Plain globals) (fair : ∀ e ∈ ph.exprs, e.Fair T) :
    w.Builds T globals x ph.table := by
  induction h with
  | literal pushes => exact Compile.literal_builds pushes
  | const h => exact builds_emitConst _ h
  | name found kind loads => exact (builds_emit loads.ne_store).after (builds_reach _)
  | through found reference loads =>
    exact ((builds_emit loads.ne_store).after (builds_reach _)).then (builds_emit (ne_of_beq_false rfl))
  | later h => exact (builds_emitConst _ h).then (builds_emit (ne_of_beq_false rfl))
  | seq before after ihBefore ihAfter =>
    cases fair _ List.mem_cons_self with
    | seq first rest =>
      have others := ihAfter (before.extends.plain plain) (fair_one rest)
      exact (ihBefore plain (fair_one first)).trans (others.after (builds_emit (ne_of_beq_false rfl)))
  | branch consequent done tests fails holds ihTest ihNo ihYes =>
    cases fair _ List.mem_cons_self with
    | branch test yes no =>
      have now := tests.extends.plain plain
      have first := (ihTest plain (fair_one test)).after (builds_label.trans builds_label)
      have second := (ihNo now (fair_one no)).after (builds_emit (ne_of_beq_false rfl))
      have third := (ihYes (fails.extends.plain now) (fair_one yes)).after
        ((builds_emit (ne_of_beq_false rfl)).trans (builds_emit (ne_of_beq_false rfl)))
      exact first.trans (second.trans (third.then (builds_emit (ne_of_beq_false rfl))))
  | scope inside ih =>
    cases fair _ List.mem_cons_self with
    | scope inner => exact ((ih plain (fair_one inner)).after (builds_enter _)).then builds_leave
  | define bound h g ih =>
    cases fair _ List.mem_cons_self with
    | define _ value =>
      exact (ih plain (fair_one value)).then
        (((builds_emitConst _ h).then (builds_emit (ne_of_beq_false rfl))).then (builds_emitConst _ g))
  | @mention w x hidden op which h g =>
    refine ((builds_emitConst _ h).then (builds_emit ?_)).then (builds_emitConst _ g)
    rw [which]
    cases hidden <;> exact ne_of_beq_false rfl
  | @call w u x args head i operands operator calls ihArgs ihHead =>
    cases fair _ List.mem_cons_self with
    | call parts head =>
      have callee := ihHead (operands.extends.plain plain) (fair_one head)
      refine (ihArgs plain parts).trans (callee.then (builds_emit ?_))
      obtain ⟨op, operand, small⟩ := i
      rintro rfl
      cases calls
  | @intrinsic w u op times args operands ih =>
    cases fair _ List.mem_cons_self with
    | intrinsic combines parts =>
      refine (ih plain parts).then (builds_emitAll _ fun i member => ?_)
      rw [List.eq_of_mem_replicate member]
      rintro rfl
      cases combines.1
  | @constant w u p name cs bodies store inner alone built h ih =>
    cases fair _ List.mem_cons_self with
    | lambda each =>
      have inside := ih plain each
      have room := inside.roomy (List.forall_mem_nil _)
      have lambda := Builds.build (w := w) (.body inner each plain.1) room inside rfl built plain.2
      rw [alone] at lambda
      exact lambda.then (builds_emitConst _ h)
  | @closure w u x p name cs bodies store inner some built loads h count ihInner ihLoads =>
    cases fair _ List.mem_cons_self with
    | lambda each =>
      have inside := ihInner plain each
      have room := inside.roomy (List.forall_mem_nil _)
      have lambda := Builds.build (w := w) (.body inner each plain.1) room inside rfl built plain.2
      have loaded := ihLoads plain (List.forall_mem_nil _)
      exact (lambda.then loaded).then ((builds_emitConst _ h).then (builds_emit (ne_of_beq_false rfl)))
  | bind bound admits h after ihValue ihRest =>
    cases fair _ List.mem_cons_self with
    | bind _ first rest =>
      have others := (ihRest (bound.extends.plain plain) (fair_one rest)).after (builds_bind _ _)
      exact (ihValue plain (fair_one first)).trans others
  | @fresh w z y rest admits h after ih =>
    cases fair _ List.mem_cons_self with
    | fresh _ rest =>
      refine (ih plain (fair_one rest)).after ?_
      rw [bindLocal_emit]
      exact (builds_bind (w := w.emit Opcode.newRef.bare) y .reference).after (builds_emit (ne_of_beq_false rfl))
  | fill filled found reference loads after ihValue ihRest =>
    cases fair _ List.mem_cons_self with
    | fill _ first rest =>
      have others := ihRest (filled.extends.plain plain) (fair_one rest)
      refine (ihValue plain (fair_one first)).trans (others.after ?_)
      exact (builds_emit loads.ne_store).then (builds_emit (ne_of_beq_false rfl))
  | last inside ih => exact ih plain fair
  | none => exact builds_refl _
  | more others first ihOthers ihFirst =>
    obtain ⟨head, rest⟩ := List.forall_mem_cons.mp fair
    exact (ihOthers plain rest).trans (ihFirst (others.extends.plain plain) (fair_one head))
  | loaded => exact builds_refl _
  | load found loads others ih =>
    have begins := ih ((stays_reach _).toExtends.plain plain) (List.forall_mem_nil _)
    exact begins.after ((builds_emit loads.ne_store).after (builds_reach _))
  | clause distinct inside ih =>
    have entered := (ih plain fair).after (builds_enter _)
    exact (entered.then (builds_emit (ne_of_beq_false rfl))).then builds_leave
  | caseNone => exact builds_refl _
  | caseMore h first others ihFirst ihOthers =>
    obtain ⟨head, rest⟩ := List.forall_mem_cons.mp fair
    have arm := (ihFirst plain (fair_one head)).after (builds_emit (ne_of_beq_false rfl))
    have both := arm.trans (ihOthers (first.extends.plain plain) rest)
    exact both.perm List.perm_append_comm
  | single only ih => exact ih plain fair
  | @several w x cs bodies is v many tests message h arms ih =>
    have stays := ((stays_labels cs.length).trans (stays_emitAll is)).trans (stays_emitConst v h)
    have begins : w.Builds T globals ((w.labels cs.length).emitAll is) [] :=
      (builds_emitAll is tests.ne_store).after (builds_labels cs.length)
    refine (ih (stays.toExtends.plain plain) fair).after (begins.trans ?_)
    exact (builds_emitConst v h).then (builds_emit (ne_of_beq_false rfl))

/-- With inlining off a form is compiled to a procedure that is built once those of its lambdas are. -/
theorem compile_builds {options : CompileOptions} {form : Value} {s t : Store} {p : Procedure Value}
    (h : Yields (compile globals options form) s p t) (off : options.inline = false)
    (fair : ∀ {e : Expr}, Reads (s.namespaces.resolve? globals) .top (.form form) (.one e) → e.Fair T) :
    ∃ e, Reads (s.namespaces.resolve? globals) .top (.form form) (.one e) ∧
      ∃ u x : Workshop, u.store = s ∧ x.store = t ∧ u.Builds T globals x (e.tableFor form p) := by
  obtain ⟨e, u, emits, reads, built⟩ := compile_elaborates h
  refine ⟨e, reads, .top globals options s, { Workshop.top globals options s with store := t }, rfl, rfl, ?_⟩
  have inside := emits.builds ⟨rfl, off⟩ (fair_one (fair reads))
  have room : (u.emit Opcode.ret.bare).Roomy := roomy_emit (inside.roomy (List.forall_mem_nil _)) fun store => by cases store
  exact Builds.build (l := .ofForm form e) (.form emits (fair reads)) room inside rfl built off

/-! ### Literals -/

section

variable (U : Value → Prop)

/-- What is made of the procedures of these lambdas, nothing being captured, has the property. -/
def Table.Bears (entries : List (Procedure Value × Lambda)) : Prop :=
  ∀ entry ∈ entries, U (.closure entry.1 []) ∧ U (.procedure entry.1)

/-- The literals of the expression have the property if what is made of its lambdas has it. -/
def Expr.Bears (e : Expr) : Prop :=
  Table.Bears U e.table → ∀ {v : Value}, some v ∈ e.literals → U v

end

variable {U : Value → Prop}

theorem Expr.bears_literalsIn {es : List Expr} (each : ∀ e ∈ es, e.Bears U) (own : Table.Bears U (Expr.tableIn es))
    {v : Value} (member : some v ∈ Expr.literalsIn es) : U v := by
  induction es with
  | nil => cases member
  | cons e es ih =>
    obtain ⟨head, rest⟩ := List.forall_mem_cons.mp each
    obtain ⟨late, early⟩ := List.forall_mem_append.mp own
    rcases List.mem_append.mp member with others | first
    · exact ih rest late others
    · exact head early first

/-- A literal of a fair expression is a constant, a symbol, or made of the procedure of a lambda in it. -/
theorem Expr.Fair.bears (constant : ∀ {v : Value}, T v → U v) (symbol : ∀ x, U (.symbol x)) {e : Expr}
    (fair : e.Fair T) : e.Bears U := by
  have symbols {x : String} {v : Value} (member : some v ∈ [some (Value.symbol x), none, some (.symbol x)]) : U v := by
    have same : v = .symbol x := by simpa using member
    exact same ▸ symbol x
  induction fair with
  | literal h =>
    intro own v member
    have same := Option.some.inj (List.mem_singleton.mp member)
    exact same ▸ constant h
  | name | through => exact fun _ _ member => by simp [Expr.literals] at member
  | later x =>
    intro own v member
    have same : v = .symbol x := by simpa [Expr.literals] using member
    exact same ▸ symbol x
  | seq _ _ first rest =>
    intro own v member
    obtain ⟨early, late⟩ := List.forall_mem_append.mp own
    simp only [Expr.literals, List.mem_append, List.mem_cons, reduceCtorEq, false_or] at member
    exact member.elim (first early) (rest late)
  | branch _ _ _ test yes no =>
    intro own v member
    obtain ⟨early, others⟩ := List.forall_mem_append.mp own
    obtain ⟨middle, late⟩ := List.forall_mem_append.mp others
    simp only [Expr.literals, List.mem_append, List.mem_cons, reduceCtorEq, false_or, List.not_mem_nil, or_false] at member
    exact member.elim (test early) fun member => member.elim (no middle) (yes late)
  | scope _ inside => exact inside
  | bind x _ _ value rest =>
    intro own v member
    obtain ⟨early, late⟩ := List.forall_mem_append.mp own
    simp only [Expr.literals, List.mem_append, List.mem_cons, reduceCtorEq, false_or] at member
    exact member.elim (value early) (rest late)
  | fresh x _ rest =>
    intro own v member
    simp only [Expr.literals, List.mem_cons, reduceCtorEq, false_or] at member
    exact rest own member
  | fill x _ _ value rest =>
    intro own v member
    obtain ⟨early, late⟩ := List.forall_mem_append.mp own
    simp only [Expr.literals, List.mem_append, List.mem_cons, reduceCtorEq, false_or] at member
    exact member.elim (value early) (rest late)
  | define x _ value => exact fun own _ member => (List.mem_append.mp member).elim (value own) symbols
  | mention hidden x => exact fun _ _ member => symbols member
  | call _ _ args head =>
    intro own v member
    obtain ⟨early, late⟩ := List.forall_mem_append.mp own
    simp only [Expr.literals, List.mem_append, List.mem_singleton, reduceCtorEq, or_false] at member
    exact member.elim (Expr.bears_literalsIn args early) (head late)
  | intrinsic _ _ args =>
    intro own v member
    simp only [Expr.literals, List.mem_append, List.mem_replicate, reduceCtorEq, and_false, or_false] at member
    exact Expr.bears_literalsIn args own member
  | @lambda p captures x cs bodies _ each =>
    intro own v member
    obtain ⟨closed, template⟩ := own (p, _) (List.mem_append_right _ (List.mem_singleton.mpr rfl))
    rw [Expr.literals] at member
    split at member
    · exact Option.some.inj (List.mem_singleton.mp member) ▸ closed
    · simp only [List.mem_append, List.mem_replicate, List.mem_cons, reduceCtorEq, and_false, false_or,
        List.not_mem_nil, or_false] at member
      exact Option.some.inj member ▸ template

/-- A literal of a lambda is one of its bodies, or the text that is raised where no clause fits. -/
theorem Clauses.mem_literals {cs : Clauses} {bodies : List Expr} {v : Value} (member : some v ∈ cs.literals bodies) :
    v = cs.complaint ∨ ∃ e ∈ bodies, some v ∈ e.literals := by
  unfold Clauses.literals at member
  split at member
  · obtain ⟨e, inside, returned⟩ := List.mem_flatMap.mp member
    exact .inr ⟨e, inside, by simpa [Expr.returned] using returned⟩
  · simp only [List.mem_append, List.mem_replicate, List.mem_cons, reduceCtorEq, and_false, false_or, Option.some.injEq,
      List.mem_flatMap, Expr.returned, List.not_mem_nil, or_false] at member
    exact member

/-- The literals of the lambdas of a table are made of what its procedures are built for. -/
theorem Lambda.Coded.bears {l : Lambda} {d : Chunk} (coded : l.Coded T globals d)
    (constant : ∀ {v : Value}, T v → U v) (symbol : ∀ x, U (.symbol x)) (text : ∀ x, U (.string x))
    {entries : List (Procedure Value × Lambda)} (inner : Expr.tableIn l.bodies ⊆ entries) (own : Table.Bears U entries)
    {v : Value} (member : some v ∈ l.literals) : U v := by
  rcases Clauses.mem_literals member with rfl | ⟨e, inside, literal⟩
  · exact text _
  · refine (coded.fair e inside).bears constant symbol (fun entry here => own entry (inner ?_)) literal
    exact Expr.table_subset inside here

/-! ### The program -/

/-- Procedures known before, and those of a table. -/
def Known (known : Procedure Value → Prop) (entries : List (Procedure Value × Lambda)) (p : Procedure Value) : Prop :=
  known p ∨ ∃ l, (p, l) ∈ entries

theorem Value.Made.mono {known more : Procedure Value → Prop} {genuine : Builtin → Prop}
    (wider : ∀ {p : Procedure Value}, known p → more p) {v : Value} (h : v.Made known genuine) :
    v.Made more genuine := by
  induction h with
  | pair _ _ car cdr => exact .pair car cdr
  | vector _ each => exact .vector each
  | procedure body => exact .procedure (wider body)
  | closure body _ each => exact .closure (wider body) each
  | builtin h => exact .builtin h
  | _ => constructor

theorem Program.entry_of_lookup {entries : List (Procedure Value × Lambda)} {serial : Nat} {l : Lambda}
    (found : (entries.map fun entry => (entry.1.serial, entry.2)).lookup serial = some l) :
    ∃ p, (p, l) ∈ entries ∧ p.serial = serial := by
  obtain ⟨before, after, split, -⟩ := List.lookup_eq_some_iff.mp found
  have member : (serial, l) ∈ entries.map fun entry => (entry.1.serial, entry.2) := by
    rw [split]
    exact List.mem_append_right _ List.mem_cons_self
  obtain ⟨⟨p, m⟩, inside, same⟩ := List.mem_map.mp member
  obtain ⟨rfl, rfl⟩ := Prod.mk.inj same
  exact ⟨p, inside, rfl⟩

section

variable {entries : List (Procedure Value × Lambda)} {known : Procedure Value → Prop} {genuine : Builtin → Prop}

theorem Workshop.Builds.drafts (builds : w.Builds T globals x entries) :
    ∃ draft : Nat → Chunk, ∀ {p : Procedure Value} {l : Lambda}, (p, l) ∈ entries →
      l.Built T globals (draft p.serial) p := by
  have each (serial : Nat) :
      ∃ d, ∀ entry ∈ entries, entry.1.serial = serial → entry.2.Built T globals d entry.1 := by
    by_cases here : ∃ entry ∈ entries, entry.1.serial = serial
    · obtain ⟨entry, member, rfl⟩ := here
      obtain ⟨d, built⟩ := builds.each entry member
      refine ⟨d, fun other inside same => ?_⟩
      rwa [List.inj_on_of_nodup_map builds.distinct inside member same]
    · exact ⟨Workshop.chunk w, fun entry member same => absurd ⟨entry, member, same⟩ here⟩
  obtain ⟨draft, drafted⟩ := Classical.axiomOfChoice each
  exact ⟨draft, fun {p l} member => drafted p.serial (p, l) member rfl⟩

/-- The procedures of a table are kept beside those known before, which have smaller numbers. -/
theorem Workshop.Builds.kept (builds : w.Builds T globals x entries) (pool : Distinct known genuine)
    (early : ∀ {p : Procedure Value}, known p → p.serial < w.store.built)
    (careful : ∀ {p : Procedure Value}, known p → p.chunk.Careful)
    (constant : ∀ {v : Value}, T v → v.Made known genuine) :
    ∃ draft, Program.Kept ⟨globals, entries.map fun entry => (entry.1.serial, entry.2)⟩ draft (Known known entries)
      genuine T := by
  obtain ⟨draft, drafted⟩ := builds.drafts
  have made {p : Procedure Value} {l : Lambda} (member : (p, l) ∈ entries) {v : Value} (literal : some v ∈ l.literals) :
      v.Made (Known known entries) genuine := by
    refine (drafted member).coded.bears (fun known => (constant known).mono .inl) .symbol .string
      (builds.inner _ member) (fun entry inside => ?_) literal
    exact ⟨.closure (.inr ⟨entry.2, inside⟩) nofun, .procedure (.inr ⟨entry.2, inside⟩)⟩
  have own {p : Procedure Value} {l : Lambda} (inside : Known known entries p)
      (found : (entries.map fun entry => (entry.1.serial, entry.2)).lookup p.serial = some l) : (p, l) ∈ entries := by
    obtain ⟨q, member, same⟩ := Program.entry_of_lookup found
    rcases inside with old | ⟨m, other⟩
    · exact absurd (early old) (Nat.not_lt.mpr (same ▸ (builds.within _ member).1))
    · obtain ⟨rfl, -⟩ := Prod.mk.inj (List.inj_on_of_nodup_map builds.distinct member other same)
      exact member
  refine ⟨draft, ?_⟩
  exact
    { coded := fun {serial l} found => by
        obtain ⟨p, member, rfl⟩ := Program.entry_of_lookup found
        exact (drafted member).coded
      distinct := fun {serial l} found => by
        obtain ⟨p, member, rfl⟩ := Program.entry_of_lookup found
        exact (drafted member).distinct
      pool :=
        { names := pool.names
          constants := fun {p} inside v member => by
            rcases inside with old | ⟨l, entry⟩
            · exact (pool.constants old v member).mono .inl
            · have same : p.constants = (draft p.serial).constants := congrArg Chunk.constants (drafted entry).chunk
              exact made entry ((drafted entry).coded.writes.2 v (same ▸ member)) }
      literals := fun {p l} inside found {v} literal =>
        made (own inside (Program.lambda?_eq_some.mp found).1) literal
      chunk := fun {p l} inside found => (drafted (own inside (Program.lambda?_eq_some.mp found).1)).chunk
      labels := fun {p} inside => by
        rcases inside with old | ⟨l, entry⟩
        · obtain ⟨checked, accepted⟩ := (careful old).accepted
          exact Chunk.labels_nodup_of_verify accepted
        · have same : p.code = Chunk.shorten (draft p.serial).code := congrArg Chunk.code (drafted entry).chunk
          rw [same, Chunk.labelsOf_shorten]
          exact (drafted entry).distinct
      room := fun {p} inside i member stores => by
        rcases inside with old | ⟨l, entry⟩
        · exact (careful old).bounded member (by rw [stores]; rfl)
        · exact (drafted entry).room i member stores }

end

end StackLisp
