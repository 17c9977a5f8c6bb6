import StackLisp.Proofs.Encoding
import StackLisp.Proofs.Expr
import StackLisp.Proofs.Sameness

/-!
The code of expressions. The relation says how a workshop changes while the code of an expression is
emitted: which instructions are appended around those of its parts, which constants are pooled, which
labels and slots are taken and which names are captured.
-/

namespace StackLisp

namespace Workshop

/-- The constant pooled and pushed, from a place that an operand can hold. -/
def emitConst (w : Workshop) (v : Value) (h : w.place v ≤ maxOperand) : Workshop :=
  (w.pool v).emit ⟨.const, w.place v, h⟩

def emitAll (w : Workshop) (is : List Instruction) : Workshop :=
  w.alter fun b => { b with code := b.code ++ is }

/-- A name bound to the next free slot. -/
def bindLocal (w : Workshop) (x : String) (kind : CellKind) : Workshop :=
  (w.declare x (w.nextCell kind)).slot

/-- The workshop after the labels of clauses are taken. -/
def labels (w : Workshop) : Nat → Workshop
  | 0 => w
  | n + 1 => w.label.labels n

end Workshop

/-- The cell of a parameter at a place. -/
def argCell (p : String × Nat) : String × Cell :=
  (p.1, ⟨.value, .args, p.2⟩)

/-- The cells of the parameters, the first one first. -/
def Clause.cells (c : Clause) : List (String × Cell) :=
  c.params.zipIdx.map argCell ++ c.rest.toList.map fun x => (x, ⟨.rest, .args, c.fixedCount⟩)

theorem Clause.names_cells (c : Clause) : c.cells.map Prod.fst = c.params ++ c.rest.toList := by
  have fixed : (c.params.zipIdx.map argCell).map Prod.fst = c.params := by
    rw [List.map_map]
    exact List.zipIdx_map_fst 0 c.params
  rw [Clause.cells, List.map_append, fixed, List.map_map]
  simp [Function.comp_def]

/-- The tests that find the clause for an argument count. -/
inductive Tests : List (Clause × Nat) → List Instruction → Prop
  | nil : Tests [] []
  | cons {c : Clause} {label : Nat} {cs : List (Clause × Nat)} {is : List Instruction}
      (count : c.fixedCount ≤ maxOperand) (named : label ≤ maxOperand) (rest : Tests cs is) :
    Tests ((c, label) :: cs)
      (⟨.posInt, c.fixedCount, count⟩ :: Opcode.argLen.bare ::
        (if c.isVariadic then Opcode.numGte else Opcode.numEq).bare :: ⟨.condJump, label, named⟩ :: is)

/-- What is emitted at a time: an expression, the expressions under an open scope, arguments, captured
names, a clause, clauses with their labels, or all clauses of a body. -/
inductive Phrase where
  | one (e : Expr)
  | opened (e : Expr)
  | many (es : List Expr)
  | captured (xs : List String)
  | clause (c : Clause) (body : Expr)
  | cases (cs : List (Clause × Nat)) (bodies : List Expr)
  | body (cs : Clauses) (bodies : List Expr)

/-- The phrase takes the first workshop to the second. -/
inductive Emits : Workshop → Phrase → Workshop → Prop
  | literal {w x : Workshop} {v : Value} (pushes : Yields (Compile.literal v) w () x) :
    Emits w (.one (.literal v)) x
  | const {w : Workshop} {v : Value} (h : w.place v ≤ maxOperand) :
    Emits w (.one (.literal v)) (w.emitConst v h)
  | name {w : Workshop} {x : String} {cell : Cell} {i : Instruction} (found : w.cell? x = some cell)
      (plain : cell.kind ≠ .reference) (loads : cell.Loads i) :
    Emits w (.one (.name x)) ((w.reach x).emit i)
  | through {w : Workshop} {x : String} {cell : Cell} {i : Instruction}
      (found : w.cell? x = some cell) (reference : cell.kind = .reference) (loads : cell.Loads i) :
    Emits w (.one (.through x)) (((w.reach x).emit i).emit Opcode.deref.bare)
  | later {w : Workshop} {x : String} (h : w.place (.symbol x) ≤ maxOperand) :
    Emits w (.one (.later x)) ((w.emitConst (.symbol x) h).emit Opcode.resolve.bare)
  | seq {w u x : Workshop} {first rest : Expr} (before : Emits w (.one first) u)
      (after : Emits (u.emit Opcode.pop.bare) (.one rest) x) :
    Emits w (.one (.seq first rest)) x
  | branch {w t n y : Workshop} {test yes no : Expr} (consequent : w.body.labelCount ≤ maxOperand)
      (done : w.body.labelCount + 1 ≤ maxOperand) (tests : Emits w.label.label (.one test) t)
      (fails : Emits (t.emit ⟨.condJump, w.body.labelCount, consequent⟩) (.one no) n)
      (holds : Emits ((n.emit ⟨.jump, w.body.labelCount + 1, done⟩).emit
        ⟨.label, w.body.labelCount, consequent⟩) (.one yes) y) :
    Emits w (.one (.branch test yes no)) (y.emit ⟨.label, w.body.labelCount + 1, done⟩)
  | scope {w x : Workshop} {e : Expr} (inside : Emits (w.enter { kind := .locals }) (.opened e) x) :
    Emits w (.one (.scope e)) x.leave
  | define {w u : Workshop} {x : String} {value : Expr} (bound : Emits w (.one value) u)
      (h : u.place (.symbol x) ≤ maxOperand)
      (g : ((u.emitConst (.symbol x) h).emit Opcode.bind.bare).place (.symbol x) ≤ maxOperand) :
    Emits w (.one (.define x value))
      (((u.emitConst (.symbol x) h).emit Opcode.bind.bare).emitConst (.symbol x) g)
  | mention {w : Workshop} {x : String} {hidden : Bool} {op : Opcode}
      (which : op = if hidden then .hide else .declare) (h : w.place (.symbol x) ≤ maxOperand)
      (g : ((w.emitConst (.symbol x) h).emit op.bare).place (.symbol x) ≤ maxOperand) :
    Emits w (.one (.mention hidden x))
      (((w.emitConst (.symbol x) h).emit op.bare).emitConst (.symbol x) g)
  | call {w u x : Workshop} {args : List Expr} {head : Expr} {i : Instruction}
      (operands : Emits w (.many args) u) (operator : Emits u (.one head) x)
      (calls : Chunk.callShape? i = some (args.length, false)) :
    Emits w (.one (.call args head)) (x.emit i)
  | intrinsic {w u : Workshop} {op : Opcode} {times : Nat} {args : List Expr}
      (operands : Emits w (.many args) u) :
    Emits w (.one (.intrinsic op times args)) (u.emitAll (List.replicate times op.bare))
  | constant {w u : Workshop} {p : Procedure Value} {name : Option String} {cs : Clauses}
      {bodies : List Expr} {store : Store} (inner : Emits (w.child name) (.body cs bodies) u)
      (alone : u.body.captured = [])
      (built : Yields (u.chunk.build cs.arity w.encoder.options) u.store p store)
      (h : Workshop.place { w with store } (.closure p []) ≤ maxOperand) :
    Emits w (.one (.lambda p [] name cs bodies)) (Workshop.emitConst { w with store } (.closure p []) h)
  | closure {w u x : Workshop} {p : Procedure Value} {name : Option String} {cs : Clauses}
      {bodies : List Expr} {store : Store} (inner : Emits (w.child name) (.body cs bodies) u)
      (some : u.body.captured ≠ [])
      (built : Yields (u.chunk.build cs.arity w.encoder.options) u.store p store)
      (loads : Emits { w with store } (.captured (u.body.captured.map Prod.fst).reverse) x)
      (h : x.place (.procedure p) ≤ maxOperand) (count : u.body.captured.length ≤ maxOperand) :
    Emits w (.one (.lambda p u.body.captured name cs bodies))
      ((x.emitConst (.procedure p) h).emit ⟨.makeClosure, u.body.captured.length, count⟩)
  | bind {w u z : Workshop} {x : String} {value rest : Expr} (bound : Emits w (.one value) u)
      (admits : u.Admits x) (h : u.body.nextLocal ≤ maxOperand)
      (after : Emits ((u.bindLocal x .value).emit ⟨.store, u.body.nextLocal, h⟩) (.opened rest) z) :
    Emits w (.opened (.bind x value rest)) z
  | fresh {w z : Workshop} {x : String} {rest : Expr} (admits : w.Admits x)
      (h : w.body.nextLocal ≤ maxOperand)
      (after : Emits (((w.bindLocal x .reference).emit Opcode.newRef.bare).emit
        ⟨.store, w.body.nextLocal, h⟩) (.opened rest) z) :
    Emits w (.opened (.fresh x rest)) z
  | fill {w u z : Workshop} {x : String} {cell : Cell} {i : Instruction} {value rest : Expr}
      (filled : Emits w (.one value) u) (found : u.body.lexical? x = some cell)
      (reference : cell.kind = .reference) (loads : cell.Loads i)
      (after : Emits ((u.emit i).emit Opcode.bindRef.bare) (.opened rest) z) :
    Emits w (.opened (.fill x value rest)) z
  | last {w x : Workshop} {e : Expr} (inside : Emits w (.one e) x) : Emits w (.opened e) x
  | none {w : Workshop} : Emits w (.many []) w
  | more {w u x : Workshop} {e : Expr} {es : List Expr} (others : Emits w (.many es) u)
      (first : Emits u (.one e) x) :
    Emits w (.many (e :: es)) x
  | loaded {w : Workshop} : Emits w (.captured []) w
  | load {w u : Workshop} {x : String} {xs : List String} {cell : Cell} {i : Instruction}
      (found : w.cell? x = some cell) (loads : cell.Loads i)
      (others : Emits ((w.reach x).emit i) (.captured xs) u) :
    Emits w (.captured (x :: xs)) u
  | clause {w x : Workshop} {c : Clause} {body : Expr} (distinct : (c.cells.map Prod.fst).Nodup)
      (inside : Emits (w.enter ⟨.args, c.cells.reverse⟩) (.one body) x) :
    Emits w (.clause c body) (x.emit Opcode.ret.bare).leave
  | caseNone {w : Workshop} : Emits w (.cases [] []) w
  | caseMore {w u x : Workshop} {c : Clause} {label : Nat} {cs : List (Clause × Nat)} {body : Expr}
      {bodies : List Expr} (h : label ≤ maxOperand)
      (first : Emits (w.emit ⟨.label, label, h⟩) (.clause c body) u)
      (others : Emits u (.cases cs bodies) x) :
    Emits w (.cases ((c, label) :: cs) (body :: bodies)) x
  | single {w x : Workshop} {c : Clause} {body : Expr} (only : Emits w (.clause c body) x) :
    Emits w (.body [c] [body]) x
  | several {w x : Workshop} {cs : Clauses} {bodies : List Expr} {is : List Instruction} {v : Value}
      (many : cs.length ≠ 1)
      (tests : Tests (cs.zip (List.range' w.body.labelCount cs.length)) is)
      (message : v = .string s!"wrong number of arguments: expected {cs.arity.text}")
      (h : ((w.labels cs.length).emitAll is).place v ≤ maxOperand)
      (arms : Emits ((((w.labels cs.length).emitAll is).emitConst v h).emit Opcode.panic.bare)
        (.cases (cs.zip (List.range' w.body.labelCount cs.length)) bodies) x) :
    Emits w (.body cs bodies) x

namespace Workshop

/-- Captured names are bound around, each of the kind it was captured with, and are captured once. -/
structure Sound (w : Workshop) : Prop where
  distinct : (w.body.captured.map Prod.fst).Nodup
  visible : ∀ entry ∈ w.body.captured, Body.visible? w.around entry.1 = some entry.2
  unnamed : ∀ entry ∈ w.body.captured, w.body.name ≠ some entry.1

/-- What emitting never changes, and that code, constants and captured names are only added. -/
structure Extends (w x : Workshop) : Prop where
  code : w.body.code <+: x.body.code
  constants : w.body.constants <+: x.body.constants
  name : x.body.name = w.body.name
  around : x.around = w.around
  globals : x.encoder.globals = w.encoder.globals
  options : x.encoder.options = w.encoder.options
  namespaces : x.store.namespaces = w.store.namespaces
  captured : w.body.captured <+: x.body.captured
  sound : w.Sound → x.Sound

/-- The same scopes are open, with the same names. -/
structure Stays (w x : Workshop) : Prop extends w.Extends x where
  scopes : x.body.scopes = w.body.scopes
  nextLocal : x.body.nextLocal = w.body.nextLocal

/-- The innermost scope has gained names, each with a slot. -/
structure Opens (w x : Workshop) : Prop extends w.Extends x where
  scopes : ∀ {s : Scope} {others : List Scope}, w.body.scopes = s :: others → ∃ more,
    x.body.scopes = { s with cells := more ++ s.cells } :: others ∧
      x.body.nextLocal = w.body.nextLocal + more.length

variable {w u x : Workshop}

theorem Extends.trans (h : w.Extends u) (g : u.Extends x) : w.Extends x :=
  ⟨h.code.trans g.code, h.constants.trans g.constants, g.name.trans h.name, g.around.trans h.around, g.globals.trans h.globals,
    g.options.trans h.options, g.namespaces.trans h.namespaces, h.captured.trans g.captured,
    fun sound => g.sound (h.sound sound)⟩

theorem Stays.refl (w : Workshop) : w.Stays w :=
  ⟨⟨List.prefix_refl _, List.prefix_refl _, rfl, rfl, rfl, rfl, rfl, List.prefix_refl _, id⟩, rfl, rfl⟩

theorem Stays.trans (h : w.Stays u) (g : u.Stays x) : w.Stays x :=
  ⟨h.toExtends.trans g.toExtends, g.scopes.trans h.scopes, g.nextLocal.trans h.nextLocal⟩

theorem Stays.opens (h : w.Stays x) : w.Opens x :=
  ⟨h.toExtends, fun same => ⟨[], by simpa [h.scopes] using same, by simpa using h.nextLocal⟩⟩

theorem Opens.trans (h : w.Opens u) (g : u.Opens x) : w.Opens x := by
  refine ⟨h.toExtends.trans g.toExtends, fun {s others} same => ?_⟩
  obtain ⟨more, scopes, next⟩ := h.scopes same
  obtain ⟨further, scopes', next'⟩ := g.scopes scopes
  refine ⟨further ++ more, by simpa using scopes', ?_⟩
  rw [next', next, List.length_append]
  omega

theorem Sound.congr (sound : w.Sound) (name : x.body.name = w.body.name)
    (around : x.around = w.around) (captured : x.body.captured = w.body.captured) : x.Sound := by
  refine ⟨captured ▸ sound.distinct, ?_, ?_⟩
  · rw [captured, around]
    exact sound.visible
  · rw [captured, name]
    exact sound.unnamed

theorem stays_alter {f : Body → Body} (code : w.body.code <+: (f w.body).code)
    (constants : w.body.constants <+: (f w.body).constants) (name : (f w.body).name = w.body.name)
    (captured : (f w.body).captured = w.body.captured) (scopes : (f w.body).scopes = w.body.scopes)
    (nextLocal : (f w.body).nextLocal = w.body.nextLocal) : w.Stays (w.alter f) :=
  ⟨⟨code, constants, name, rfl, rfl, rfl, rfl, captured ▸ List.prefix_refl _, fun sound =>
    sound.congr name rfl captured⟩, scopes, nextLocal⟩

theorem stays_emit (i : Instruction) : w.Stays (w.emit i) :=
  stays_alter (List.prefix_append _ _) (List.prefix_refl _) rfl rfl rfl rfl

theorem stays_emitAll (is : List Instruction) : w.Stays (w.emitAll is) :=
  stays_alter (List.prefix_append _ _) (List.prefix_refl _) rfl rfl rfl rfl

theorem stays_pool (v : Value) : w.Stays (w.pool v) :=
  stays_alter (List.prefix_refl _) (poolConstant_extends _ v) rfl rfl rfl rfl

theorem stays_emitConst (v : Value) (h : w.place v ≤ maxOperand) : w.Stays (w.emitConst v h) :=
  (stays_pool v).trans (stays_emit _)

theorem stays_label : w.Stays w.label :=
  stays_alter (List.prefix_refl _) (List.prefix_refl _) rfl rfl rfl rfl

theorem stays_labels (n : Nat) : w.Stays (w.labels n) := by
  induction n generalizing w with
  | zero => exact .refl w
  | succ n ih => exact stays_label.trans ih

theorem stays_store {store : Store} (h : store.namespaces = w.store.namespaces) :
    w.Stays { w with store } :=
  ⟨⟨List.prefix_refl _, List.prefix_refl _, rfl, rfl, rfl, rfl, h, List.prefix_refl _, fun sound =>
    sound.congr rfl rfl rfl⟩, rfl, rfl⟩

theorem opens_bindLocal {name : String} {kind : CellKind} : w.Opens (w.bindLocal name kind) := by
  have kept : ∃ scopes nextLocal localCount, w.bindLocal name kind =
      w.alter fun b => { b with scopes, nextLocal, localCount } := by
    refine ⟨(w.bindLocal name kind).body.scopes, (w.bindLocal name kind).body.nextLocal,
      (w.bindLocal name kind).body.localCount, ?_⟩
    unfold bindLocal slot declare
    rw [alter_alter]
    refine alter_congr ?_
    simp only [Function.comp, body_alter]
    split <;> rfl
  obtain ⟨scopes, nextLocal, localCount, same⟩ := kept
  refine ⟨?_, fun {s others} opened => ⟨[(name, w.nextCell kind)], ?_, ?_⟩⟩
  · rw [same]
    exact ⟨List.prefix_refl _, List.prefix_refl _, rfl, rfl, rfl, rfl, rfl, List.prefix_refl _,
      fun sound => sound.congr rfl rfl rfl⟩
  · simp [bindLocal, slot, declare, opened]
  · simp [bindLocal, slot, declare, opened]

@[simp] theorem emitAll_nil (w : Workshop) : w.emitAll [] = w :=
  alter_of_eq (by simp only [List.append_nil])

@[simp] theorem emitAll_emit (w : Workshop) (i : Instruction) (is : List Instruction) :
    (w.emit i).emitAll is = w.emitAll (i :: is) := by
  unfold emit emitAll
  rw [alter_alter]
  exact alter_congr (by simp)

/-- A name without a cell of its own is not captured yet, nor is it the name of the body. -/
theorem lexical?_eq_none {b : Body} {name : String} (h : b.lexical? name = none) :
    b.scopes.findSome? (fun s => s.cells.lookup name) = none ∧
      name ∉ b.captured.map Prod.fst ∧ b.name ≠ some name := by
  unfold Body.lexical? at h
  split at h
  · simp at h
  next unscoped =>
    refine ⟨unscoped, ?_⟩
    split at h
    · simp at h
    next missing =>
      have absent : name ∉ b.captured.map Prod.fst := by
        intro member
        obtain ⟨⟨x, kind⟩, entry, rfl⟩ := List.mem_map.mp member
        have found : (b.captured.findIdx? (·.1 = x)).isSome := by
          rw [List.findIdx?_isSome, List.any_eq_true]
          exact ⟨_, entry, by simp⟩
        have looked : (b.captured.lookup x).isSome := by
          rw [List.lookup_isSome_iff]
          exact ⟨_, entry, by simp⟩
        obtain ⟨i, place⟩ := Option.isSome_iff_exists.mp found
        obtain ⟨k, kind⟩ := Option.isSome_iff_exists.mp looked
        exact missing i k place kind
      refine ⟨absent, fun named => ?_⟩
      rw [if_pos named] at h
      cases h

theorem sound_reach (sound : w.Sound) (name : String) : (w.reach name).Sound := by
  unfold reach
  split
  next kind fresh seen =>
    obtain ⟨-, absent, unnamed⟩ := lexical?_eq_none fresh
    refine ⟨?_, ?_, ?_⟩
    · simp only [body_alter, List.map_append, List.map_cons, List.map_nil]
      exact List.nodup_append.mpr ⟨sound.distinct, List.pairwise_singleton _ _, fun a member b only =>
        List.mem_singleton.mp only ▸ fun same => absent (same ▸ member)⟩
    · intro entry member
      rcases List.mem_append.mp member with old | new
      · exact sound.visible entry old
      · obtain rfl := List.mem_singleton.mp new
        exact seen
    · intro entry member
      rcases List.mem_append.mp member with old | new
      · exact sound.unnamed entry old
      · obtain rfl := List.mem_singleton.mp new
        exact unnamed
  next => exact sound

theorem stays_reach (name : String) : w.Stays (w.reach name) := by
  have sound : w.Sound → (w.reach name).Sound := fun sound => sound_reach sound name
  revert sound
  unfold reach
  split
  · exact fun sound => ⟨⟨List.prefix_refl _, List.prefix_refl _, rfl, rfl, rfl, rfl, rfl,
      List.prefix_append _ _, sound⟩, rfl, rfl⟩
  · exact fun _ => .refl w

/-- A scope that is left takes its names and slots with it. -/
theorem Extends.leave {s : Scope} (h : (w.enter s).Extends x) {cells : List (String × Cell)}
    (scopes : x.body.scopes = { s with cells } :: w.body.scopes)
    (nextLocal : (if s.kind = .locals then x.body.nextLocal - cells.length else x.body.nextLocal) =
      w.body.nextLocal) : w.Stays x.leave := by
  have left : x.leave = x.alter fun b => { b with
      scopes := w.body.scopes
      nextLocal := w.body.nextLocal } := by
    refine alter_congr ?_
    simp only [scopes, nextLocal]
  rw [left]
  refine ⟨⟨h.code, h.constants, h.name, h.around, h.globals, h.options, h.namespaces, h.captured,
    fun sound => ?_⟩, rfl, rfl⟩
  exact (h.sound (sound.congr rfl rfl rfl)).congr rfl rfl rfl

theorem captured_leave (w : Workshop) : w.leave.body.captured = w.body.captured := by
  simp only [Workshop.leave, body_alter]
  split <;> rfl

theorem Opens.leave (h : (w.enter { kind := .locals }).Opens x) : w.Stays x.leave := by
  obtain ⟨more, scopes, next⟩ := h.scopes rfl
  refine Extends.leave h.toExtends scopes ?_
  simp [next, enter]

theorem Stays.leave {s : Scope} (h : (w.enter s).Stays x) (other : s.kind ≠ .locals) :
    w.Stays x.leave := by
  refine Extends.leave h.toExtends h.scopes ?_
  rw [if_neg other]
  exact h.nextLocal

theorem Sound.none (h : w.body.captured = []) : w.Sound := by
  refine ⟨?_, ?_, ?_⟩
  · rw [h]
    exact List.nodup_nil
  · rw [h]
    exact fun _ member => nomatch member
  · rw [h]
    exact fun _ member => nomatch member

theorem sound_child (w : Workshop) (name : Option String) : (w.child name).Sound :=
  .none rfl

theorem Sound.alone (sound : w.Sound) (alone : w.around = []) : w.body.captured = [] := by
  refine List.eq_nil_iff_forall_not_mem.mpr fun entry member => ?_
  have seen := sound.visible entry member
  rw [alone] at seen
  cases seen

end Workshop

open Workshop

/-- What a phrase leaves as it was. -/
def Phrase.Leaves : Phrase → Workshop → Workshop → Prop
  | .opened _, w, x => w.Opens x
  | _, w, x => w.Stays x

/-- A literal is one instruction, perhaps with a constant. -/
theorem literal_adds {w x : Workshop} {v : Value} (h : Yields (Compile.literal v) w () x) :
    (∃ i : Instruction, i.op ∈ [.nullLit, .trueLit, .falseLit, .posInt, .negInt] ∧ x = w.emit i) ∨
      ∃ h : w.place v ≤ maxOperand, x = w.emitConst v h := by
  unfold Compile.literal at h
  split at h
  · exact .inl ⟨_, by simp [Opcode.bare], Encode.emit_iff.mp h⟩
  · exact .inl ⟨_, by simp [Opcode.bare], Encode.emit_iff.mp h⟩
  · exact .inl ⟨_, by simp [Opcode.bare], Encode.emit_iff.mp h⟩
  next n =>
    dsimp only at h
    split at h
    · obtain ⟨fits, rfl⟩ := Encode.emitWith_iff.mp h
      refine .inl ⟨_, ?_, rfl⟩
      split <;> simp
    · exact .inr (Encode.emitConst_iff.mp h)
  · exact .inr (Encode.emitConst_iff.mp h)

theorem Emits.leaves {w x : Workshop} {ph : Phrase} (h : Emits w ph x) : ph.Leaves w x := by
  induction h with
  | literal pushes =>
    rcases literal_adds pushes with ⟨i, -, rfl⟩ | ⟨h, rfl⟩
    · exact stays_emit i
    · exact stays_emitConst _ h
  | const h => exact stays_emitConst _ h
  | name found plain loads => exact (stays_reach _).trans (stays_emit _)
  | through found reference loads => exact ((stays_reach _).trans (stays_emit _)).trans (stays_emit _)
  | later h => exact (stays_emitConst _ h).trans (stays_emit _)
  | seq before after ihBefore ihAfter => exact (ihBefore.trans (stays_emit _)).trans ihAfter
  | branch consequent done tests fails holds ihTest ihNo ihYes =>
    refine .trans ?_ (stays_emit _)
    refine .trans ?_ (((stays_emit _).trans (stays_emit _)).trans ihYes)
    refine .trans ?_ ((stays_emit _).trans ihNo)
    exact (stays_label.trans stays_label).trans ihTest
  | scope inside ih => exact Opens.leave ih
  | define bound h g ih =>
    exact ((ih.trans (stays_emitConst _ h)).trans (stays_emit _)).trans (stays_emitConst _ g)
  | mention which h g =>
    exact ((stays_emitConst _ h).trans (stays_emit _)).trans (stays_emitConst _ g)
  | call operands operator calls ihArgs ihHead => exact (ihArgs.trans ihHead).trans (stays_emit _)
  | intrinsic operands ih => exact ih.trans (stays_emitAll _)
  | constant inner alone built h ih =>
    refine .trans ?_ (stays_emitConst _ h)
    exact stays_store ((Chunk.build_namespaces built).trans ih.namespaces)
  | closure inner some built loads h count ihInner ihLoads =>
    refine .trans ?_ ((ihLoads.trans (stays_emitConst _ h)).trans (stays_emit _))
    exact stays_store ((Chunk.build_namespaces built).trans ihInner.namespaces)
  | bind bound admits h after ihValue ihRest =>
    exact ((ihValue.opens.trans opens_bindLocal).trans (stays_emit _).opens).trans ihRest
  | fresh admits h after ih =>
    exact (opens_bindLocal.trans ((stays_emit _).trans (stays_emit _)).opens).trans ih
  | fill filled found reference loads after ihValue ihRest =>
    exact (ihValue.trans ((stays_emit _).trans (stays_emit _))).opens.trans ihRest
  | last inside ih => exact ih.opens
  | none => exact .refl _
  | more others first ihOthers ihFirst => exact ihOthers.trans ihFirst
  | loaded => exact .refl _
  | load found loads others ih => exact ((stays_reach _).trans (stays_emit _)).trans ih
  | clause distinct inside ih => exact (ih.trans (stays_emit _)).leave (by simp)
  | caseNone => exact .refl _
  | caseMore h first others ihFirst ihOthers => exact ((stays_emit _).trans ihFirst).trans ihOthers
  | single only ih => exact ih
  | several many tests message h arms ih =>
    refine .trans ?_ (((stays_emitConst _ h).trans (stays_emit _)).trans ih)
    exact (stays_labels _).trans (stays_emitAll _)

end StackLisp
