import StackLisp.Compile
import StackLisp.Proofs.Accepted

/-!
The steps of encoding that succeed, each as a change of the workshop.
-/

namespace StackLisp

theorem Opcode.withOperand_iff {op : Opcode} {operand : Nat} {i : Instruction} :
    op.withOperand operand = .ok i ↔ ∃ h : operand ≤ maxOperand, i = ⟨op, operand, h⟩ := by
  unfold withOperand Opcode.with
  rw [mapError_eq_ok]
  split
  next h => simp [h, eq_comm]
  next h => simp [h]

namespace Workshop

def body (w : Workshop) : Body :=
  w.encoder.body

def around (w : Workshop) : List Body :=
  w.encoder.around

def alter (w : Workshop) (f : Body → Body) : Workshop :=
  { w with encoder := { w.encoder with body := f w.encoder.body } }

def emit (w : Workshop) (i : Instruction) : Workshop :=
  w.alter fun b => { b with code := b.code ++ [i] }

/-- The place of a constant once it is pooled. -/
def place (w : Workshop) (v : Value) : Nat :=
  (poolConstant w.body.constants v).1

def pool (w : Workshop) (v : Value) : Workshop :=
  w.alter fun b => { b with constants := (poolConstant b.constants v).2 }

/-- The next label taken. -/
def label (w : Workshop) : Workshop :=
  w.alter fun b => { b with labelCount := b.labelCount + 1 }

def enter (w : Workshop) (s : Scope) : Workshop :=
  w.alter fun b => { b with scopes := s :: b.scopes }

/-- The innermost scope left, the slots of its locals free again. -/
def leave (w : Workshop) : Workshop :=
  w.alter fun b =>
    match b.scopes with
    | [] => b
    | s :: scopes =>
      { b with
        scopes
        nextLocal := if s.kind = .locals then b.nextLocal - s.cells.length else b.nextLocal }

/-- Whether the innermost scope is open for the name. -/
def Admits (w : Workshop) (name : String) : Prop :=
  ∃ s scopes, w.body.scopes = s :: scopes ∧ s.cells.lookup name = none

/-- A name bound in the innermost scope. -/
def declare (w : Workshop) (name : String) (cell : Cell) : Workshop :=
  w.alter fun b =>
    match b.scopes with
    | [] => b
    | s :: scopes => { b with scopes := { s with cells := (name, cell) :: s.cells } :: scopes }

/-- The next free slot taken. -/
def slot (w : Workshop) : Workshop :=
  w.alter fun b =>
    { b with nextLocal := b.nextLocal + 1, localCount := max b.localCount (b.nextLocal + 1) }

/-- The cell for a local name in the next free slot. -/
def nextCell (w : Workshop) (kind : CellKind) : Cell :=
  ⟨kind, .locals, w.body.nextLocal⟩

/-- The cell of a name, where it may be captured to get one. -/
def cell? (w : Workshop) (name : String) : Option Cell :=
  match w.body.lexical? name with
  | some cell => some cell
  | none =>
    (Body.visible? w.around name).map fun kind => ⟨kind, .captured, w.body.captured.length⟩

/-- The workshop once the name has its cell. -/
def reach (w : Workshop) (name : String) : Workshop :=
  match w.body.lexical? name, Body.visible? w.around name with
  | none, some kind => w.alter fun b => { b with captured := b.captured ++ [(name, kind)] }
  | _, _ => w

/-- A workshop for a body inside. -/
def child (w : Workshop) (name : Option String) : Workshop :=
  { w with encoder := w.encoder.child name }

/-- A workshop in which nothing was encoded yet. -/
def top (globals : NamespaceId) (options : CompileOptions) (store : Store) : Workshop :=
  { encoder := { globals, options }, store }

def chunk (w : Workshop) : Chunk :=
  ⟨w.body.code, w.body.constants, w.body.localCount, w.body.labelCount, w.encoder.globals,
    w.body.name⟩

@[simp] theorem body_alter (w : Workshop) (f : Body → Body) : (w.alter f).body = f w.body := rfl

@[simp] theorem around_alter (w : Workshop) (f : Body → Body) : (w.alter f).around = w.around := rfl

@[simp] theorem store_alter (w : Workshop) (f : Body → Body) : (w.alter f).store = w.store := rfl

@[simp] theorem globals_alter (w : Workshop) (f : Body → Body) :
    (w.alter f).encoder.globals = w.encoder.globals := rfl

@[simp] theorem options_alter (w : Workshop) (f : Body → Body) :
    (w.alter f).encoder.options = w.encoder.options := rfl

theorem alter_congr {w : Workshop} {f g : Body → Body} (h : f w.body = g w.body) :
    w.alter f = w.alter g := by
  unfold alter
  unfold body at h
  rw [h]

theorem alter_of_eq {w : Workshop} {f : Body → Body} (h : f w.body = w.body) : w.alter f = w :=
  alter_congr (g := id) h

theorem alter_alter (w : Workshop) (f g : Body → Body) : (w.alter f).alter g = w.alter (g ∘ f) := rfl

theorem reach_of_none {w : Workshop} {name : String} (h : w.cell? name = none) : w.reach name = w := by
  unfold cell? at h
  unfold reach
  split
  next fresh seen => simp [fresh, seen] at h
  · rfl

end Workshop

/-- The operation that pushes what a cell holds. -/
def Cell.loader (c : Cell) : Opcode :=
  match c.scope, c.kind with
  | .args, .rest => .restArg
  | .args, _ => .arg
  | .locals, _ => .load
  | .captured, _ => .capture
  | .current, _ => .current

/-- The instruction that pushes what the cell holds. -/
def Cell.Loads (c : Cell) (i : Instruction) : Prop :=
  i.op = c.loader ∧ (c.scope ≠ .current → i.operand = c.index)

namespace Encode

variable {w x : Workshop} {u : Unit}

theorem lift_iff {α : Type} {r : Except Rejection α} {a : α} :
    Yields (lift r) w a x ↔ r = .ok a ∧ x = w := by
  change (r, w) = (.ok a, x) ↔ _
  rw [Prod.mk.injEq, eq_comm (a := w)]

theorem liftError_iff {α : Type} {r : Except CompileError α} {a : α} :
    Yields (liftError r) w a x ↔ r = .ok a ∧ x = w := by
  unfold liftError
  rw [lift_iff, mapError_eq_ok]

theorem reject_iff {α : Type} {e : CompileError} {a : α} :
    Yields (reject e : Encode α) w a x ↔ False :=
  Yields.throw_iff

theorem breach_iff {α : Type} {b : Breach} {a : α} :
    Yields (breach b : Encode α) w a x ↔ False :=
  Yields.throw_iff

theorem body_iff {b : Body} : Yields body w b x ↔ b = w.body ∧ x = w := by
  unfold body
  simp only [Yields.bind_iff, Yields.get_iff, Yields.pure_iff]
  constructor
  · rintro ⟨_, _, ⟨rfl, rfl⟩, rfl, rfl⟩
    exact ⟨rfl, rfl⟩
  · rintro ⟨rfl, rfl⟩
    exact ⟨x, x, ⟨rfl, rfl⟩, rfl, rfl⟩

theorem modifyBody_iff {f : Body → Body} : Yields (modifyBody f) w u x ↔ x = w.alter f :=
  Yields.modify_iff

theorem build_iff {α : Type} {act : Build α} {a : α} :
    Yields (build act) w a x ↔ ∃ store, Yields act w.store a store ∧ x = { w with store } := by
  cases ended : (act.run w.store : Except Rejection α × Store) with
  | mk r store =>
    have run : Yields (build act) w a x ↔ (r, ({ w with store } : Workshop)) = (.ok a, x) := by
      unfold Yields Ends build
      change ((act.run w.store : Except Rejection α × Store).1,
        ({ w with store := (act.run w.store : Except Rejection α × Store).2 } : Workshop)) = _ ↔ _
      rw [ended]
    rw [run, Prod.mk.injEq]
    constructor
    · rintro ⟨rfl, rfl⟩
      exact ⟨store, ended, rfl⟩
    · rintro ⟨other, yields, rfl⟩
      obtain ⟨same, rfl⟩ := Prod.mk.inj (ended.symm.trans yields)
      exact ⟨same, rfl⟩

theorem emit_iff {op : Opcode} : Yields (emit op) w u x ↔ x = w.emit op.bare := by
  unfold emit append
  exact modifyBody_iff

theorem emitWith_iff {op : Opcode} {operand : Nat} :
    Yields (emitWith op operand) w u x ↔
      ∃ h : operand ≤ maxOperand, x = w.emit ⟨op, operand, h⟩ := by
  unfold emitWith append
  simp only [Yields.bind_iff, lift_iff, modifyBody_iff, Opcode.withOperand_iff]
  constructor
  · rintro ⟨_, _, ⟨⟨h, rfl⟩, rfl⟩, rfl⟩
    exact ⟨h, rfl⟩
  · rintro ⟨h, rfl⟩
    exact ⟨_, w, ⟨⟨h, rfl⟩, rfl⟩, rfl⟩

theorem addConstant_iff {v : Value} {i : Nat} :
    Yields (addConstant v) w i x ↔ i = w.place v ∧ x = w.pool v := by
  unfold addConstant
  simp only [Yields.bind_iff, body_iff, modifyBody_iff, Yields.pure_iff]
  constructor
  · rintro ⟨_, _, ⟨rfl, rfl⟩, _, _, rfl, rfl, rfl⟩
    exact ⟨rfl, rfl⟩
  · rintro ⟨rfl, rfl⟩
    exact ⟨w.body, w, ⟨rfl, rfl⟩, (), _, rfl, rfl, rfl⟩

theorem emitConst_iff {v : Value} :
    Yields (emitConst v) w u x ↔
      ∃ h : w.place v ≤ maxOperand, x = (w.pool v).emit ⟨.const, w.place v, h⟩ := by
  unfold emitConst
  simp only [Yields.bind_iff, addConstant_iff, emitWith_iff]
  constructor
  · rintro ⟨_, _, ⟨rfl, rfl⟩, h, rfl⟩
    exact ⟨h, rfl⟩
  · rintro ⟨h, rfl⟩
    exact ⟨_, _, ⟨rfl, rfl⟩, h, rfl⟩

theorem newLabel_iff {label : Nat} :
    Yields newLabel w label x ↔ label = w.body.labelCount ∧ x = w.label := by
  unfold newLabel
  simp only [Yields.bind_iff, body_iff, modifyBody_iff, Yields.pure_iff]
  constructor
  · rintro ⟨_, _, ⟨rfl, rfl⟩, _, _, rfl, rfl, rfl⟩
    exact ⟨rfl, rfl⟩
  · rintro ⟨rfl, rfl⟩
    exact ⟨w.body, w, ⟨rfl, rfl⟩, (), _, rfl, rfl, rfl⟩

theorem anchor_iff {label : Nat} :
    Yields (anchor label) w u x ↔ ∃ h : label ≤ maxOperand, x = w.emit ⟨.label, label, h⟩ :=
  emitWith_iff

theorem pushScope_iff {kind : ScopeKind} :
    Yields (pushScope kind) w u x ↔ x = w.enter { kind } :=
  modifyBody_iff

/-- Leaving a scope takes back the slots that its locals had. -/
theorem popScope_yields (h : Yields popScope w u x) : x = w.leave := by
  unfold popScope at h
  obtain ⟨b, y, read, popping⟩ := Yields.bind_iff.mp h
  obtain ⟨rfl, rfl⟩ := body_iff.mp read
  unfold Workshop.leave
  cases scopes : y.body.scopes with
  | nil =>
    rw [scopes] at popping
    obtain ⟨-, rfl⟩ := Yields.pure_iff.mp popping
    exact (Workshop.alter_of_eq (by simp only [scopes])).symm
  | cons s rest =>
    rw [scopes] at popping
    obtain ⟨_, v, left, freeing⟩ := Yields.bind_iff.mp popping
    obtain rfl := modifyBody_iff.mp left
    by_cases place : s.kind = .locals
    · rw [if_pos place] at freeing
      obtain ⟨b, v, again, checking⟩ := Yields.bind_iff.mp freeing
      obtain ⟨rfl, rfl⟩ := body_iff.mp again
      dsimp only at checking
      split at checking
      · exact (breach_iff.mp checking).elim
      · obtain rfl := modifyBody_iff.mp checking
        rw [Workshop.alter_alter]
        refine Workshop.alter_congr ?_
        simp [scopes, place]
    · rw [if_neg place] at freeing
      obtain ⟨-, rfl⟩ := Yields.pure_iff.mp freeing
      refine Workshop.alter_congr ?_
      simp [scopes, place]

theorem declare_iff {name : String} {cell : Cell} :
    Yields (declare name cell) w u x ↔ w.Admits name ∧ x = w.declare name cell := by
  unfold declare
  simp only [Yields.bind_iff, body_iff]
  cases scopes : w.body.scopes with
  | nil =>
    constructor
    · rintro ⟨_, _, ⟨rfl, rfl⟩, h⟩
      rw [scopes] at h
      exact (breach_iff.mp h).elim
    · rintro ⟨⟨s, rest, some, -⟩, -⟩
      cases scopes.symm.trans some
  | cons s rest =>
    constructor
    · rintro ⟨_, _, ⟨rfl, rfl⟩, h⟩
      rw [scopes] at h
      dsimp only at h
      split at h
      · exact (reject_iff.mp h).elim
      next fresh =>
        obtain rfl := modifyBody_iff.mp h
        refine ⟨⟨s, rest, scopes, Option.not_isSome_iff_eq_none.mp fresh⟩, Workshop.alter_congr ?_⟩
        simp only [scopes]
    · rintro ⟨⟨t, others, same, fresh⟩, rfl⟩
      obtain ⟨rfl, rfl⟩ := List.cons.inj (scopes.symm.trans same)
      refine ⟨_, w, ⟨rfl, rfl⟩, ?_⟩
      rw [scopes]
      dsimp only
      rw [if_neg (by simp [fresh])]
      refine modifyBody_iff.mpr (Workshop.alter_congr ?_)
      simp only [scopes]

theorem bindArg_iff {name : String} {kind : CellKind} {index : Nat} {cell : Cell} :
    Yields (bindArg name kind index) w cell x ↔
      w.Admits name ∧ cell = ⟨kind, .args, index⟩ ∧ x = w.declare name ⟨kind, .args, index⟩ := by
  unfold bindArg
  simp only [Yields.bind_iff, declare_iff, Yields.pure_iff]
  constructor
  · rintro ⟨_, _, ⟨admits, rfl⟩, rfl, rfl⟩
    exact ⟨admits, rfl, rfl⟩
  · rintro ⟨admits, rfl, rfl⟩
    exact ⟨(), _, ⟨admits, rfl⟩, rfl, rfl⟩

theorem bindLocal_iff {name : String} {kind : CellKind} {cell : Cell} :
    Yields (bindLocal name kind) w cell x ↔
      w.Admits name ∧ cell = w.nextCell kind ∧ x = (w.declare name (w.nextCell kind)).slot := by
  have slot : (w.declare name (w.nextCell kind)).slot =
      (w.declare name (w.nextCell kind)).alter fun b =>
        { b with
          nextLocal := w.body.nextLocal + 1
          localCount := max b.localCount (w.body.nextLocal + 1) } := by
    refine Workshop.alter_congr ?_
    have kept : (w.declare name (w.nextCell kind)).body.nextLocal = w.body.nextLocal := by
      simp only [Workshop.declare, Workshop.body_alter]
      split <;> rfl
    simp only [kept]
  unfold bindLocal
  simp only [Yields.bind_iff, body_iff, declare_iff, modifyBody_iff, Yields.pure_iff]
  constructor
  · rintro ⟨_, _, ⟨rfl, rfl⟩, _, _, ⟨admits, rfl⟩, _, _, rfl, rfl, rfl⟩
    exact ⟨admits, rfl, slot.symm⟩
  · rintro ⟨admits, rfl, rfl⟩
    exact ⟨_, w, ⟨rfl, rfl⟩, (), _, ⟨admits, rfl⟩, (), _, rfl, rfl, slot⟩

theorem isLexical_iff {name : String} {b : Bool} :
    Yields (isLexical name) w b x ↔
      b = (Body.visible? (w.body :: w.around) name).isSome ∧ x = w := by
  unfold isLexical
  simp only [Yields.bind_iff, Yields.get_iff, Yields.pure_iff]
  constructor
  · rintro ⟨_, _, ⟨rfl, rfl⟩, rfl, rfl⟩
    exact ⟨rfl, rfl⟩
  · rintro ⟨rfl, rfl⟩
    exact ⟨x, x, ⟨rfl, rfl⟩, rfl, rfl⟩

theorem resolve_iff {name : String} {cell : Option Cell} :
    Yields (resolve name) w cell x ↔ cell = w.cell? name ∧ x = w.reach name := by
  unfold resolve Workshop.cell? Workshop.reach
  have here : w.encoder.body = w.body := rfl
  have outside : w.encoder.around = w.around := rfl
  have read : ∀ {act : Workshop → Encode (Option Cell)},
      Yields (get >>= act) w cell x ↔ Yields (act w) w cell x := by
    intro act
    rw [Yields.bind_iff]
    simp only [Yields.get_iff]
    constructor
    · rintro ⟨_, _, ⟨rfl, rfl⟩, h⟩
      exact h
    · exact fun h => ⟨w, w, ⟨rfl, rfl⟩, h⟩
  rw [read]
  dsimp only
  rw [here, outside]
  cases w.body.lexical? name with
  | some own => exact Yields.pure_iff
  | none =>
    cases Body.visible? w.around name with
    | none => exact Yields.pure_iff
    | some kind =>
      simp only [Yields.bind_iff, modifyBody_iff, Yields.pure_iff]
      constructor
      · rintro ⟨_, _, rfl, rfl, rfl⟩
        exact ⟨rfl, rfl⟩
      · rintro ⟨rfl, rfl⟩
        exact ⟨(), _, rfl, rfl, rfl⟩

theorem loadRaw_yields {cell : Cell} (h : Yields (loadRaw cell) w u x) :
    ∃ i, cell.Loads i ∧ x = w.emit i := by
  obtain ⟨kind, scope, index⟩ := cell
  unfold loadRaw at h
  cases scope with
  | current => exact ⟨_, ⟨rfl, fun other => absurd rfl other⟩, emit_iff.mp h⟩
  | args =>
    cases kind <;> (obtain ⟨_, rfl⟩ := emitWith_iff.mp h; exact ⟨_, ⟨rfl, fun _ => rfl⟩, rfl⟩)
  | locals =>
    obtain ⟨_, rfl⟩ := emitWith_iff.mp h
    exact ⟨_, ⟨rfl, fun _ => rfl⟩, rfl⟩
  | captured =>
    obtain ⟨_, rfl⟩ := emitWith_iff.mp h
    exact ⟨_, ⟨rfl, fun _ => rfl⟩, rfl⟩

theorem load_yields {cell : Cell} (h : Yields (load cell) w u x) :
    ∃ i, cell.Loads i ∧
      x = if cell.kind = .reference then (w.emit i).emit Opcode.deref.bare else w.emit i := by
  unfold load at h
  obtain ⟨_, y, raw, follow⟩ := Yields.bind_iff.mp h
  obtain ⟨i, loads, rfl⟩ := loadRaw_yields raw
  refine ⟨i, loads, ?_⟩
  split at follow
  next reference =>
    rw [if_pos reference]
    exact emit_iff.mp follow
  next plain =>
    rw [if_neg plain]
    exact (Yields.pure_iff.mp follow).2

theorem finish_iff {c : Chunk} : Yields finish w c x ↔ c = w.chunk ∧ x = w := by
  unfold finish
  simp only [Yields.bind_iff, Yields.get_iff, Yields.pure_iff]
  constructor
  · rintro ⟨_, _, ⟨rfl, rfl⟩, rfl, rfl⟩
    exact ⟨rfl, rfl⟩
  · rintro ⟨rfl, rfl⟩
    exact ⟨x, x, ⟨rfl, rfl⟩, rfl, rfl⟩

/-- An inner body leaves nothing but what it did to the store. -/
theorem inner_yields {α : Type} {name : Option String} {act : Encode α} {a : α}
    (h : Yields (inner name act) w a x) :
    ∃ y, Yields act (w.child name) a y ∧ x = { w with store := y.store } := by
  cases ended : (act.run (w.child name) : Except Rejection α × Workshop) with
  | mk r y =>
    have run : (r, ({ w with store := y.store } : Workshop)) = (.ok a, x) := by
      unfold Yields Ends inner at h
      change ((act.run (w.child name) : Except Rejection α × Workshop).1,
        ({ w with store := (act.run (w.child name) : Except Rejection α × Workshop).2.store } :
          Workshop)) = _ at h
      rwa [ended] at h
    obtain ⟨rfl, rfl⟩ := Prod.mk.inj run
    exact ⟨y, ended, rfl⟩

theorem global?_iff {name : String} {v : Option Value} :
    Yields (global? name) w v x ↔
      v = w.store.namespaces.resolve? w.encoder.globals name ∧ x = w := by
  unfold global?
  simp only [Yields.bind_iff, Yields.get_iff, Yields.pure_iff]
  constructor
  · rintro ⟨_, _, ⟨rfl, rfl⟩, rfl, rfl⟩
    exact ⟨rfl, rfl⟩
  · rintro ⟨rfl, rfl⟩
    exact ⟨x, x, ⟨rfl, rfl⟩, rfl, rfl⟩

end Encode

end StackLisp
