import StackLisp.Proofs.Layout

/-!
The steps of emission as stretches of code: one instruction, a constant, a slot, what a cell holds.
-/

namespace StackLisp

open Chunk Outlook

/-- The cell holds a value where this much is known. -/
def Cell.Held (c : Cell) (X : Outlook) : Prop :=
  match c.scope with
  | .args => c.kind = .rest ∨ c.index < X.least
  | .locals => X.stored c.index
  | _ => True

/-- The cell has a place in a body with so many local slots. -/
def Cell.Housed (c : Cell) (localCount : Nat) : Prop :=
  match c.scope with
  | .args => True
  | .locals => c.index < localCount
  | _ => False

theorem Cell.Housed.mono {c : Cell} {few many : Nat} (h : c.Housed few) (le : few ≤ many) : c.Housed many := by
  unfold Housed at h ⊢
  split at h
  · trivial
  · exact Nat.lt_of_lt_of_le h le
  · exact h.elim

namespace Cell.Loads

variable {cell : Cell} {i : Instruction} {X : Outlook} {a : Stage}

/-- What loading does to the stack. -/
structure Spec (i : Instruction) : Prop where
  moves : i.op.movesOperands
  labels : i.op.effect.operand ≠ .labels
  stays : i.op.effect.exits = false
  pops : i.pops = 0
  pushes : i.pushes = 1

theorem spec (h : cell.Loads i) : Spec i := by
  obtain ⟨op, operand, small⟩ := i
  obtain ⟨rfl, -⟩ : op = cell.loader ∧ _ := h
  obtain ⟨kind, scope, index⟩ := cell
  cases scope <;> cases kind <;> exact ⟨rfl, nofun, rfl, rfl, rfl⟩

theorem allows (h : cell.Loads i) (held : cell.Held X) : X.Allows i := by
  obtain ⟨kind, scope, index⟩ := cell
  obtain ⟨op, operand, small⟩ := i
  obtain ⟨rfl, place⟩ := h
  cases scope with
  | args =>
    obtain rfl : operand = index := place nofun
    cases kind with
    | rest => exact ⟨Nat.zero_le _, nofun, nofun, nofun, nofun, nofun⟩
    | value | reference =>
      exact ⟨Nat.zero_le _, nofun, fun _ => held.resolve_left nofun, nofun, nofun, nofun⟩
  | locals =>
    obtain rfl : operand = index := place nofun
    exact ⟨Nat.zero_le _, nofun, nofun, fun _ => held, nofun, nofun⟩
  | captured | current => exact ⟨Nat.zero_le _, nofun, nofun, nofun, nofun, nofun⟩

theorem holds (h : cell.Loads i) (place : cell.Housed a.localCount ∨
    (cell.scope = .captured ∧ cell.index < a.captured) ∨ cell.scope = .current) : a.Holds i := by
  obtain ⟨kind, scope, index⟩ := cell
  obtain ⟨op, operand, small⟩ := i
  obtain ⟨rfl, same⟩ := h
  cases scope with
  | args => cases kind <;> exact ⟨trivial, nofun⟩
  | locals =>
    obtain rfl : operand = index := same nofun
    have below : operand < a.localCount := place.resolve_right (by rintro (⟨⟨⟩, -⟩ | ⟨⟨⟩⟩))
    exact ⟨below, nofun⟩
  | captured =>
    obtain rfl : operand = index := same nofun
    rcases place with housed | ⟨-, below⟩ | current
    · exact housed.elim
    · exact ⟨trivial, fun _ => below⟩
    · cases current
  | current => exact ⟨trivial, nofun⟩

end Cell.Loads

/-- The slot is stored to as well. -/
def Outlook.store (X : Outlook) (slot : Nat) : Outlook :=
  { X with stored := fun k => k = slot ∨ X.stored k }

theorem Outlook.store_le (X : Outlook) (slot : Nat) : X.store slot ≤ X :=
  ⟨Operand.each_refl _, Nat.le_refl _, List.forall₂_refl _, fun _ => .inr⟩

theorem Outlook.push_le_deep (X : Outlook) (a : Operand) : X.push [a] ≤ X.deep 1 :=
  ⟨.cons (Operand.le_any a) (Operand.each_refl _), Nat.le_refl _, List.forall₂_refl _, fun _ => id⟩

/-- Whether an operation asks for operands only, and then goes on. -/
def Opcode.isSimple (op : Opcode) : Bool :=
  op.movesOperands && !op.effect.exits && op.effect.operand ≠ .labels && op.effect.operand ≠ .locals &&
    op.effect.operand ≠ .constants && op ≠ .arg && op ≠ .capture && op ≠ .makeClosure

theorem Opcode.isSimple_iff {op : Opcode} : op.isSimple = true ↔ op.movesOperands = true ∧
    op.effect.exits = false ∧ op.effect.operand ≠ .labels ∧ op.effect.operand ≠ .locals ∧
    op.effect.operand ≠ .constants ∧ op ≠ .arg ∧ op ≠ .capture ∧ op ≠ .makeClosure := by
  simp [Opcode.isSimple, and_assoc]

theorem Outlook.allows_simple {X : Outlook} {i : Instruction} (simple : i.op.isSimple)
    (pops : i.pops ≤ X.stack.length) : X.Allows i := by
  obtain ⟨moves, stays, -, slots, -, arg, -, makes⟩ := Opcode.isSimple_iff.mp simple
  refine ⟨pops, fun leaves => ?_, fun reads => absurd reads arg, fun loads => ?_, fun resumes => ?_,
    fun op => absurd op makes⟩
  · cases stays.symm.trans leaves
  · rw [loads] at slots
    exact absurd rfl slots
  · rw [resumes] at moves
    cases moves

namespace Workshop

def stage (w : Workshop) : Stage :=
  ⟨w.body.code, w.body.constants, w.body.localCount, w.body.labelCount, w.body.captured.length⟩

/-- Every name in scope has its value where this much is known, and the operands are any. -/
structure Meets (w : Workshop) (X : Outlook) : Prop where
  cells : ∀ s ∈ w.body.scopes, ∀ entry ∈ s.cells, entry.2.Held X
  plain : X.Plain

/-- A workshop with a library for its store, safe constants and a place for each name in scope. -/
structure Ready (known : Procedure Value → Prop) (w : Workshop) : Prop where
  store : w.store.Keeps known
  constants : ∀ v ∈ w.body.constants, v.Safe known
  housed : ∀ s ∈ w.body.scopes, ∀ entry ∈ s.cells, entry.2.Housed w.body.localCount

/-- Work has emitted code that leads from what is known before it to what is known after it, for whatever is
known where `met` says, with what is known then at the labels that are given. It has kept the library. -/
def Lays (known : Procedure Value → Prop) (w x : Workshop) (anchors goals : List Nat)
    (met : Outlook → Prop) (given : Outlook → List (Nat × Outlook))
    (before after : Outlook → Option Outlook) : Prop :=
  ∃ (more : Procedure Value → Prop) (seg : List Instruction), (∀ {p}, known p → more p) ∧ x.Ready more ∧
    Stretch w.stage x.stage anchors goals seg ∧
    ∀ X, met X → view.Leads w.stage x.stage (given X) (before X) seg (after X)

/-- Work for a form: its code takes so many operands to so many, whatever is below them. -/
def Pushes (known : Procedure Value → Prop) (w x : Workshop) (m n : Nat) : Prop :=
  w.Stays x ∧ Lays known w x [] [] w.Meets (fun _ => []) (fun X => some (X.deep m)) fun X => some (X.deep n)

variable {w u x : Workshop} {X : Outlook} {m n k : Nat} {i : Instruction}
  {known more : Procedure Value → Prop} {E F G H : List Nat} {met : Outlook → Prop}
  {given : Outlook → List (Nat × Outlook)} {before between after : Outlook → Option Outlook}

@[simp] theorem stage_leave (w : Workshop) : w.leave.stage = w.stage := by
  unfold stage leave
  simp only [body_alter]
  split <;> rfl

@[simp] theorem stage_enter (w : Workshop) (s : Scope) : (w.enter s).stage = w.stage := rfl

theorem Meets.congr (h : w.Meets X) (scopes : x.body.scopes = w.body.scopes) : x.Meets X :=
  ⟨scopes ▸ h.cells, h.plain⟩

theorem Meets.deep (h : w.Meets X) (n : Nat) : w.Meets (X.deep n) :=
  ⟨h.cells, h.plain.deep n⟩

theorem Stays.meets (h : w.Stays x) (met : w.Meets X) : x.Meets X :=
  met.congr h.scopes

theorem Ready.mono (h : w.Ready known) (scopes : x.body.scopes ⊆ w.body.scopes)
    (constants : x.body.constants = w.body.constants) (locals : w.body.localCount ≤ x.body.localCount)
    (store : x.store = w.store) : x.Ready known where
  store := store ▸ h.store
  constants := constants ▸ h.constants
  housed s member entry inside := (h.housed s (scopes member) entry inside).mono locals

theorem Ready.emit (h : w.Ready known) (i : Instruction) : (w.emit i).Ready known :=
  h.mono (List.Subset.refl _) rfl (Nat.le_refl _) rfl

theorem Ready.pool (h : w.Ready known) {v : Value} (safe : v.Safe known) : (w.pool v).Ready known :=
  { h with constants := fun u member => (mem_poolConstant member).elim (h.constants u) fun same =>
      same ▸ safe }

theorem Ready.emitConst (h : w.Ready known) {v : Value} (safe : v.Safe known)
    (place : w.place v ≤ maxOperand) : (w.emitConst v place).Ready known :=
  (h.pool safe).emit _

theorem Ready.label (h : w.Ready known) : w.label.Ready known :=
  h.mono (List.Subset.refl _) rfl (Nat.le_refl _) rfl

theorem Ready.reach (h : w.Ready known) (name : String) : (w.reach name).Ready known := by
  unfold Workshop.reach
  split
  · exact h.mono (List.Subset.refl _) rfl (Nat.le_refl _) rfl
  · exact h

theorem Ready.leave (h : w.Ready known) : w.leave.Ready known := by
  have kept : w.leave.body.scopes ⊆ w.body.scopes ∧ w.leave.body.constants = w.body.constants ∧
      w.leave.body.localCount = w.body.localCount := by
    unfold Workshop.leave
    simp only [body_alter]
    split
    · exact ⟨List.Subset.refl _, rfl, rfl⟩
    next opened =>
      rw [opened]
      exact ⟨List.subset_cons_self _ _, rfl, rfl⟩
  exact h.mono kept.1 kept.2.1 kept.2.2.ge rfl

theorem Ready.enter (h : w.Ready known) {s : Scope} (cells : ∀ entry ∈ s.cells, entry.2.Housed w.body.localCount) :
    (w.enter s).Ready known :=
  { h with housed := fun _ member => (List.mem_cons.mp member).elim (fun own => own ▸ cells) (h.housed _) }

namespace Lays

theorem refl (ready : w.Ready known) (before : Outlook → Option Outlook) :
    Lays known w w [] [] met given before before :=
  ⟨known, [], id, ready, .quiet rfl (List.prefix_refl _) (Nat.le_refl _) (Nat.le_refl _) (Nat.le_refl _),
    fun _ _ => .quiet _ _ _⟩

theorem following {seg : List Instruction} (h : Lays more u x G H met given between after)
    (wider : ∀ {p}, known p → more p) (stretch : Stretch w.stage u.stage E F seg)
    (leads : ∀ X, met X → view.Leads w.stage u.stage (given X) (before X) seg (between X))
    (old : ∀ label ∈ E ++ G, label < w.body.labelCount) (apart : ∀ label ∈ E, label ∉ G) :
    Lays known w x (E ++ G) (F ++ H) met given before after := by
  obtain ⟨most, rest, wider', ready, stretch', leads'⟩ := h
  refine ⟨most, seg ++ rest, fun old => wider' (wider old), ready, stretch.append stretch' old apart,
    fun X holds => ?_⟩
  exact (leads X holds).append (leads' X holds) stretch.labels stretch'.labels stretch'.constants

theorem append (h : Lays known w u E F met given before between)
    (next : ∀ {more}, (∀ {p}, known p → more p) → u.Ready more → Lays more u x G H met given between after)
    (old : ∀ label ∈ E ++ G, label < w.body.labelCount) (apart : ∀ label ∈ E, label ∉ G) :
    Lays known w x (E ++ G) (F ++ H) met given before after := by
  obtain ⟨more, seg, wider, ready, stretch, leads⟩ := h
  exact following (next wider ready) wider stretch leads old apart

theorem conseq {met' : Outlook → Prop} {before' after' : Outlook → Option Outlook} (f : Outlook → Outlook)
    (h : Lays known w x E F met (fun _ => []) before after) (holds : ∀ X, met' X → met (f X))
    (first : ∀ X, met' X → before' X ≤ before (f X)) (last : ∀ X, met' X → after (f X) ≤ after' X) :
    Lays known w x E F met' given before' after' := by
  obtain ⟨more, seg, wider, ready, stretch, leads⟩ := h
  refine ⟨more, seg, wider, ready, stretch, fun X known => ?_⟩
  exact (((leads (f X) (holds X known)).weaken (first X known)).widen (last X known)).amid (given X)

end Lays

namespace Pushes

/-- Operands below make no difference. -/
theorem frame (h : w.Pushes known x m n) (k : Nat) : w.Pushes known x (m + k) (n + k) := by
  refine ⟨h.1, h.2.conseq (·.deep k) (fun X met => met.deep k) (fun X _ => ?_) fun X _ => ?_⟩
  · rw [deep_deep]
    exact known_refl _
  · rw [deep_deep]
    exact known_refl _

theorem following (h : u.Pushes more x k n) (stays : w.Stays u) {seg : List Instruction}
    (wider : ∀ {p}, known p → more p) (stretch : Stretch w.stage u.stage [] [] seg)
    (leads : ∀ X, w.Meets X → view.Leads w.stage u.stage [] (some (X.deep m)) seg (some (X.deep k))) :
    w.Pushes known x m n := by
  refine ⟨stays.trans h.1, Lays.following (E := []) (F := []) ?_ wider stretch leads (fun _ => nofun)
    fun _ => nofun⟩
  exact h.2.conseq id (fun _ => stays.meets) (fun _ _ => known_refl _) fun _ _ => known_refl _

theorem refl (ready : w.Ready known) (n : Nat) : w.Pushes known w n n :=
  ⟨.refl w, .refl ready _⟩

end Pushes

theorem stretch_emit (holds : w.stage.Holds i) (plain : i.op.effect.operand ≠ .labels) :
    Stretch w.stage (w.emit i).stage [] [] [i] :=
  .one rfl (List.prefix_refl _) rfl rfl rfl ⟨holds.fits, holds.captured⟩ plain

theorem stretch_anchor {label : Nat} (h : label ≤ maxOperand) (taken : label < w.body.labelCount) :
    Stretch w.stage (w.emit ⟨.label, label, h⟩).stage [label] [] [⟨.label, label, h⟩] :=
  .label (i := ⟨.label, label, h⟩) rfl (List.prefix_refl _) rfl rfl rfl rfl taken

theorem stretch_jump (op : i.op.jumps) (taken : i.operand < w.body.labelCount) :
    Stretch w.stage (w.emit i).stage [] [i.operand] [i] :=
  .jump rfl (List.prefix_refl _) rfl rfl rfl op taken

theorem leads_emit (plain : X.Plain) (op : i.op.movesOperands) (labels : i.op.effect.operand ≠ .labels)
    (stays : i.op.effect.exits = false) (allows : (X.deep i.pops).Allows i) (a b : Stage) :
    view.Leads a b [] (some (X.deep i.pops)) [i] (some (X.deep i.pushes)) := by
  refine ⟨fun _ => none, fun _ _ _ => .cons (Outlook.passes labels allows) ?_⟩
  rw [Outlook.onward_some stays]
  exact Option.some_le_some.mpr (after_deep (n := 0) plain op)

theorem holds_simple (simple : i.op.isSimple) (a : Stage) : a.Holds i := by
  obtain ⟨-, -, labels, slots, constants, -, capture, -⟩ := Opcode.isSimple_iff.mp simple
  exact ⟨fits_of_free constants slots labels, fun op => absurd op capture⟩

theorem pushes_simple (ready : w.Ready known) (simple : i.op.isSimple) :
    w.Pushes known (w.emit i) i.pops i.pushes := by
  obtain ⟨moves, stays, labels, -⟩ := Opcode.isSimple_iff.mp simple
  refine ⟨stays_emit i, known, [i], id, ready.emit i, stretch_emit (holds_simple simple _) labels,
    fun X met => leads_emit met.plain moves labels stays (allows_simple simple ?_) _ _⟩
  rw [length_deep]
  exact Nat.le_add_right _ _

theorem stretch_const (v : Value) (h : w.place v ≤ maxOperand) :
    Stretch w.stage (w.emitConst v h).stage [] [] [⟨.const, w.place v, h⟩] := by
  obtain ⟨u, there, -⟩ := poolConstant_place w.body.constants v
  exact .one rfl (poolConstant_extends _ _) rfl rfl rfl ⟨(List.getElem?_eq_some_iff.mp there).1, nofun⟩ nofun

theorem leads_const (v : Value) (h : w.place v ≤ maxOperand) (a : Stage) (X : Outlook) :
    view.Leads a (w.emitConst v h).stage [] (some X) [⟨.const, w.place v, h⟩]
      (some (X.push [.ofConstant (some v)])) := by
  obtain ⟨u, there, same⟩ := poolConstant_place w.body.constants v
  refine ⟨fun _ => none, fun {goals pool} _ _ found => ?_⟩
  have pooled : pool[w.place v]? = some u := getElem?_of_longer found there
  refine .cons (Outlook.passes (i := ⟨.const, _, h⟩) (show OperandKind.constants ≠ .labels from nofun)
    ⟨Nat.zero_le _, nofun, nofun, nofun, nofun, nofun⟩) ?_
  rw [Outlook.onward_some rfl, Outlook.after]
  refine Option.some_le_some.mpr ⟨.cons (.inr ?_) (Operand.each_refl _), Nat.le_refl _,
    List.forall₂_refl _, fun _ => id⟩
  rw [show pool[(⟨.const, w.place v, h⟩ : Instruction).operand]? = some u from pooled]
  exact Operand.ofConstant_congr same

theorem pushes_const (ready : w.Ready known) {v : Value} (safe : v.Safe known)
    (h : w.place v ≤ maxOperand) : w.Pushes known (w.emitConst v h) 0 1 :=
  ⟨stays_emitConst v h, known, _, id, ready.emitConst safe h, stretch_const v h, fun X _ =>
    (leads_const v h _ X).widen (Option.some_le_some.mpr (X.push_le_deep _))⟩

/-- The constant of a template, and a closure made of it and of what it captures. -/
theorem pushes_closure (ready : w.Ready known) {p : Procedure Value} (body : known p) {count : Nat}
    (captures : p.Captures count) (h : w.place (.procedure p) ≤ maxOperand) (fits : count ≤ maxOperand) :
    w.Pushes known ((w.emitConst (.procedure p) h).emit ⟨.makeClosure, count, fits⟩) count 1 := by
  refine ⟨(stays_emitConst _ h).trans (stays_emit _), known, _, id, (ready.emitConst (.procedure body) h).emit _,
    (stretch_const _ h).then (stretch_emit ⟨trivial, nofun⟩ (show OperandKind.stack ≠ .labels from nofun)),
    fun X met => ?_⟩
  refine (leads_const (.procedure p) h _ (X.deep count)).append ?_ (Nat.le_refl _) (Nat.le_refl _)
    (List.prefix_refl _)
  refine ⟨fun _ => none, fun _ _ _ => .cons (Outlook.passes (i := ⟨.makeClosure, count, fits⟩)
    (show OperandKind.stack ≠ .labels from nofun)
    ⟨?_, nofun, nofun, nofun, nofun, fun _ => ⟨p.code, _, rfl, captures⟩⟩) ?_⟩
  · show 1 + count ≤ (X.deep count).stack.length + 1
    rw [length_deep]
    omega
  · rw [Outlook.onward_some rfl]
    have below : (X.push (List.replicate count .any)).stack.drop count = X.stack := drop_deep X count 0
    have dropped : ((X.deep count).push [.template p.code]).stack.drop (1 + count) = X.stack := by
      rw [Nat.add_comm]
      exact below
    refine Option.some_le_some.mpr ⟨?_, Nat.le_refl _, List.forall₂_refl _, fun _ => id⟩
    show Operand.Each (.any :: ((X.deep count).push [.template p.code]).stack.drop (1 + count)) (.any :: X.stack)
    rw [dropped]
    exact Operand.each_refl _

/-- A name bound in the body is in a scope, or captured, or the name of the body. -/
theorem lexical?_places {b : Body} {name : String} {cell : Cell} (h : b.lexical? name = some cell) :
    (∃ s ∈ b.scopes, ∃ entry ∈ s.cells, entry.2 = cell) ∨
      (cell.scope = .captured ∧ cell.index < b.captured.length) ∨ cell.scope = .current := by
  unfold Body.lexical? at h
  split at h
  next own found =>
    obtain rfl := Option.some.inj h
    obtain ⟨s, member, looked⟩ := List.exists_of_findSome?_eq_some found
    obtain ⟨before, after, same, -⟩ := List.lookup_eq_some_iff.mp looked
    exact .inl ⟨s, member, (name, own), by rw [same]; simp, rfl⟩
  next =>
    split at h
    next k kind place _ =>
      obtain rfl := Option.some.inj h
      exact .inr (.inl ⟨rfl, (List.findIdx?_eq_some_iff_getElem.mp place).1⟩)
    next =>
      split at h
      · obtain rfl := Option.some.inj h
        exact .inr (.inr rfl)
      · cases h

theorem cell?_places {name : String} {cell : Cell} (h : w.cell? name = some cell) :
    (∃ s ∈ w.body.scopes, ∃ entry ∈ s.cells, entry.2 = cell) ∨
      (cell.scope = .captured ∧ cell.index < (w.reach name).body.captured.length) ∨
        cell.scope = .current := by
  unfold cell? at h
  unfold reach
  split at h
  next own found =>
    obtain rfl := Option.some.inj h
    rw [found]
    exact lexical?_places found
  next missing =>
    obtain ⟨kind, seen, rfl⟩ := Option.map_eq_some_iff.mp h
    rw [missing, seen]
    refine .inr (.inl ⟨rfl, ?_⟩)
    rw [body_alter, List.length_append]
    exact Nat.lt_succ_self _

theorem stretch_reach (w : Workshop) (name : String) : Stretch w.stage (w.reach name).stage [] [] [] := by
  have kept : (w.reach name).body.labelCount = w.body.labelCount ∧
      (w.reach name).body.localCount = w.body.localCount ∧ (w.reach name).body.code = w.body.code := by
    unfold reach
    split <;> exact ⟨rfl, rfl, rfl⟩
  have stays := stays_reach (w := w) name
  exact .quiet kept.2.2 stays.constants kept.2.1.ge kept.1.ge stays.captured.length_le

/-- The cell is that of a name in scope. -/
def Binds (w : Workshop) (cell : Cell) : Prop :=
  ∃ s ∈ w.body.scopes, ∃ entry ∈ s.cells, entry.2 = cell

theorem Binds.congr {cell : Cell} (h : w.Binds cell) (scopes : x.body.scopes = w.body.scopes) : x.Binds cell := by
  unfold Binds
  rwa [scopes]

theorem Binds.opens {cell : Cell} (h : w.Binds cell) (opens : w.Opens x) : x.Binds cell := by
  obtain ⟨s, member, entry, inside, rfl⟩ := h
  cases opened : w.body.scopes with
  | nil =>
    rw [opened] at member
    cases member
  | cons t others =>
    obtain ⟨more, scopes, -⟩ := opens.scopes opened
    rw [opened] at member
    rcases List.mem_cons.mp member with rfl | later
    · exact ⟨_, scopes ▸ List.mem_cons_self, entry, List.mem_append_right _ inside, rfl⟩
    · exact ⟨s, scopes ▸ List.mem_cons_of_mem _ later, entry, inside, rfl⟩

theorem pushes_cell (ready : w.Ready known) {cell : Cell} (loads : cell.Loads i) (holds : w.stage.Holds i)
    (held : ∀ X, w.Meets X → cell.Held X) : w.Pushes known (w.emit i) 0 1 := by
  have spec := loads.spec
  refine ⟨stays_emit i, known, _, id, ready.emit i, stretch_emit holds spec.labels, fun X met => ?_⟩
  have step := leads_emit met.plain spec.moves spec.labels spec.stays (by
    rw [spec.pops]
    exact loads.allows (held X met)) w.stage (w.emit i).stage
  rwa [spec.pops, spec.pushes] at step

theorem pushes_own (ready : w.Ready known) {cell : Cell} (binds : w.Binds cell) (loads : cell.Loads i) :
    w.Pushes known (w.emit i) 0 1 := by
  obtain ⟨s, member, entry, inside, rfl⟩ := binds
  exact pushes_cell ready loads (loads.holds (.inl (ready.housed s member entry inside))) fun X met =>
    met.cells s member entry inside

theorem pushes_load (ready : w.Ready known) {name : String} {cell : Cell} (found : w.cell? name = some cell)
    (loads : cell.Loads i) : w.Pushes known ((w.reach name).emit i) 0 1 := by
  have stays := stays_reach (w := w) name
  have pushes : (w.reach name).Pushes known ((w.reach name).emit i) 0 1 := by
    rcases cell?_places found with ⟨s, member, own⟩ | far
    · exact pushes_own (ready.reach name) ⟨s, stays.scopes ▸ member, own⟩ loads
    · refine pushes_cell (ready.reach name) loads (loads.holds (.inr far)) fun X _ => ?_
      unfold Cell.Held
      rcases far with ⟨captured, -⟩ | current
      · rw [captured]
        trivial
      · rw [current]
        trivial
  exact pushes.following stays id (stretch_reach w name) fun X _ => .quiet _ _ _

/-- Work that has bound names in the innermost scope, each with its value. -/
def Opened (known : Procedure Value → Prop) (w x : Workshop) : Prop :=
  w.Opens x ∧ ∃ f : Outlook → Outlook, (∀ X, w.Meets X → x.Meets (f X) ∧ f X ≤ X) ∧
    Lays known w x [] [] w.Meets (fun _ => []) some fun X => some (f X)

namespace Opened

theorem refl (ready : w.Ready known) : w.Opened known w :=
  ⟨(Stays.refl w).opens, id, fun X met => ⟨met, le_refl X⟩, .refl ready _⟩

theorem following (h : u.Opened more x) (opens : w.Opens u) {f : Outlook → Outlook}
    (met : ∀ X, w.Meets X → u.Meets (f X) ∧ f X ≤ X) {seg : List Instruction}
    (wider : ∀ {p}, known p → more p) (stretch : Stretch w.stage u.stage [] [] seg)
    (leads : ∀ X, w.Meets X → view.Leads w.stage u.stage [] (some X) seg (some (f X))) : w.Opened known x := by
  obtain ⟨opens', g, met', lays⟩ := h
  refine ⟨opens.trans opens', g ∘ f, fun X holds => ?_, ?_⟩
  · obtain ⟨met, le⟩ := met X holds
    obtain ⟨met', le'⟩ := met' (f X) met
    exact ⟨met', le_trans le' le⟩
  · refine Lays.following (E := []) (F := []) ?_ wider stretch leads (fun _ => nofun) fun _ => nofun
    exact lays.conseq f (fun X holds => (met X holds).1) (fun _ _ => known_refl _) fun _ _ => known_refl _

theorem of_pushes (h : w.Pushes known x 0 0) : w.Opened known x :=
  ⟨h.1.opens, id, fun X met => ⟨h.1.meets met, le_refl X⟩, h.2⟩

end Opened

/-- Work for a form in a scope of its own that is still open. -/
def Inside (known : Procedure Value → Prop) (w x : Workshop) : Prop :=
  (w.enter { kind := .locals }).Opens x ∧ Lays known (w.enter { kind := .locals }) x [] [] w.Meets
    (fun _ => []) (fun X => some (X.deep 0)) fun X => some (X.deep 1)

theorem Meets.enter (h : w.Meets X) {s : Scope} (cells : ∀ entry ∈ s.cells, entry.2.Held X) :
    (w.enter s).Meets X :=
  ⟨fun _ member => (List.mem_cons.mp member).elim (fun own => own ▸ cells) (h.cells _), h.plain⟩

theorem Pushes.inside (h : u.Pushes more x 0 1) (opens : (w.enter { kind := .locals }).Opens u)
    {f : Outlook → Outlook} (met : ∀ X, (w.enter { kind := .locals }).Meets X → u.Meets (f X) ∧ f X ≤ X)
    {seg : List Instruction} (wider : ∀ {p}, known p → more p)
    (stretch : Stretch (w.enter { kind := .locals }).stage u.stage [] [] seg)
    (leads : ∀ X, (w.enter { kind := .locals }).Meets X →
      view.Leads (w.enter { kind := .locals }).stage u.stage [] (some X) seg (some (f X))) : w.Inside known x := by
  have entered {X : Outlook} (holds : w.Meets X) : (w.enter { kind := .locals }).Meets X :=
    holds.enter fun _ => nofun
  refine ⟨opens.trans h.1.opens, Lays.following (E := []) (F := []) ?_ wider stretch
    (fun X holds => leads X (entered holds)) (fun _ => nofun) fun _ => nofun⟩
  refine h.2.conseq f (fun X holds => (met X (entered holds)).1) (fun _ _ => known_refl _) fun X holds => ?_
  exact Option.some_le_some.mpr (push_le (met X (entered holds)).2 (Operand.each_refl _))

/-- The names and slots of a scope are gone once it is left. -/
theorem Inside.leave (h : w.Inside known x) : w.Pushes known x.leave 0 1 := by
  obtain ⟨opens, more, seg, wider, ready, stretch, leads⟩ := h
  refine ⟨opens.leave, more, seg, wider, ready.leave, ?_, ?_⟩
  · rwa [stage_leave]
  · rwa [stage_leave]

theorem bindLocal_emit (w : Workshop) (name : String) (kind : CellKind) (i : Instruction) :
    (w.bindLocal name kind).emit i = (w.emit i).bindLocal name kind := by
  unfold bindLocal slot declare emit
  simp only [alter_alter]
  refine alter_congr ?_
  simp only [Function.comp, nextCell, body_alter]
  split <;> rfl

theorem body_bindLocal (w : Workshop) (name : String) (kind : CellKind) :
    (w.bindLocal name kind).body.code = w.body.code ∧
      (w.bindLocal name kind).body.localCount = max w.body.localCount (w.body.nextLocal + 1) ∧
        (w.bindLocal name kind).body.labelCount = w.body.labelCount ∧
          (w.bindLocal name kind).body.captured = w.body.captured ∧
          (w.bindLocal name kind).body.constants = w.body.constants := by
  unfold bindLocal slot declare
  simp only [body_alter]
  split <;> exact ⟨rfl, rfl, rfl, rfl, rfl⟩

theorem nextLocal_bindLocal (w : Workshop) (name : String) (kind : CellKind) :
    (w.bindLocal name kind).body.nextLocal = w.body.nextLocal + 1 := by
  unfold bindLocal slot declare
  simp only [body_alter]
  split <;> rfl

theorem scopes_bindLocal (w : Workshop) (name : String) (kind : CellKind) {s : Scope}
    (member : s ∈ (w.bindLocal name kind).body.scopes) {entry : String × Cell} (inside : entry ∈ s.cells) :
    entry.2 = ⟨kind, .locals, w.body.nextLocal⟩ ∨ ∃ t ∈ w.body.scopes, entry ∈ t.cells := by
  cases opened : w.body.scopes with
  | nil =>
    simp only [bindLocal, slot, declare, body_alter, opened] at member
    cases member
  | cons t others =>
    simp only [bindLocal, slot, declare, body_alter, opened] at member
    rcases List.mem_cons.mp member with rfl | later
    · rcases List.mem_cons.mp inside with rfl | old
      · exact .inl rfl
      · exact .inr ⟨t, List.mem_cons_self, old⟩
    · exact .inr ⟨s, List.mem_cons_of_mem _ later, inside⟩

theorem Meets.bindLocal (h : w.Meets X) (name : String) (kind : CellKind) :
    (w.bindLocal name kind).Meets (X.store w.body.nextLocal) where
  cells s member entry inside := by
    rcases scopes_bindLocal w name kind member inside with new | ⟨t, old, there⟩
    · rw [new]
      exact .inl rfl
    · have held := h.cells t old entry there
      unfold Cell.Held at held ⊢
      split at held
      · exact held
      · exact .inr held
      · trivial
  plain := h.plain


theorem Ready.bindLocal (h : w.Ready known) (name : String) (kind : CellKind) :
    (w.bindLocal name kind).Ready known := by
  obtain ⟨-, locals, -, -, constants⟩ := body_bindLocal w name kind
  refine { h with constants := constants ▸ h.constants, housed := fun s member entry inside => ?_ }
  rw [locals]
  rcases scopes_bindLocal w name kind member inside with new | ⟨t, old, there⟩
  · rw [new]
    exact Nat.lt_of_lt_of_le (Nat.lt_succ_self _) (Nat.le_max_right _ _)
  · exact (h.housed t old entry there).mono (Nat.le_max_left _ _)

theorem stretch_bindLocal (w : Workshop) (name : String) (kind : CellKind) :
    Stretch w.stage (w.bindLocal name kind).stage [] [] [] := by
  obtain ⟨code, locals, labels, captured, constants⟩ := body_bindLocal w name kind
  refine .quiet code ?_ ?_ labels.ge (congrArg List.length captured).ge
  · show w.body.constants <+: (w.bindLocal name kind).body.constants
    rw [constants]
  · show w.body.localCount ≤ (w.bindLocal name kind).body.localCount
    rw [locals]
    exact Nat.le_max_left _ _

theorem Pushes.store (h : w.Pushes known u 0 1) (name : String) (kind : CellKind)
    (fits : u.body.nextLocal ≤ maxOperand) :
    w.Opened known ((u.bindLocal name kind).emit ⟨.store, u.body.nextLocal, fits⟩) := by
  obtain ⟨stays, lays⟩ := h
  refine ⟨(stays.opens.trans opens_bindLocal).trans (stays_emit _).opens, (·.store u.body.nextLocal),
    fun X met => ⟨((stays.meets met).bindLocal name kind).congr rfl, X.store_le _⟩, ?_⟩
  refine lays.append (fun {more} wider ready => ?_) (fun _ => nofun) fun _ => nofun
  refine ⟨more, _, id, (ready.bindLocal name kind).emit _,
    (stretch_bindLocal u name kind).then (stretch_emit ⟨?_, nofun⟩ (show OperandKind.locals ≠ .labels from nofun)),
    fun X _ => ⟨fun _ => none, fun _ _ _ => ?_⟩⟩
  · show u.body.nextLocal < (u.bindLocal name kind).body.localCount
    rw [(body_bindLocal u name kind).2.1]
    exact Nat.lt_of_lt_of_le (Nat.lt_succ_self _) (Nat.le_max_right _ _)
  · refine .cons (Outlook.passes (i := ⟨.store, _, fits⟩) (show OperandKind.locals ≠ .labels from nofun)
      ⟨?_, nofun, nofun, nofun, nofun, nofun⟩) ?_
    · rw [length_deep]
      exact Nat.le_add_right _ _
    · rw [Outlook.onward_some rfl]
      exact known_refl _

namespace Lays

theorem emit (ready : w.Ready known) (holds : w.stage.Holds i) (labels : i.op.effect.operand ≠ .labels)
    {now : Outlook → Outlook} (allows : ∀ X, met X → (now X).Allows i)
    (next : ∀ X pool, met X → view.onward pool i (some (now X)) ≤ after X) :
    Lays known w (w.emit i) [] [] met given (fun X => some (now X)) after :=
  ⟨known, [i], id, ready.emit i, stretch_emit holds labels, fun X holds =>
    .step labels (fun _ => allows X holds) fun _ => next X _ holds⟩

theorem anchor (ready : w.Ready known) {label : Nat} (h : label ≤ maxOperand)
    (taken : label < w.body.labelCount) {at_label : Outlook → Outlook}
    (known_at : ∀ X, met X → (label, at_label X) ∈ given X ∧ before X ≤ some (at_label X)) :
    Lays known w (w.emit ⟨.label, label, h⟩) [label] [] met given before fun X => some (at_label X) := by
  refine ⟨known, [⟨.label, label, h⟩], id, ready.emit _, stretch_anchor h taken, fun X holds => ?_⟩
  obtain ⟨place, le⟩ := known_at X holds
  refine .anchor rfl place le ⟨Nat.zero_le _, nofun, nofun, nofun, nofun, nofun⟩ fun {pool} => ?_
  rw [Outlook.onward_some rfl]
  exact known_refl _

theorem jumps (ready : w.Ready known) (op : i.op.jumps) (taken : i.operand < w.body.labelCount)
    {now at_label : Outlook → Outlook} (pops : ∀ X, met X → i.pops ≤ (now X).stack.length)
    (plain : i.op ≠ .jump → i.op.effect.exits = false)
    (known_at : ∀ X, met X → (i.operand, at_label X) ∈ given X ∧ (now X).taken i ≤ at_label X)
    (next : ∀ X pool, met X → view.onward pool i (some (now X)) ≤ after X) :
    Lays known w (w.emit i) [] [i.operand] met given (fun X => some (now X)) after := by
  refine ⟨known, [i], id, ready.emit _, stretch_jump op taken, fun X holds => ?_⟩
  obtain ⟨place, le⟩ := known_at X holds
  have labels : i.op.effect.operand = .labels := Opcode.operand_of_jumps op
  have mentions {other : Opcode} (which : i.op = other) : other.effect.operand = .labels := which ▸ labels
  refine .jump op place ⟨pops X holds, fun leaves _ other => ?_, fun arg => absurd (mentions arg) (by decide),
    fun load => absurd (mentions load) (by decide), fun resume => absurd (mentions resume) (by decide),
    fun make => absurd (mentions make) (by decide)⟩ le (next X _ holds)
  rw [plain other] at leaves
  cases leaves

/-- Labels that are taken before the work are its own. -/
theorem close (h : Lays known u x E F met given before after) (quiet : Stretch w.stage u.stage [] [] [])
    (own : ∀ label ∈ E, w.body.labelCount ≤ label ∧ label < u.body.labelCount) (goals : ∀ label ∈ F, label ∈ E)
    (places : ∀ X, met X → (given X).map Prod.fst = E) (distinct : E.Nodup) :
    Lays known w x [] [] met (fun _ => []) before after := by
  obtain ⟨more, seg, wider, ready, stretch, leads⟩ := h
  refine ⟨more, seg, wider, ready, stretch.seal quiet own goals, fun X holds => ?_⟩
  refine (leads X holds).seal quiet.labels ?_ (fun place member => own _ ?_) stretch.labels
  · rw [places X holds]
    exact distinct
  · rw [← places X holds]
    exact List.mem_map_of_mem member

end Lays

end Workshop

end StackLisp
