import Mathlib.Data.List.Forall2
import StackLisp.Proofs.Elaboration

/-!
Encoders that are asked for scopes, names and inner bodies. Which scopes are open and what is bound in them is
told by the requests alone. The slots of all local names in open scopes are the first ones, each taken once,
and no slot is given back that was not taken. What a body captures it captures once, in a place that it keeps,
and of the kind that the name is bound with around it.
-/

namespace StackLisp

/-- The slot of a local. -/
def Cell.slot? (c : Cell) : Option Nat :=
  if c.scope = .locals then some c.index else none

/-- The slots of a scope, the latest first. -/
def Scope.slots (s : Scope) : List Nat :=
  s.cells.filterMap fun entry => entry.2.slot?

/-- The slots of the local names in all open scopes, the latest first. -/
def Body.slots (b : Body) : List Nat :=
  b.scopes.flatMap Scope.slots

/-- The cell of a name in the innermost open scope that binds it. -/
def Body.scoped? (b : Body) (name : String) : Option Cell :=
  b.scopes.findSome? fun s => s.cells.lookup name

/-- What a body has for a name: a cell in a scope, or else one of its captures, or else itself. -/
inductive Body.Finds (b : Body) (name : String) : Cell → Prop
  | scope {cell : Cell} (here : b.scoped? name = some cell) : Finds b name cell
  | captured {i : Nat} {kind : CellKind} (unscoped : b.scoped? name = none)
      (here : b.captured[i]? = some (name, kind)) : Finds b name ⟨kind, .captured, i⟩
  | own (unscoped : b.scoped? name = none) (free : name ∉ b.captured.map Prod.fst) (here : b.name = some name) :
      Finds b name ⟨.value, .current, 0⟩

/-- The cell that the nearest of the bodies to bind a name binds it to, the innermost body first. -/
inductive Binding (name : String) : List Body → Cell → Prop
  | scope {b : Body} {around : List Body} {cell : Cell} (here : b.scoped? name = some cell) :
      Binding name (b :: around) cell
  | own {b : Body} {around : List Body} (unscoped : b.scoped? name = none) (here : b.name = some name) :
      Binding name (b :: around) ⟨.value, .current, 0⟩
  | around {b : Body} {around : List Body} {cell : Cell} (unscoped : b.scoped? name = none)
      (unnamed : b.name ≠ some name) (beyond : Binding name around cell) : Binding name (b :: around) cell

namespace Workshop

/-- A name looked for: found in the body, captured because it is bound around, or not lexical at all. -/
inductive Resolves (w : Workshop) (name : String) : Option Cell → Workshop → Prop
  | found {cell : Cell} (here : w.body.Finds name cell) : Resolves w name (some cell) w
  | captures {cell : Cell} (absent : ∀ own, ¬w.body.Finds name own) (bound : Binding name w.around cell) :
      Resolves w name (some ⟨cell.capturedKind, .captured, w.body.captured.length⟩)
        (w.alter fun b => { b with captured := b.captured ++ [(name, cell.capturedKind)] })
  | global (absent : ∀ own, ¬w.body.Finds name own) (unbound : ∀ cell, ¬Binding name w.around cell) :
      Resolves w name none w

/-! ### Requests -/

/-- What an encoder is asked for: a scope entered or left, a name bound or looked for, work on an inner body, or
instructions alone. -/
inductive Request
  | push (kind : ScopeKind)
  | pop
  | bindArg (name : String) (kind : CellKind) (index : Nat)
  | bindLocal (name : String) (kind : CellKind)
  | resolve (name : String)
  | inner
  | emit

/-- Scopes after a name is bound in the innermost one, unless that has the name already. -/
def bindInnermost (name : String) (cell : Cell) : List Scope → List Scope
  | [] => []
  | s :: others =>
    if (s.cells.lookup name).isSome then s :: others else { s with cells := (name, cell) :: s.cells } :: others

/-- The scopes that are open after a request. The slot of a local is the number of those that are taken. -/
def Request.after (scopes : List Scope) : Request → List Scope
  | .push kind => { kind } :: scopes
  | .pop => scopes.tail
  | .bindArg name kind index => bindInnermost name ⟨kind, .args, index⟩ scopes
  | .bindLocal name kind => bindInnermost name ⟨kind, .locals, (scopes.flatMap Scope.slots).length⟩ scopes
  | .resolve _ | .inner | .emit => scopes

/-- Whether a request is one within a scope. -/
def Request.Within : Request → Prop
  | .push _ | .pop => False
  | _ => True

/-- Requests that leave each scope they enter, and no other. -/
inductive Matched : List Request → Prop
  | nil : Matched []
  | cons {q : Request} {qs : List Request} (first : q.Within) (rest : Matched qs) : Matched (q :: qs)
  | scope {kind : ScopeKind} {inside rest : List Request} (inner : Matched inside) (others : Matched rest) :
      Matched (.push kind :: inside ++ .pop :: rest)

/-- The name of a body and the requests made for it, the first one first. -/
structure History where
  name : Option String
  requests : List Request

/-- The scopes that were entered and not left yet. -/
def History.scopes (h : History) : List Scope :=
  h.requests.foldl Request.after []

/-- The body is as its history tells. -/
structure Follows (b : Body) (h : History) : Prop where
  name : b.name = h.name
  scopes : b.scopes = h.scopes

/-- Whether the innermost scope is of the kind. -/
def InScope (w : Workshop) (kind : ScopeKind) : Prop :=
  ∃ s others, w.body.scopes = s :: others ∧ s.kind = kind

/-- Names, scopes and slots are as before. -/
structure Keeps (w x : Workshop) : Prop where
  name : x.body.name = w.body.name
  scopes : x.body.scopes = w.body.scopes
  captured : x.body.captured = w.body.captured
  nextLocal : x.body.nextLocal = w.body.nextLocal
  localCount : x.body.localCount = w.body.localCount
  around : x.around = w.around

/-- One request to an encoder, whatever comes of it. Parameters are bound in scopes for them and locals in
scopes for locals. Work on an inner body is one request, and all that only emits is another. -/
inductive Step (w : Workshop) : Request → Workshop → Prop
  | push {x : Workshop} {kind : ScopeKind} {r : Except Rejection Unit}
      (ends : Ends (Encode.pushScope kind) w r x) : Step w (.push kind) x
  | pop {x : Workshop} {r : Except Rejection Unit} (ends : Ends Encode.popScope w r x) : Step w .pop x
  | bindArg {x : Workshop} {name : String} {kind : CellKind} {index : Nat} {r : Except Rejection Cell}
      (inside : w.InScope .args) (ends : Ends (Encode.bindArg name kind index) w r x) :
      Step w (.bindArg name kind index) x
  | bindLocal {x : Workshop} {name : String} {kind : CellKind} {r : Except Rejection Cell}
      (inside : w.InScope .locals) (ends : Ends (Encode.bindLocal name kind) w r x) :
      Step w (.bindLocal name kind) x
  | resolve {x : Workshop} {name : String} {r : Except Rejection (Option Cell)}
      (ends : Ends (Encode.resolve name) w r x) : Step w (.resolve name) x
  | inner {x : Workshop} {α : Type} {name : Option String} {act : Encode α} {r : Except Rejection α}
      (ends : Ends (Encode.inner name act) w r x) : Step w .inner x
  | emit {x : Workshop} (keeps : w.Keeps x) : Step w .emit x

/-- Requests to one encoder, in order. -/
inductive Runs (w : Workshop) : List Request → Workshop → Prop
  | nil : Runs w [] w
  | snoc {u x : Workshop} {qs : List Request} {q : Request} (runs : Runs w qs u) (step : u.Step q x) :
      Runs w (qs ++ [q]) x

/-- An encoder at any time, with those around it and the history of each, the innermost first: the outermost
one is new, or this one is a new child of one that was reached, and requests were made since. -/
inductive Reached : List History → Workshop → Prop
  | top (globals : NamespaceId) (options : CompileOptions) (store : Store) :
      Reached [⟨none, []⟩] (.top globals options store)
  | child {past : List History} {w : Workshop} (reached : Reached past w) (name : Option String) :
      Reached (⟨name, []⟩ :: past) (w.child name)
  | step {past : List History} {own : Option String} {qs : List Request} {w x : Workshop} {q : Request}
      (reached : Reached (⟨own, qs⟩ :: past) w) (step : Step w q x) : Reached (⟨own, qs ++ [q]⟩ :: past) x

variable {w x : Workshop} {name : String}

theorem ends_pushScope {kind : ScopeKind} {r : Except Rejection Unit} (ends : Ends (Encode.pushScope kind) w r x) :
    x = w.enter { kind } :=
  (ends.unique (Encode.pushScope_iff (u := ()).mpr rfl)).2

theorem ends_resolve {r : Except Rejection (Option Cell)} (ends : Ends (Encode.resolve name) w r x) :
    x = w.reach name :=
  (ends.unique (Encode.resolve_iff.mpr ⟨rfl, rfl⟩)).2

theorem ends_inner {α : Type} {name : Option String} {act : Encode α} {r : Except Rejection α}
    (ends : Ends (Encode.inner name act) w r x) : ∃ store, x = { w with store } :=
  ⟨_, (Prod.mk.inj ends).2.symm⟩

theorem ends_declare {cell : Cell} {r : Except Rejection Unit} (ends : Ends (Encode.declare name cell) w r x) :
    (∃ u, r = .ok u) ∧ w.Admits name ∧ x = w.declare name cell ∨
      (∃ e, r = .error e) ∧ ¬w.Admits name ∧ x = w := by
  have read : Yields Encode.body w w.body w := Encode.body_iff.mpr ⟨rfl, rfl⟩
  cases scopes : w.body.scopes with
  | nil =>
    have refused : Ends (Encode.declare name cell) w (.error (.breach (.bindingOutsideScope name))) w :=
      read.bind_ok (by rw [scopes]; rfl)
    obtain ⟨rfl, rfl⟩ := ends.unique refused
    refine .inr ⟨⟨_, rfl⟩, ?_, rfl⟩
    rintro ⟨s, others, some, -⟩
    cases scopes.symm.trans some
  | cons s others =>
    cases taken : s.cells.lookup name with
    | some other =>
      have refused : Ends (Encode.declare name cell) w (.error (.error (.duplicateBinding name))) w :=
        read.bind_ok (by rw [scopes]; dsimp only; rw [taken]; rfl)
      obtain ⟨rfl, rfl⟩ := ends.unique refused
      refine .inr ⟨⟨_, rfl⟩, ?_, rfl⟩
      rintro ⟨t, _, same, free⟩
      cases scopes.symm.trans same
      cases taken.symm.trans free
    | none =>
      have admits : w.Admits name := ⟨s, others, scopes, taken⟩
      have bound : Yields (Encode.declare name cell) w () (w.declare name cell) :=
        Encode.declare_iff.mpr ⟨admits, rfl⟩
      obtain ⟨rfl, rfl⟩ := ends.unique bound
      exact .inl ⟨⟨_, rfl⟩, admits, rfl⟩

theorem ends_bindArg {kind : CellKind} {index : Nat} {r : Except Rejection Cell}
    (ends : Ends (Encode.bindArg name kind index) w r x) :
    w.Admits name ∧ x = w.declare name ⟨kind, .args, index⟩ ∨ ¬w.Admits name ∧ x = w := by
  cases declared : ((Encode.declare name ⟨kind, .args, index⟩).run w : Except Rejection Unit × Workshop) with
  | mk q y =>
    rcases ends_declare declared with ⟨⟨u, rfl⟩, admits, rfl⟩ | ⟨⟨e, rfl⟩, refused, rfl⟩
    · exact .inl ⟨admits, (ends.unique (Encode.bindArg_iff.mpr ⟨admits, rfl, rfl⟩)).2⟩
    · exact .inr ⟨refused, (ends.unique (Ends.bind_error declared)).2⟩

theorem ends_bindLocal {kind : CellKind} {r : Except Rejection Cell}
    (ends : Ends (Encode.bindLocal name kind) w r x) :
    w.Admits name ∧ x = w.bindLocal name kind ∨ ¬w.Admits name ∧ x = w := by
  have read : Yields Encode.body w w.body w := Encode.body_iff.mpr ⟨rfl, rfl⟩
  cases declared : ((Encode.declare name (w.nextCell kind)).run w : Except Rejection Unit × Workshop) with
  | mk q y =>
    rcases ends_declare declared with ⟨⟨u, rfl⟩, admits, rfl⟩ | ⟨⟨e, rfl⟩, refused, rfl⟩
    · exact .inl ⟨admits, (ends.unique (Encode.bindLocal_iff.mpr ⟨admits, rfl, rfl⟩)).2⟩
    · exact .inr ⟨refused, (ends.unique (read.bind_ok (Ends.bind_error declared))).2⟩

/-! ### What is kept -/

/-- Local names are in scopes for them and only there, and have the first slots; captured names are as they
should be. -/
structure Kept (w : Workshop) : Prop extends w.Sound where
  locals : ∀ s ∈ w.body.scopes, ∀ entry ∈ s.cells, entry.2.scope = .locals ↔ s.kind = .locals
  slots : w.body.slots = (List.range w.body.nextLocal).reverse
  count : w.body.nextLocal ≤ w.body.localCount

/-- The body and all those around it are kept in order. -/
def Orderly (w : Workshop) : Prop :=
  ∀ v : Workshop, v.body :: v.around <:+ w.body :: w.around → v.Kept

theorem Kept.congr (h : w.Kept) (keeps : w.Keeps x) : x.Kept where
  toSound := h.toSound.congr keeps.name keeps.around keeps.captured
  locals := keeps.scopes ▸ h.locals
  slots := by
    have same : x.body.slots = w.body.slots := by rw [Body.slots, keeps.scopes, Body.slots]
    rw [same, keeps.nextLocal, h.slots]
  count := by
    rw [keeps.nextLocal, keeps.localCount]
    exact h.count

theorem Orderly.kept (h : w.Orderly) : w.Kept :=
  h w (List.suffix_refl _)

theorem Orderly.of_around (h : w.Orderly) (around : x.around = w.around) (kept : x.Kept) : x.Orderly := by
  intro v inside
  rcases List.suffix_cons_iff.mp inside with itself | outside
  · obtain ⟨body, beyond⟩ := List.cons.inj itself
    refine kept.congr ⟨?_, ?_, ?_, ?_, ?_, beyond⟩ <;> rw [body]
  · rw [around] at outside
    exact h v (outside.trans (List.suffix_cons _ _))

theorem Orderly.congr (h : w.Orderly) (keeps : w.Keeps x) : x.Orderly :=
  h.of_around keeps.around (h.kept.congr keeps)

theorem kept_new (none : w.body.captured = []) (unscoped : w.body.scopes = []) (next : w.body.nextLocal = 0) :
    w.Kept where
  toSound := .none none
  locals := by
    rw [unscoped]
    exact nofun
  slots := by
    rw [Body.slots, unscoped, next]
    rfl
  count := next ▸ Nat.zero_le _

theorem Orderly.child (h : w.Orderly) (name : Option String) : (w.child name).Orderly := by
  intro v inside
  rcases List.suffix_cons_iff.mp inside with itself | outside
  · obtain ⟨body, -⟩ := List.cons.inj itself
    refine kept_new ?_ ?_ ?_ <;> rw [body] <;> rfl
  · exact h v outside

theorem orderly_top (globals : NamespaceId) (options : CompileOptions) (store : Store) :
    (Workshop.top globals options store).Orderly := by
  intro v inside
  rcases List.suffix_cons_iff.mp inside with itself | outside
  · obtain ⟨body, -⟩ := List.cons.inj itself
    refine kept_new ?_ ?_ ?_ <;> rw [body] <;> rfl
  · cases List.suffix_nil.mp outside

/-! ### Slots -/

theorem length_slots {s : Scope} (locals : ∀ entry ∈ s.cells, entry.2.scope = .locals ↔ s.kind = .locals) :
    s.slots.length = if s.kind = .locals then s.cells.length else 0 := by
  unfold Scope.slots
  split
  next kind =>
    have all : ∀ entry ∈ s.cells, entry.2.slot? = (some ∘ fun e => e.2.index) entry :=
      fun entry member => if_pos ((locals entry member).mpr kind)
    rw [List.filterMap_congr all, List.filterMap_eq_map, List.length_map]
  next other =>
    have none : ∀ entry ∈ s.cells, entry.2.slot? = none :=
      fun entry member => if_neg fun here => other ((locals entry member).mp here)
    rw [List.filterMap_eq_nil_iff.mpr none]
    rfl

theorem drop_reverse_range (n k : Nat) : ((List.range n).reverse).drop k = (List.range (n - k)).reverse := by
  rw [List.drop_reverse, List.length_range, List.take_range, Nat.min_eq_left (Nat.sub_le n k)]

/-- No scope holds more slots than were taken. -/
theorem Kept.room (h : w.Kept) {s : Scope} {others : List Scope} (scopes : w.body.scopes = s :: others)
    (kind : s.kind = .locals) : s.cells.length ≤ w.body.nextLocal := by
  have member : s ∈ w.body.scopes := by
    rw [scopes]
    exact List.mem_cons_self
  have own := length_slots (h.locals s member)
  have all := congrArg List.length h.slots
  rw [Body.slots, scopes, List.flatMap_cons, List.length_append, own, if_pos kind, List.length_reverse,
    List.length_range] at all
  omega

theorem Kept.pops (h : w.Kept) : Yields Encode.popScope w () w.leave := by
  have popped : ∃ x, Yields Encode.popScope w () x := by
    have read : Yields Encode.body w w.body w := Encode.body_iff.mpr ⟨rfl, rfl⟩
    unfold Encode.popScope
    cases scopes : w.body.scopes with
    | nil =>
      refine ⟨w, Yields.bind_iff.mpr ⟨_, _, read, ?_⟩⟩
      rw [scopes]
      exact Yields.pure_iff.mpr ⟨rfl, rfl⟩
    | cons s others =>
      let u := w.alter fun b => { b with scopes := others }
      have left : Yields (Encode.modifyBody fun b => { b with scopes := others }) w () u :=
        Encode.modifyBody_iff.mpr rfl
      by_cases kind : s.kind = .locals
      · refine ⟨u.alter fun b => { b with nextLocal := u.body.nextLocal - s.cells.length },
          Yields.bind_iff.mpr ⟨_, _, read, ?_⟩⟩
        rw [scopes]
        refine Yields.bind_iff.mpr ⟨_, _, left, ?_⟩
        rw [if_pos kind]
        refine Yields.bind_iff.mpr ⟨_, _, Encode.body_iff.mpr ⟨rfl, rfl⟩, ?_⟩
        have room : ¬u.body.nextLocal < s.cells.length := Nat.not_lt.mpr (h.room scopes kind)
        dsimp only
        rw [if_neg room]
        exact Encode.modifyBody_iff.mpr rfl
      · refine ⟨u, Yields.bind_iff.mpr ⟨_, _, read, ?_⟩⟩
        rw [scopes]
        refine Yields.bind_iff.mpr ⟨_, _, left, ?_⟩
        rw [if_neg kind]
        exact Yields.pure_iff.mpr ⟨rfl, rfl⟩
  obtain ⟨x, yields⟩ := popped
  rwa [Encode.popScope_yields yields] at yields

theorem Kept.leave (h : w.Kept) : w.leave.Kept := by
  cases scopes : w.body.scopes with
  | nil =>
    have same : w.leave = w := alter_of_eq (by simp only [scopes])
    rwa [same]
  | cons s others =>
    have member : s ∈ w.body.scopes := by
      rw [scopes]
      exact List.mem_cons_self
    have body : w.leave.body = { w.body with
        scopes := others
        nextLocal := if s.kind = .locals then w.body.nextLocal - s.cells.length else w.body.nextLocal } := by
      unfold Workshop.leave
      rw [body_alter]
      simp only [scopes]
    have rest : w.leave.body.slots =
        w.body.slots.drop (if s.kind = .locals then s.cells.length else 0) := by
      rw [← length_slots (h.locals s member), Body.slots, body, Body.slots, scopes, List.flatMap_cons, List.drop_left]
    refine ⟨h.toSound.congr (by rw [body]) rfl (by rw [body]), fun t inside => ?_, ?_, ?_⟩
    · refine h.locals t ?_
      rw [scopes]
      rw [body] at inside
      exact List.mem_cons_of_mem _ inside
    · rw [rest, h.slots, drop_reverse_range, body]
      split <;> rfl
    · rw [body]
      dsimp only
      have count := h.count
      split <;> omega

theorem Kept.enter (h : w.Kept) (kind : ScopeKind) : (w.enter { kind }).Kept where
  toSound := h.toSound.congr rfl rfl rfl
  locals s member := by
    rcases List.mem_cons.mp member with rfl | old
    · exact nofun
    · exact h.locals s old
  slots := h.slots
  count := h.count

theorem declare_keeps {s : Scope} {others : List Scope} (scopes : w.body.scopes = s :: others) (name : String)
    (cell : Cell) :
    (w.declare name cell).body =
      { w.body with scopes := { s with cells := (name, cell) :: s.cells } :: others } := by
  simp only [Workshop.declare, body_alter, scopes]

theorem slots_declare {s : Scope} {others : List Scope} (scopes : w.body.scopes = s :: others) (cell : Cell) :
    (w.declare name cell).body.slots = cell.slot?.toList ++ w.body.slots := by
  rw [declare_keeps scopes, Body.slots, Body.slots, scopes]
  simp only [List.flatMap_cons, Scope.slots, List.filterMap_cons]
  cases cell.slot? <;> rfl

theorem Kept.declare {s : Scope} {others : List Scope} (h : w.Kept) (scopes : w.body.scopes = s :: others)
    {cell : Cell} (place : cell.scope = .locals ↔ s.kind = .locals) :
    ∀ t ∈ (w.declare name cell).body.scopes, ∀ entry ∈ t.cells, entry.2.scope = .locals ↔ t.kind = .locals := by
  have old : ∀ t ∈ s :: others, ∀ entry ∈ t.cells, entry.2.scope = .locals ↔ t.kind = .locals :=
    scopes ▸ h.locals
  rw [declare_keeps scopes]
  intro t member entry inside
  rcases List.mem_cons.mp member with rfl | outer
  · rcases List.mem_cons.mp inside with rfl | before
    · exact place
    · exact old s List.mem_cons_self entry before
  · exact old t (List.mem_cons_of_mem _ outer) entry inside

theorem Kept.bindArg (h : w.Kept) (inside : w.InScope .args) {kind : CellKind} {index : Nat} :
    (w.declare name ⟨kind, .args, index⟩).Kept := by
  obtain ⟨s, others, scopes, args⟩ := inside
  have body := declare_keeps scopes name ⟨kind, .args, index⟩
  refine ⟨h.toSound.congr (by rw [body]) rfl (by rw [body]), h.declare scopes ?_, ?_, ?_⟩
  · simp [args]
  · rw [slots_declare scopes, body]
    exact h.slots
  · rw [body]
    exact h.count

theorem Kept.bindLocal (h : w.Kept) (inside : w.InScope .locals) {kind : CellKind} :
    (w.bindLocal name kind).Kept := by
  obtain ⟨s, others, scopes, locals⟩ := inside
  have body := declare_keeps scopes name (w.nextCell kind)
  have slotted : (w.bindLocal name kind).body =
      { (w.declare name (w.nextCell kind)).body with
        nextLocal := w.body.nextLocal + 1
        localCount := max w.body.localCount (w.body.nextLocal + 1) } := by
    unfold Workshop.bindLocal slot
    rw [body_alter, body]
  have slots : (w.bindLocal name kind).body.slots = (w.declare name (w.nextCell kind)).body.slots := by
    rw [slotted]
    rfl
  refine ⟨h.toSound.congr (by rw [slotted, body]) rfl (by rw [slotted, body]), ?_, ?_, ?_⟩
  · rw [slotted]
    exact h.declare scopes (by simp [locals, nextCell])
  · rw [slots, slots_declare scopes, h.slots, slotted, List.range_succ, List.reverse_append]
    rfl
  · rw [slotted]
    exact Nat.le_max_right _ _

theorem Kept.reach (h : w.Kept) (name : String) : (w.reach name).Kept := by
  have stays := stays_reach (w := w) name
  have slots : (w.reach name).body.slots = w.body.slots := by rw [Body.slots, stays.scopes, Body.slots]
  have count : (w.reach name).body.localCount = w.body.localCount := by
    unfold Workshop.reach
    split <;> rfl
  refine ⟨stays.sound h.toSound, stays.scopes ▸ h.locals, ?_, ?_⟩
  · rw [slots, stays.nextLocal, h.slots]
  · rw [stays.nextLocal, count]
    exact h.count

/-! ### Requests one after another -/

/-- A request leaves the bodies around as they are, and adds to what is captured. -/
structure Grows (w x : Workshop) : Prop where
  around : x.around = w.around
  name : x.body.name = w.body.name
  captured : w.body.captured <+: x.body.captured

theorem Grows.refl (w : Workshop) : w.Grows w :=
  ⟨rfl, rfl, List.prefix_refl _⟩

theorem Grows.trans {u : Workshop} (h : w.Grows u) (g : u.Grows x) : w.Grows x :=
  ⟨g.around.trans h.around, g.name.trans h.name, h.captured.trans g.captured⟩

theorem Extends.grows (h : w.Extends x) : w.Grows x :=
  ⟨h.around, h.name, h.captured⟩

variable {q : Request} {qs rs : List Request}

theorem Step.keeps (step : w.Step q x) (h : w.Kept) : x.Kept ∧ w.Grows x := by
  cases step with
  | push ends =>
    rw [ends_pushScope ends]
    exact ⟨h.enter _, rfl, rfl, List.prefix_refl _⟩
  | pop ends =>
    obtain ⟨-, rfl⟩ := ends.unique h.pops
    refine ⟨h.leave, rfl, ?_, captured_leave w ▸ List.prefix_refl _⟩
    simp only [Workshop.leave, body_alter]
    split <;> rfl
  | @bindArg _ name kind index _ inside ends =>
    rcases ends_bindArg ends with ⟨-, rfl⟩ | ⟨-, rfl⟩
    · obtain ⟨s, others, scopes, -⟩ := id inside
      have body := declare_keeps scopes name ⟨kind, .args, index⟩
      exact ⟨h.bindArg inside, rfl, by rw [body], [], by rw [body, List.append_nil]⟩
    · exact ⟨h, .refl _⟩
  | bindLocal inside ends =>
    rcases ends_bindLocal ends with ⟨-, rfl⟩ | ⟨-, rfl⟩
    · exact ⟨h.bindLocal inside, opens_bindLocal.toExtends.grows⟩
    · exact ⟨h, .refl _⟩
  | resolve ends =>
    rw [ends_resolve ends]
    exact ⟨h.reach _, (stays_reach _).toExtends.grows⟩
  | inner ends =>
    obtain ⟨store, rfl⟩ := ends_inner ends
    exact ⟨h.congr ⟨rfl, rfl, rfl, rfl, rfl, rfl⟩, rfl, rfl, List.prefix_refl _⟩
  | emit keeps => exact ⟨h.congr keeps, keeps.around, keeps.name, keeps.captured ▸ List.prefix_refl _⟩

theorem Kept.length_slots (h : w.Kept) : w.body.slots.length = w.body.nextLocal := by
  rw [h.slots, List.length_reverse, List.length_range]

theorem bindInnermost_of_admits (admits : w.Admits name) (cell : Cell) :
    bindInnermost name cell w.body.scopes = (w.declare name cell).body.scopes := by
  obtain ⟨s, others, scopes, free⟩ := admits
  rw [declare_keeps scopes, scopes, bindInnermost, free]
  rfl

theorem bindInnermost_of_not_admits (refused : ¬w.Admits name) (cell : Cell) :
    bindInnermost name cell w.body.scopes = w.body.scopes := by
  cases scopes : w.body.scopes with
  | nil => rfl
  | cons s others =>
    refine if_pos (Option.isSome_iff_ne_none.mpr fun free => ?_)
    exact refused ⟨s, others, scopes, free⟩

/-- The scopes after a request are told by those before it. -/
theorem Step.scopes (step : w.Step q x) (h : w.Kept) : x.body.scopes = q.after w.body.scopes := by
  cases step with
  | push ends =>
    rw [ends_pushScope ends]
    rfl
  | pop ends =>
    obtain ⟨-, rfl⟩ := ends.unique h.pops
    simp only [Workshop.leave, body_alter, Request.after]
    split
    next scopes => rw [scopes]; rfl
    next scopes => rw [scopes]; rfl
  | bindArg inside ends =>
    rcases ends_bindArg ends with ⟨admits, rfl⟩ | ⟨refused, rfl⟩
    · exact (bindInnermost_of_admits admits _).symm
    · exact (bindInnermost_of_not_admits refused _).symm
  | bindLocal inside ends =>
    rcases ends_bindLocal ends with ⟨admits, rfl⟩ | ⟨refused, rfl⟩
    · have next : (w.body.scopes.flatMap Scope.slots).length = w.body.nextLocal := h.length_slots
      rw [Request.after, next]
      exact (bindInnermost_of_admits admits _).symm
    · exact (bindInnermost_of_not_admits refused _).symm
  | resolve ends =>
    rw [ends_resolve ends]
    exact (stays_reach _).scopes
  | inner ends =>
    obtain ⟨store, rfl⟩ := ends_inner ends
    rfl
  | emit keeps => exact keeps.scopes

theorem Step.orderly (step : w.Step q x) (h : w.Orderly) : x.Orderly := by
  obtain ⟨kept, grows⟩ := step.keeps h.kept
  exact h.of_around grows.around kept

theorem Runs.single (step : w.Step q x) : w.Runs [q] x :=
  .snoc .nil step

theorem Runs.trans {u : Workshop} (first : w.Runs qs u) (later : u.Runs rs x) : w.Runs (qs ++ rs) x := by
  induction later with
  | nil => rwa [List.append_nil]
  | snoc runs step ih =>
    rw [← List.append_assoc]
    exact ih.snoc step

theorem Runs.orderly (runs : w.Runs qs x) (h : w.Orderly) : x.Orderly ∧ w.Grows x := by
  induction runs with
  | nil => exact ⟨h, .refl w⟩
  | snoc before step ih => exact ⟨step.orderly ih.1, ih.2.trans (step.keeps ih.1.kept).2⟩

theorem Runs.scopes (runs : w.Runs qs x) (h : w.Orderly) :
    x.body.scopes = qs.foldl Request.after w.body.scopes := by
  induction runs with
  | nil => rfl
  | snoc before step ih =>
    rw [List.foldl_append, ← ih]
    exact step.scopes (before.orderly h).1.kept

variable {past : List History} {own : Option String}

theorem Reached.orderly (reached : Reached past w) : w.Orderly := by
  induction reached with
  | top globals options store => exact orderly_top globals options store
  | child before name ih => exact ih.child name
  | step before step ih => exact step.orderly ih

theorem Reached.runs (reached : Reached (⟨own, qs⟩ :: past) w) (runs : w.Runs rs x) :
    Reached (⟨own, qs ++ rs⟩ :: past) x := by
  induction runs with
  | nil => rwa [List.append_nil]
  | snoc before step ih =>
    rw [← List.append_assoc]
    exact .step ih step

/-- The scopes that are open are those that the requests tell, in the body and in all those around it. -/
theorem Reached.follows (reached : Reached past w) : List.Forall₂ Follows (w.body :: w.around) past := by
  induction reached with
  | top globals options store => exact .cons ⟨rfl, rfl⟩ .nil
  | child before name ih => exact .cons ⟨rfl, rfl⟩ ih
  | @step past own qs w x q before step ih =>
    obtain ⟨⟨name, scopes⟩, others⟩ := List.forall₂_cons.mp ih
    have kept := before.orderly.kept
    obtain ⟨-, grows⟩ := step.keeps kept
    rw [grows.around]
    refine .cons ⟨grows.name.trans name, ?_⟩ others
    rw [step.scopes kept, scopes, History.scopes, History.scopes, List.foldl_append]
    rfl

/-! ### Scopes left again -/

theorem bindInnermost_cons (cell : Cell) (s : Scope) (others : List Scope) :
    ∃ t, bindInnermost name cell (s :: others) = t :: others := by
  by_cases taken : (s.cells.lookup name).isSome
  · exact ⟨_, if_pos taken⟩
  · exact ⟨_, if_neg taken⟩

theorem Request.after_cons (within : q.Within) (s : Scope) (others : List Scope) :
    ∃ t, q.after (s :: others) = t :: others := by
  cases q with
  | push kind => exact within.elim
  | pop => exact within.elim
  | bindArg name kind index => exact bindInnermost_cons _ _ _
  | bindLocal name kind => exact bindInnermost_cons _ _ _
  | resolve name => exact ⟨s, rfl⟩
  | inner => exact ⟨s, rfl⟩
  | emit => exact ⟨s, rfl⟩

theorem Matched.after_cons (matched : Matched qs) (s : Scope) (others : List Scope) :
    ∃ t, qs.foldl Request.after (s :: others) = t :: others := by
  induction matched generalizing s others with
  | nil => exact ⟨s, rfl⟩
  | cons first rest ih =>
    obtain ⟨t, bound⟩ := Request.after_cons first s others
    rw [List.foldl_cons, bound]
    exact ih t others
  | @scope kind inside rest inner others ihInner ihRest =>
    obtain ⟨t, left⟩ := ihInner { kind } (s :: others)
    simp only [List.cons_append, List.foldl_cons, List.foldl_append, Request.after]
    rw [left]
    exact ihRest s others

/-- A scope that was entered and is left has changed nothing outside. -/
theorem Matched.after_scope (matched : Matched qs) (kind : ScopeKind) (scopes : List Scope) :
    (Request.push kind :: qs ++ [Request.pop]).foldl Request.after scopes = scopes := by
  obtain ⟨t, left⟩ := matched.after_cons { kind } scopes
  simp only [List.cons_append, List.foldl_cons, List.foldl_append, Request.after, List.foldl_nil]
  rw [left, List.tail_cons]

theorem Matched.append (matched : Matched qs) (later : Matched rs) : Matched (qs ++ rs) := by
  induction matched with
  | nil => exact later
  | cons first rest ih => exact .cons first ih
  | scope inner rest ihInner ihRest =>
    rw [List.append_assoc, List.cons_append]
    exact .scope inner ihRest

/-- When a scope is left the scopes are as they were before it was entered, and its slots are free again. -/
theorem Runs.restores {kind : ScopeKind} (runs : w.Runs (.push kind :: qs ++ [.pop]) x) (matched : Matched qs)
    (h : w.Orderly) : x.body.scopes = w.body.scopes ∧ x.body.nextLocal = w.body.nextLocal := by
  have scopes : x.body.scopes = w.body.scopes := by rw [runs.scopes h, matched.after_scope]
  have slots : x.body.slots = w.body.slots := by rw [Body.slots, scopes, Body.slots]
  have later := (runs.orderly h).1.kept
  exact ⟨scopes, by rw [← later.length_slots, slots, h.kept.length_slots]⟩

end Workshop

/-! ### Names -/

section

variable {α : Type} {l : List (String × α)} {name : String} {i : Nat} {a : α}

theorem place_iff (distinct : (l.map Prod.fst).Nodup) :
    l[i]? = some (name, a) ↔ l.findIdx? (·.1 = name) = some i ∧ l.lookup name = some a := by
  induction l generalizing i with
  | nil => simp
  | cons entry l ih =>
    obtain ⟨other, b⟩ := entry
    obtain ⟨absent, distinct⟩ := List.nodup_cons.mp distinct
    rw [List.findIdx?_cons, List.lookup_cons]
    by_cases same : other = name
    · subst same
      cases i with
      | zero => simp
      | succ i =>
        have none : l[i]? ≠ some (other, a) := fun here =>
          absent (List.mem_map.mpr ⟨_, List.mem_of_getElem? here, rfl⟩)
        simp [none]
    · have differ : (name == other) = false := beq_eq_false_iff_ne.mpr (Ne.symm same)
      cases i with
      | zero => simp [same]
      | succ i => simp [same, differ, ih distinct]

end

/-- Looking for a name in a body finds what there is for it. -/
theorem Body.lexical?_iff {b : Body} (distinct : (b.captured.map Prod.fst).Nodup) {name : String} {cell : Cell} :
    b.lexical? name = some cell ↔ b.Finds name cell := by
  constructor
  · intro found
    unfold Body.lexical? at found
    split at found
    next here =>
      cases found
      exact .scope here
    next unscoped =>
      split at found
      next i kind place there =>
        cases found
        exact .captured unscoped ((place_iff distinct).mpr ⟨place, there⟩)
      next missing =>
        split at found
        next own =>
          cases found
          refine .own unscoped (fun member => ?_) own
          obtain ⟨⟨x, kind⟩, entry, rfl⟩ := List.mem_map.mp member
          obtain ⟨i, here⟩ := List.mem_iff_getElem?.mp entry
          obtain ⟨place, there⟩ := (place_iff distinct).mp here
          exact missing i kind place there
        · cases found
  · intro finds
    unfold Body.lexical?
    cases finds with
    | scope here =>
      unfold Body.scoped? at here
      rw [here]
    | captured unscoped here =>
      obtain ⟨place, there⟩ := (place_iff distinct).mp here
      unfold Body.scoped? at unscoped
      rw [unscoped, place, there]
    | own unscoped free own =>
      have missing : b.captured.lookup name = none := by
        rw [List.lookup_eq_none_iff]
        intro entry member
        refine bne_iff_ne.mpr fun same => free ?_
        exact List.mem_map.mpr ⟨entry, member, same.symm⟩
      unfold Body.scoped? at unscoped
      rw [unscoped, missing]
      simp [own]

theorem Body.lexical?_eq_none_iff {b : Body} (distinct : (b.captured.map Prod.fst).Nodup) {name : String} :
    b.lexical? name = none ↔ ∀ cell, ¬b.Finds name cell := by
  rw [Option.eq_none_iff_forall_ne_some]
  exact forall_congr' fun cell => not_congr (lexical?_iff distinct)

section

variable {name : String} {b : Body} {around : List Body} {cell : Cell}

theorem binding_of_scoped {own : Cell} (here : b.scoped? name = some own) :
    Binding name (b :: around) cell ↔ cell = own := by
  constructor
  · intro bound
    cases bound with
    | scope also => exact Option.some.inj (also.symm.trans here)
    | own unscoped => cases unscoped.symm.trans here
    | around unscoped => cases unscoped.symm.trans here
  · rintro rfl
    exact .scope here

theorem binding_of_named (unscoped : b.scoped? name = none) (named : b.name = some name) :
    Binding name (b :: around) cell ↔ cell = ⟨.value, .current, 0⟩ := by
  constructor
  · intro bound
    cases bound with
    | scope here => cases here.symm.trans unscoped
    | own => rfl
    | around _ unnamed => exact absurd named unnamed
  · rintro rfl
    exact .own unscoped named

theorem binding_of_free (unscoped : b.scoped? name = none) (unnamed : b.name ≠ some name) :
    Binding name (b :: around) cell ↔ Binding name around cell := by
  constructor
  · intro bound
    cases bound with
    | scope here => cases here.symm.trans unscoped
    | own _ named => exact absurd named unnamed
    | around _ _ beyond => exact beyond
  · exact .around unscoped unnamed

end

theorem Body.capturedKind_seen {around : List Body} {name : String} {kind : CellKind}
    (seen : visible? around name = some kind) {i : Nat} : Cell.capturedKind ⟨kind, .captured, i⟩ = kind := by
  cases kind with
  | rest => exact absurd seen (visible?_ne_rest _ _)
  | value => rfl
  | reference => rfl

namespace Workshop

variable {w x : Workshop} {name : String}

/-- What can be seen from inside bodies is what the nearest of them binds: a capture on the way has the kind of
what it captures. -/
theorem visible?_iff {bodies : List Body} (sound : ∀ v : Workshop, v.body :: v.around <:+ bodies → v.Sound)
    {kind : CellKind} :
    Body.visible? bodies name = some kind ↔ ∃ cell, Binding name bodies cell ∧ cell.capturedKind = kind := by
  induction bodies with
  | nil =>
    constructor
    · exact nofun
    · rintro ⟨cell, ⟨⟩, -⟩
  | cons b around ih =>
    have ih := ih fun v inside => sound v (inside.trans (List.suffix_cons _ _))
    have here : Sound ⟨⟨0, {}, b, around⟩, {}⟩ := sound ⟨⟨0, {}, b, around⟩, {}⟩ (List.suffix_refl _)
    have finds {cell : Cell} : b.lexical? name = some cell ↔ b.Finds name cell := Body.lexical?_iff here.distinct
    unfold Body.visible?
    cases bound : b.scoped? name with
    | some own => simp [finds.mpr (.scope bound), binding_of_scoped bound]
    | none =>
      by_cases named : b.name = some name
      · have free : name ∉ b.captured.map Prod.fst := fun member => by
          obtain ⟨entry, inside, rfl⟩ := List.mem_map.mp member
          exact here.unnamed entry inside named
        simp [finds.mpr (.own bound free named), binding_of_named bound named]
      · simp only [binding_of_free bound named]
        cases found : b.lexical? name with
        | none => exact ih
        | some cell =>
          cases finds.mp found with
          | scope also => cases also.symm.trans bound
          | own _ _ own => exact absurd own named
          | @captured i other _ place =>
            have seen : Body.visible? around name = some other :=
              here.visible _ (List.mem_of_getElem? place)
            rw [← ih, seen]
            dsimp only
            rw [Body.capturedKind_seen seen]

theorem visible?_eq_none_iff {bodies : List Body} (sound : ∀ v : Workshop, v.body :: v.around <:+ bodies → v.Sound) :
    Body.visible? bodies name = none ↔ ∀ cell, ¬Binding name bodies cell := by
  rw [Option.eq_none_iff_forall_ne_some]
  constructor
  · intro unseen cell bound
    exact unseen _ ((visible?_iff sound).mpr ⟨cell, bound, rfl⟩)
  · intro unbound kind seen
    obtain ⟨cell, bound, -⟩ := (visible?_iff sound).mp seen
    exact unbound cell bound

theorem Orderly.around_sound (h : w.Orderly) : ∀ v : Workshop, v.body :: v.around <:+ w.around → v.Sound :=
  fun v inside => (h v (inside.trans (List.suffix_cons _ _))).toSound

/-- A name is resolved as it should be, and in no other way. -/
theorem Orderly.resolve_iff (h : w.Orderly) {cell : Option Cell} :
    Yields (Encode.resolve name) w cell x ↔ w.Resolves name cell x := by
  have finds {cell : Cell} : w.body.lexical? name = some cell ↔ w.body.Finds name cell :=
    Body.lexical?_iff h.kept.distinct
  have absent : w.body.lexical? name = none ↔ ∀ cell, ¬w.body.Finds name cell :=
    Body.lexical?_eq_none_iff h.kept.distinct
  rw [Encode.resolve_iff]
  constructor
  · rintro ⟨rfl, rfl⟩
    unfold cell? reach
    cases found : w.body.lexical? name with
    | some own => exact .found (finds.mp found)
    | none =>
      cases seen : Body.visible? w.around name with
      | none => exact .global (absent.mp found) ((visible?_eq_none_iff h.around_sound).mp seen)
      | some kind =>
        obtain ⟨cell, bound, rfl⟩ := (visible?_iff h.around_sound).mp seen
        exact .captures (absent.mp found) bound
  · intro resolves
    unfold cell? reach
    cases resolves with
    | found here =>
      rw [finds.mpr here]
      exact ⟨rfl, rfl⟩
    | captures missing bound =>
      rw [absent.mpr missing, (visible?_iff h.around_sound).mpr ⟨_, bound, rfl⟩]
      exact ⟨rfl, rfl⟩
    | global missing unbound =>
      rw [absent.mpr missing, (visible?_eq_none_iff h.around_sound).mpr unbound]
      exact ⟨rfl, rfl⟩

end Workshop

end StackLisp
