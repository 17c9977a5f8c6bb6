import Mathlib.Data.List.Forall2
import Mathlib.Data.List.Nodup
import StackLisp.Proofs.Emission

/-!
The compiler at work: whenever it accepts a form, the code it adds is that of an expression, and the
form reads as that expression.
-/

namespace StackLisp

/-- The kind of a name that is bound in the body itself. -/
def Body.own? (b : Body) (x : String) : Option CellKind :=
  match b.scopes.findSome? fun s => s.cells.lookup x with
  | some cell => some cell.capturedKind
  | none => if b.name = some x then some .value else none

/-- The sight of a form that is compiled now. -/
def Workshop.sight (w : Workshop) (captures : List (String × CellKind)) : Sight :=
  ⟨w.body.own?, Body.visible? w.around, captures⟩

/-- The sight of a form that nothing stands around. -/
def Sight.top : Sight :=
  ⟨fun _ => none, fun _ => none, []⟩

/-- The globals bound in the namespace of the workshop. -/
def Workshop.Knows (w : Workshop) (known : String → Option Value) : Prop :=
  ∀ x, w.store.namespaces.resolve? w.encoder.globals x = known x

theorem Cell.capturedKind_of_ne {c : Cell} (h : c.kind ≠ .reference) : c.capturedKind = .value := by
  unfold Cell.capturedKind
  split
  next same => exact absurd same h
  · rfl
  · rfl

theorem Cell.capturedKind_of_eq {c : Cell} (h : c.kind = .reference) : c.capturedKind = .reference := by
  unfold Cell.capturedKind
  rw [h]

theorem Cell.capturedKind_ne_rest (c : Cell) : c.capturedKind ≠ .rest := by
  unfold Cell.capturedKind
  split <;> simp

theorem Body.visible?_ne_rest (around : List Body) (x : String) : visible? around x ≠ some .rest := by
  induction around with
  | nil => simp [visible?]
  | cons b around ih =>
    unfold visible?
    split
    next cell _ => simpa using cell.capturedKind_ne_rest
    · exact ih

namespace Workshop

variable {w x : Workshop} {known : String → Option Value}

theorem Stays.sight (h : w.Stays x) (captures : List (String × CellKind)) :
    x.sight captures = w.sight captures := by
  unfold Workshop.sight Body.own?
  rw [h.scopes, h.name, h.around]

theorem Knows.extend (knows : w.Knows known) (h : w.Extends x) : x.Knows known := by
  intro name
  rw [h.namespaces, h.globals]
  exact knows name

/-- What the body binds itself, has captured, or goes by, or else what is bound around. -/
theorem lexical?_cases (sound : w.Sound) (name : String) (captures : List (String × CellKind)) :
    (∃ cell, w.body.lexical? name = some cell ∧
      ((w.sight captures).here name = some cell.capturedKind ∨
        (w.sight captures).here name = none ∧ Body.visible? w.around name = some cell.kind ∧
          (name, cell.kind) ∈ w.body.captured)) ∨
      w.body.lexical? name = none ∧ (w.sight captures).here name = none := by
  unfold Body.lexical?
  cases bound : w.body.scopes.findSome? fun s => s.cells.lookup name with
  | some cell =>
    refine .inl ⟨cell, rfl, .inl ?_⟩
    simp [Workshop.sight, Body.own?, bound]
  | none =>
    cases found : w.body.captured.findIdx? (·.1 = name) with
    | some i =>
      cases looked : w.body.captured.lookup name with
      | some kind =>
        have entry : (name, kind) ∈ w.body.captured := by
          obtain ⟨before, after, split, -⟩ := List.lookup_eq_some_iff.mp looked
          rw [split]
          exact List.mem_append_right _ (List.mem_cons_self ..)
        refine .inl ⟨_, rfl, .inr ⟨?_, sound.visible _ entry, entry⟩⟩
        simp [Workshop.sight, Body.own?, bound, sound.unnamed _ entry]
      | none =>
        by_cases named : w.body.name = some name
        · refine .inl ⟨⟨.value, .current, 0⟩, by simp [named], .inl ?_⟩
          simp [Workshop.sight, Body.own?, bound, named, Cell.capturedKind]
        · refine .inr ⟨by simp [named], ?_⟩
          simp [Workshop.sight, Body.own?, bound, named]
    | none =>
      by_cases named : w.body.name = some name
      · refine .inl ⟨⟨.value, .current, 0⟩, by simp [named], .inl ?_⟩
        simp [Workshop.sight, Body.own?, bound, named, Cell.capturedKind]
      · refine .inr ⟨by simp [named], ?_⟩
        simp [Workshop.sight, Body.own?, bound, named]

theorem visible?_eq (sound : w.Sound) (name : String) (captures : List (String × CellKind)) :
    Body.visible? (w.body :: w.around) name = (w.sight captures).kind? name := by
  unfold Body.visible? Sight.kind?
  rcases lexical?_cases sound name captures with ⟨cell, found, own | ⟨free, seen, -⟩⟩ | ⟨none, free⟩
  · rw [found, own]
    rfl
  · have kind : cell.capturedKind = cell.kind := by
      cases reference : cell.kind with
      | rest => exact absurd (reference ▸ seen) (Body.visible?_ne_rest _ _)
      | value => exact Cell.capturedKind_of_ne (by simp [reference])
      | reference => exact Cell.capturedKind_of_eq reference
    rw [found, free, Option.none_or]
    dsimp only
    rw [kind]
    exact seen.symm
  · rw [none, free, Option.none_or]
    rfl

/-- A name with a cell can be seen, once it is captured if need be. -/
theorem cell?_sees (sound : w.Sound) {name : String} {cell : Cell} (h : w.cell? name = some cell)
    {captures : List (String × CellKind)} (captured : (w.reach name).body.captured ⊆ captures) :
    (w.sight captures).Sees name cell.capturedKind := by
  rcases lexical?_cases sound name captures with ⟨own, found, seen⟩ | ⟨none, free⟩
  · have same : own = cell := by simpa [cell?, found] using h
    have stays : w.reach name = w := by simp [reach, found]
    rw [stays] at captured
    subst same
    rcases seen with bound | ⟨free, seen, entry⟩
    · exact .inl bound
    · have kind : own.capturedKind = own.kind := by
        have all := visible?_eq sound name captures
        have here : w.body.own? name = none := free
        simpa [Body.visible?, found, Sight.kind?, Workshop.sight, here, seen] using all
      rw [kind]
      exact .inr ⟨free, seen, captured entry⟩
  · rw [cell?, none] at h
    obtain ⟨kind, seen, rfl⟩ := Option.map_eq_some_iff.mp h
    have kept : Cell.capturedKind ⟨kind, .captured, w.body.captured.length⟩ = kind := by
      cases kind with
      | rest => exact absurd seen (Body.visible?_ne_rest _ _)
      | value => rfl
      | reference => rfl
    have added : (name, kind) ∈ (w.reach name).body.captured := by
      simp [reach, none, seen]
    rw [kept]
    exact .inr ⟨free, seen, captured added⟩

theorem cell?_eq_none_iff (sound : w.Sound) {name : String} (captures : List (String × CellKind)) :
    w.cell? name = none ↔ (w.sight captures).kind? name = none := by
  rw [← visible?_eq sound]
  unfold cell?
  rw [Body.visible?]
  cases w.body.lexical? name with
  | some cell => simp
  | none => simp

theorem sight_bindLocal {name : String} (admits : w.Admits name) {kind : CellKind}
    (lasting : kind ≠ .rest) (captures : List (String × CellKind)) :
    (w.bindLocal name kind).sight captures = (w.sight captures).bind name kind := by
  obtain ⟨s, others, scopes, -⟩ := admits
  have same : (w.nextCell kind).capturedKind = kind := by
    cases kind with
    | rest => exact absurd rfl lasting
    | value => rfl
    | reference => rfl
  have here : (w.bindLocal name kind).body.own? =
      fun y => if y = name then some kind else w.body.own? y := by
    funext y
    by_cases own : y = name
    · simp [Body.own?, bindLocal, slot, declare, scopes, own, same]
    · have other : (y == name) = false := by simp [own]
      simp [Body.own?, bindLocal, slot, declare, scopes, own, List.findSome?_cons, List.lookup_cons, other]
  unfold Workshop.sight Sight.bind
  rw [here]
  rfl

end Workshop

/-- The code added is that of an expression that the source reads as. -/
def Elaborated (known : String → Option Value) (w : Workshop) (src : Source) (x : Workshop) : Prop :=
  ∃ e, Emits w (.one e) x ∧
    ∀ captures, x.body.captured ⊆ captures → Reads known (w.sight captures) src (.one e)

/-- Whenever the action succeeds, it has added the code for the source. -/
def Elaborates (known : String → Option Value) (act : Encode Unit) (src : Source) : Prop :=
  ∀ {w x : Workshop}, w.Sound → w.Knows known → Yields act w () x → Elaborated known w src x

namespace Value

theorem nesting_le_of_mem {v : Value} {vs : List Value} (h : v ∈ vs) : v.nesting ≤ nestingOfAll vs := by
  induction vs with
  | nil => cases h
  | cons u vs ih =>
    rw [nestingOfAll]
    rcases List.mem_cons.mp h with rfl | later
    · exact Nat.le_max_left ..
    · exact Nat.le_trans (ih later) (Nat.le_max_right ..)

theorem nesting_lt_of_mem_spine {v item : Value} (h : item ∈ v.spine.1) : item.nesting < v.nesting := by
  induction v using spine.induct with
  | case1 car cdr ih =>
    rw [nesting]
    rcases List.mem_cons.mp h with rfl | later
    · exact Nat.lt_succ_of_le (Nat.le_max_left ..)
    · exact Nat.lt_succ_of_le (Nat.le_trans (Nat.le_of_lt (ih later)) (Nat.le_max_right ..))
  | case2 v other =>
    unfold spine at h
    split at h
    · exact absurd rfl (other _ _)
    · cases h

theorem eq_ofList_of_spine {v : Value} {items : List Value} (ended : v.spine = (items, .null)) :
    v = ofList items := by
  have whole := ofListOnto_spine v
  rw [ended] at whole
  exact whole.symm

theorem eq_of_items? {v : Value} {items : List Value} (h : v.items? = .ok items) :
    v = .vector items ∨ v = ofList items := by
  unfold items? at h
  split at h
  case h_1 =>
    obtain rfl := Except.ok.inj h
    exact .inl rfl
  case h_2 | h_3 =>
    split at h
    next ended =>
      obtain rfl := Except.ok.inj h
      exact .inr (eq_ofList_of_spine ended)
    · cases h
  case h_4 => cases h

theorem nesting_lt_of_item {v item : Value} {items : List Value} (h : v.items? = .ok items)
    (member : item ∈ items) : item.nesting < v.nesting := by
  rcases eq_of_items? h with rfl | rfl
  · rw [nesting]
    exact Nat.lt_succ_of_le (nesting_le_of_mem member)
  · exact nesting_lt_of_mem_spine (by rw [spine_ofList]; exact member)

end Value

namespace Compile

open Encode Workshop

variable {known : String → Option Value} {f : FormCompiler} {n : Nat}

theorem literal_elaborates {v : Value} (h : v.isConstant = true) :
    Elaborates known (literal v) (.form v) :=
  fun _ _ yields => ⟨.literal v, .literal yields, fun _ _ => .self h⟩

theorem symbol_elaborates (name : String) :
    Elaborates known (symbol name) (.form (.symbol name)) := by
  intro w x sound knows yields
  unfold symbol at yields
  obtain ⟨cell, u, resolved, pushing⟩ := Yields.bind_iff.mp yields
  obtain ⟨found, rfl⟩ := resolve_iff.mp resolved
  cases cell with
  | some cell =>
    obtain ⟨i, loads, rfl⟩ := load_yields pushing
    split
    next reference =>
      refine ⟨.through name, .through found.symm reference loads, fun captures captured => ?_⟩
      have sees := cell?_sees sound found.symm captured
      exact .through (Cell.capturedKind_of_eq reference ▸ sees)
    next plain =>
      refine ⟨.name name, .name found.symm plain loads, fun captures captured => ?_⟩
      have sees := cell?_sees sound found.symm captured
      exact .name (Cell.capturedKind_of_ne plain ▸ sees)
  | none =>
    have free : ∀ captures, (w.sight captures).kind? name = none := fun captures =>
      (cell?_eq_none_iff sound captures).mp found.symm
    rw [reach_of_none found.symm] at pushing
    obtain ⟨v, u, looked, following⟩ := Yields.bind_iff.mp pushing
    obtain ⟨value, rfl⟩ := global?_iff.mp looked
    rw [knows name] at value
    cases v with
    | some v =>
      obtain ⟨h, rfl⟩ := emitConst_iff.mp following
      exact ⟨.literal v, .const h, fun captures _ => .bound (free captures) value.symm⟩
    | none =>
      obtain ⟨_, v, pooled, resolving⟩ := Yields.bind_iff.mp following
      obtain ⟨h, rfl⟩ := emitConst_iff.mp pooled
      obtain rfl := emit_iff.mp resolving
      exact ⟨.later name, .later h, fun captures _ => .later (free captures) value.symm⟩

section

variable (forms : ∀ v, v.nesting ≤ n → Elaborates known (f v) (.form v))

include forms

theorem block_elaborates {vs : List Value} (nested : ∀ v ∈ vs, v.nesting ≤ n) :
    Elaborates known (block f vs) (.block vs) := by
  induction vs with
  | nil =>
    intro w x _ _ yields
    exact ⟨.literal .null, .literal yields, fun _ _ => .blockNil⟩
  | cons v vs ih =>
    intro w x sound knows yields
    cases vs with
    | nil =>
      obtain ⟨e, emits, reads⟩ := forms v (nested v (by simp)) sound knows yields
      exact ⟨e, emits, fun captures captured => .blockLast (reads captures captured)⟩
    | cons next vs =>
      obtain ⟨_, u, first, popping⟩ := Yields.bind_iff.mp yields
      obtain ⟨_, y, popped, rest⟩ := Yields.bind_iff.mp popping
      obtain rfl := emit_iff.mp popped
      obtain ⟨e, emits, reads⟩ := forms v (nested v (by simp)) sound knows first
      have stays : w.Stays (u.emit Opcode.pop.bare) := (Emits.leaves emits).trans (stays_emit _)
      obtain ⟨others, emits', reads'⟩ := ih (fun v member => nested v (List.mem_cons_of_mem _ member))
        (stays.sound sound) (knows.extend stays.toExtends) rest
      refine ⟨.seq e others, .seq emits emits', fun captures captured => .blockCons (reads captures ?_) ?_⟩
      · exact fun entry member => captured ((Emits.leaves emits').captured.subset member)
      · rw [← stays.sight captures]
        exact reads' captures captured

theorem arguments_elaborate {vs : List Value} (nested : ∀ v ∈ vs, v.nesting ≤ n) {w x : Workshop}
    (sound : w.Sound) (knows : w.Knows known) (yields : Yields (arguments f vs) w () x) :
    ∃ es, es.length = vs.length ∧ Emits w (.many es) x ∧
      ∀ captures, x.body.captured ⊆ captures → Reads known (w.sight captures) (.each vs) (.many es) := by
  induction vs generalizing x with
  | nil =>
    obtain rfl := Yields.forM_nil_iff.mp yields
    exact ⟨[], rfl, .none, fun _ _ => .eachNil⟩
  | cons v vs ih =>
    unfold arguments at yields
    rw [List.reverse_cons, Yields.forM_concat_iff] at yields
    obtain ⟨u, others, first⟩ := yields
    obtain ⟨es, length, emits, reads⟩ :=
      ih (fun v member => nested v (List.mem_cons_of_mem _ member)) others
    have stays : w.Stays u := Emits.leaves emits
    obtain ⟨e, emits', reads'⟩ := forms v (nested v (by simp)) (stays.sound sound)
      (knows.extend stays.toExtends) first
    refine ⟨e :: es, by simp [length], .more emits emits', fun captures captured => .eachCons ?_ ?_⟩
    · rw [← stays.sight captures]
      exact reads' captures captured
    · exact reads captures fun entry member => captured ((Emits.leaves emits').captured.subset member)

theorem bindings_elaborate {pairs : List (String × Value)} {body : List Value}
    (nested : ∀ pair ∈ pairs, pair.2.nesting ≤ n) (nestedBody : ∀ v ∈ body, v.nesting ≤ n)
    {w u x : Workshop} (sound : w.Sound) (knows : w.Knows known)
    (binding : Yields (pairs.forM fun (name, v) => do
      f v
      let cell ← bindLocal name .value
      emitWith .store cell.index) w () u)
    (running : Yields (block f body) u () x) :
    ∃ e, Emits w (.opened e) x ∧ ∀ captures, x.body.captured ⊆ captures →
      Reads known (w.sight captures) (.bindings pairs body) (.one e) := by
  induction pairs generalizing w with
  | nil =>
    obtain rfl := Yields.forM_nil_iff.mp binding
    obtain ⟨e, emits, reads⟩ := block_elaborates forms nestedBody sound knows running
    exact ⟨e, .last emits, fun captures captured => .bindingsNil (reads captures captured)⟩
  | cons pair pairs ih =>
    obtain ⟨name, v⟩ := pair
    obtain ⟨y, first, rest⟩ := Yields.forM_cons_iff.mp binding
    obtain ⟨_, z, valued, storing⟩ := Yields.bind_iff.mp first
    obtain ⟨cell, z', bound, stored⟩ := Yields.bind_iff.mp storing
    obtain ⟨admits, rfl, rfl⟩ := bindLocal_iff.mp bound
    obtain ⟨h, rfl⟩ := emitWith_iff.mp stored
    obtain ⟨value, emits, reads⟩ := forms v (nested (name, v) (by simp)) sound knows valued
    have opens : w.Opens ((z.bindLocal name .value).emit ⟨.store, _, h⟩) :=
      ((Emits.leaves emits).opens.trans opens_bindLocal).trans (stays_emit _).opens
    obtain ⟨others, emits', reads'⟩ := ih (fun pair member => nested pair (List.mem_cons_of_mem _ member))
      (opens.sound sound) (knows.extend opens.toExtends) rest
    refine ⟨.bind name value others, .bind emits admits h emits',
      fun captures captured => .bindingsCons (reads captures fun entry member => captured ?_) ?_⟩
    · have later := (opens_bindLocal.trans (stays_emit _).opens).trans (Emits.leaves emits')
      exact later.captured.subset member
    · rw [← (Emits.leaves emits).sight captures, ← sight_bindLocal admits (by simp)]
      exact reads' captures captured

theorem fills_elaborate {pairs : List (String × Value)} {cells : List Cell} {body : List Value}
    {scopes : List Scope} (nested : ∀ pair ∈ pairs, pair.2.nesting ≤ n)
    (nestedBody : ∀ v ∈ body, v.nesting ≤ n)
    (found : List.Forall₂ (fun (pair : String × Value) cell =>
      scopes.findSome? (fun s => s.cells.lookup pair.1) = some cell ∧ cell.kind = .reference) pairs cells)
    {w u x : Workshop} (sound : w.Sound) (knows : w.Knows known) (same : w.body.scopes = scopes)
    (filling : Yields ((pairs.zip cells).forM fun ((_, v), cell) => do
      f v
      loadRaw cell
      emit .bindRef) w () u)
    (running : Yields (block f body) u () x) :
    ∃ e, Emits w (.opened e) x ∧ ∀ captures, x.body.captured ⊆ captures →
      Reads known (w.sight captures) (.knot [] pairs body) (.one e) := by
  induction found generalizing w with
  | nil =>
    obtain rfl := Yields.forM_nil_iff.mp filling
    obtain ⟨e, emits, reads⟩ := block_elaborates forms nestedBody sound knows running
    exact ⟨e, .last emits, fun captures captured => .knotNil (reads captures captured)⟩
  | @cons pair cell pairs cells here found ih =>
    obtain ⟨name, v⟩ := pair
    obtain ⟨y, first, rest⟩ := Yields.forM_cons_iff.mp filling
    obtain ⟨_, z, valued, binding⟩ := Yields.bind_iff.mp first
    obtain ⟨_, z', loading, bound⟩ := Yields.bind_iff.mp binding
    obtain ⟨i, loads, rfl⟩ := loadRaw_yields loading
    obtain rfl := emit_iff.mp bound
    obtain ⟨value, emits, reads⟩ := forms v (nested (name, v) (by simp)) sound knows valued
    have stays : w.Stays z := Emits.leaves emits
    have filled : z.Stays ((z.emit i).emit Opcode.bindRef.bare) := (stays_emit _).trans (stays_emit _)
    have lexical : z.body.lexical? name = some cell := by
      unfold Body.lexical?
      rw [stays.scopes, same, here.1]
    obtain ⟨others, emits', reads'⟩ :=
      ih (fun pair member => nested pair (List.mem_cons_of_mem _ member))
        ((stays.trans filled).sound sound) (knows.extend (stays.trans filled).toExtends)
        ((stays.trans filled).scopes.trans same) rest
    refine ⟨.fill name value others, .fill emits lexical here.2 loads emits',
      fun captures captured => .knotFill (reads captures fun entry member => captured ?_) ?_⟩
    · exact (filled.opens.trans (Emits.leaves emits')).captured.subset member
    · rw [← (stays.trans filled).sight captures]
      exact reads' captures captured

omit forms in
/-- The names of a knot are bound one after another, each in a slot of its own; what follows sees them
all. -/
theorem fresh_elaborate {pairs : List (String × Value)} {cells : List Cell} {w u : Workshop}
    (sound : w.Sound) (knows : w.Knows known) {s : Scope} {others : List Scope}
    (scopes : w.body.scopes = s :: others)
    (binding : Yields (pairs.mapM fun (name, _) => do
      let cell ← bindLocal name .reference
      emit .newRef
      emitWith .store cell.index
      pure cell) w cells u) :
    w.Opens u ∧
    (∃ t, u.body.scopes = t :: others ∧
      (∀ name cell, s.cells.lookup name = some cell → t.cells.lookup name = some cell) ∧
      List.Forall₂ (fun (pair : String × Value) cell =>
        t.cells.lookup pair.1 = some cell ∧ cell.kind = .reference) pairs cells) ∧
    ∀ {x : Workshop} {e : Expr}, Emits u (.opened e) x → ∃ e', Emits w (.opened e') x ∧
      ∀ {captures : List (String × CellKind)} {all : List (String × Value)} {body : List Value},
        Reads known (u.sight captures) (.knot [] all body) (.one e) →
        Reads known (w.sight captures) (.knot (pairs.map Prod.fst) all body) (.one e') := by
  induction pairs generalizing w cells s with
  | nil =>
    obtain ⟨rfl, rfl⟩ := Yields.mapM_nil_iff.mp binding
    exact ⟨(Stays.refl u).opens, ⟨s, scopes, fun _ _ => id, .nil⟩, fun emits => ⟨_, emits, id⟩⟩
  | cons pair pairs ih =>
    obtain ⟨name, v⟩ := pair
    obtain ⟨cell, cells, y, first, rest, rfl⟩ := Yields.mapM_cons_iff.mp binding
    obtain ⟨own, z, bound, storing⟩ := Yields.bind_iff.mp first
    obtain ⟨_, z', made, stored⟩ := Yields.bind_iff.mp storing
    obtain ⟨_, z'', kept, ending⟩ := Yields.bind_iff.mp stored
    obtain ⟨admits, rfl, rfl⟩ := bindLocal_iff.mp bound
    obtain rfl := emit_iff.mp made
    obtain ⟨h, rfl⟩ := emitWith_iff.mp kept
    obtain ⟨rfl, rfl⟩ := Yields.pure_iff.mp ending
    have stays : (w.bindLocal name .reference).Stays
        (((w.bindLocal name .reference).emit Opcode.newRef.bare).emit ⟨.store, _, h⟩) :=
      (stays_emit _).trans (stays_emit _)
    have opens := opens_bindLocal.trans stays.opens
    have gained : (((w.bindLocal name .reference).emit Opcode.newRef.bare).emit
        ⟨.store, _, h⟩).body.scopes = ⟨s.kind, (name, w.nextCell .reference) :: s.cells⟩ :: others := by
      rw [stays.scopes]
      simp [Workshop.bindLocal, Workshop.slot, Workshop.declare, scopes]
    obtain ⟨opens', ⟨t, scopes', older, found⟩, continues⟩ :=
      ih (opens.sound sound) (knows.extend opens.toExtends) gained rest
    refine ⟨opens.trans opens', ⟨t, scopes', fun other cell looked => older other cell ?_,
      .cons ⟨older _ _ ?_, rfl⟩ found⟩, fun emits => ?_⟩
    · obtain ⟨s', others', same, free⟩ := admits
      obtain ⟨rfl, -⟩ := List.cons.inj (scopes.symm.trans same)
      have distinct : (other == name) = false := by
        rw [beq_eq_false_iff_ne]
        rintro rfl
        cases free.symm.trans looked
      rw [List.lookup_cons, distinct]
      exact looked
    · simp
    · obtain ⟨e, emits', reads⟩ := continues emits
      refine ⟨.fresh name e, .fresh admits h emits', fun known => .knotFresh ?_⟩
      rw [← sight_bindLocal admits (by simp), ← stays.sight]
      exact reads known

omit forms in
theorem pairUp_nested {form : String} {items : List Value} {pairs : List (String × Value)}
    (h : pairUp form items = .ok pairs) : ∀ pair ∈ pairs, pair.2 ∈ items := by
  fun_induction pairUp form items generalizing pairs with
  | case1 name v rest ih =>
    obtain ⟨others, more, same⟩ := bind_eq_ok.mp h
    obtain rfl := Except.ok.inj same
    intro pair member
    rcases List.mem_cons.mp member with rfl | later
    · simp
    · exact List.mem_cons_of_mem _ (List.mem_cons_of_mem _ (ih more pair later))
  | case2 => cases h
  | case3 =>
    obtain rfl := Except.ok.inj h
    intro pair member
    cases member

omit forms in
theorem bindingPairs_nested {form : String} {args : List Value} {pairs : List (String × Value)}
    (h : bindingPairs form args = .ok pairs) (nested : ∀ v ∈ args, v.nesting ≤ n) :
    ∀ pair ∈ pairs, pair.2.nesting ≤ n := by
  unfold bindingPairs at h
  split at h
  · cases h
  next bindings rest =>
    obtain ⟨items, listed, paired⟩ := bind_eq_ok.mp h
    split at paired
    · intro pair member
      have item := pairUp_nested paired pair member
      have shallow := Value.nesting_lt_of_item (mapError_eq_ok.mp listed) item
      exact Nat.le_trans (Nat.le_of_lt shallow) (nested bindings (by simp))
    · cases paired

omit forms in
theorem parse_nested {args : List Value} {cs : Clauses} (h : Clauses.parse args = .ok cs)
    (nested : ∀ v ∈ args, v.nesting ≤ n) : ∀ c ∈ cs, ∀ v ∈ c.body, v.nesting ≤ n := by
  have pushes : ∀ {cs ds : Clauses} {c : Clause}, cs.push c = .ok ds → ds = cs ++ [c] := by
    intro cs ds c h
    unfold Clauses.push at h
    split at h
    next pushed =>
      obtain rfl := Except.ok.inj h
      unfold Clauses.push? at pushed
      split at pushed
      · cases pushed
      · exact (Option.some.inj pushed).symm
    · cases h
  have parses : ∀ {params : Value} {body : List Value} {c : Clause},
      Clause.parse params body = .ok c → c.body = body := by
    intro params body c h
    obtain ⟨⟨names, rest⟩, -, same⟩ := bind_eq_ok.mp h
    obtain rfl := Except.ok.inj same
    rfl
  unfold Clauses.parse at h
  split at h
  · cases h
  next first rest =>
    split at h
    · suffices ∀ (forms : List Value) (before : Clauses), (∀ v ∈ forms, v.nesting ≤ n) →
          (∀ c ∈ before, ∀ v ∈ c.body, v.nesting ≤ n) →
          forms.foldlM Clauses.pushForm before = .ok cs → ∀ c ∈ cs, ∀ v ∈ c.body, v.nesting ≤ n from
        this _ [] nested (by simp) h
      intro forms
      induction forms with
      | nil =>
        intro before _ old done
        obtain rfl := Except.ok.inj done
        exact old
      | cons form forms ih =>
        intro before nested old folded
        rw [List.foldlM_cons] at folded
        obtain ⟨after, added, further⟩ := bind_eq_ok.mp folded
        refine ih after (fun v member => nested v (List.mem_cons_of_mem _ member)) ?_ further
        obtain ⟨items, listed, taken⟩ := bind_eq_ok.mp added
        split at taken
        · cases taken
        next params body =>
          obtain ⟨c, parsed, pushed⟩ := bind_eq_ok.mp taken
          obtain rfl := pushes pushed
          intro d member v inside
          rcases List.mem_append.mp member with earlier | last
          · exact old d earlier v inside
          · obtain rfl := List.mem_singleton.mp last
            rw [parses parsed] at inside
            have shallow := Value.nesting_lt_of_item (mapError_eq_ok.mp listed)
              (List.mem_cons_of_mem _ inside)
            exact Nat.le_trans (Nat.le_of_lt shallow) (nested form (by simp))
    · obtain ⟨c, parsed, pushed⟩ := bind_eq_ok.mp h
      obtain rfl := pushes pushed
      intro d member v inside
      obtain rfl := List.mem_singleton.mp member
      rw [parses parsed] at inside
      exact nested v (List.mem_cons_of_mem _ inside)

theorem letForm_elaborates {args : List Value} (nested : ∀ v ∈ args, v.nesting ≤ n) {head : Value}
    {w x : Workshop} (sound : w.Sound) (knows : w.Knows known)
    (target : ∀ captures, (w.sight captures).static? known head = some (.special .bindings))
    (yields : Yields (bindings f args) w () x) :
    Elaborated known w (.form (.ofList (head :: args))) x := by
  obtain ⟨pairs, u, parsed, entering⟩ := Yields.bind_iff.mp yields
  obtain ⟨paired, rfl⟩ := liftError_iff.mp parsed
  obtain ⟨_, y, entered, binding⟩ := Yields.bind_iff.mp entering
  obtain rfl := pushScope_iff.mp entered
  obtain ⟨_, z, bound, running⟩ := Yields.bind_iff.mp binding
  obtain ⟨_, z', ran, leaving⟩ := Yields.bind_iff.mp running
  obtain rfl := popScope_yields leaving
  have sound' : (u.enter { kind := .locals }).Sound := sound.congr rfl rfl rfl
  obtain ⟨e, emits, reads⟩ := bindings_elaborate forms (bindingPairs_nested paired nested)
    (fun v member => nested v (List.mem_of_mem_drop member)) sound' knows bound ran
  have opens : (u.enter { kind := .locals }).Opens z' := Emits.leaves emits
  refine ⟨.scope e, .scope emits, fun captures captured => .bindings (target captures) paired ?_⟩
  rw [captured_leave] at captured
  exact reads captures captured

theorem knot_elaborates {args : List Value} (nested : ∀ v ∈ args, v.nesting ≤ n) {head : Value}
    {w x : Workshop} (sound : w.Sound) (knows : w.Knows known)
    (target : ∀ captures, (w.sight captures).static? known head = some (.special .knot))
    (yields : Yields (knot f args) w () x) :
    Elaborated known w (.form (.ofList (head :: args))) x := by
  obtain ⟨pairs, u, parsed, entering⟩ := Yields.bind_iff.mp yields
  obtain ⟨paired, rfl⟩ := liftError_iff.mp parsed
  obtain ⟨_, y, entered, binding⟩ := Yields.bind_iff.mp entering
  obtain rfl := pushScope_iff.mp entered
  obtain ⟨cells, z, bound, filling⟩ := Yields.bind_iff.mp binding
  obtain ⟨_, z', filled, running⟩ := Yields.bind_iff.mp filling
  obtain ⟨_, z'', ran, leaving⟩ := Yields.bind_iff.mp running
  obtain rfl := popScope_yields leaving
  have sound' : (u.enter { kind := .locals }).Sound := sound.congr rfl rfl rfl
  have knows' : (u.enter { kind := .locals }).Knows known := knows
  obtain ⟨opens, ⟨t, scopes, -, found⟩, continues⟩ := fresh_elaborate sound' knows' rfl bound
  have found' : List.Forall₂ (fun (pair : String × Value) cell =>
      z.body.scopes.findSome? (fun s => s.cells.lookup pair.1) = some cell ∧ cell.kind = .reference)
      pairs cells := by
    refine found.imp fun pair cell here => ⟨?_, here.2⟩
    rw [scopes, List.findSome?_cons, here.1]
  obtain ⟨e, emits, reads⟩ := fills_elaborate forms (bindingPairs_nested paired nested)
    (fun v member => nested v (List.mem_of_mem_drop member)) found' (opens.sound sound')
    (knows'.extend opens.toExtends) rfl filled ran
  obtain ⟨e', emits', reads'⟩ := continues emits
  refine ⟨.scope e', .scope emits', fun captures captured => .knot (target captures) paired ?_⟩
  rw [captured_leave] at captured
  exact reads' (reads captures captured)

omit forms in
theorem emitCall_yields {count : Nat} {w x : Workshop} (h : Yields (emitCall count) w () x) :
    ∃ i, Chunk.callShape? i = some (count, false) ∧ x = w.emit i := by
  unfold emitCall at h
  split at h
  · exact ⟨_, rfl, emit_iff.mp h⟩
  · exact ⟨_, rfl, emit_iff.mp h⟩
  · obtain ⟨fits, rfl⟩ := emitWith_iff.mp h
    exact ⟨_, rfl, rfl⟩

omit forms in
theorem replicate_yields {op : Opcode} {times : Nat} {w x : Workshop}
    (h : Yields ((List.replicate times op).forM emit) w () x) :
    x = w.emitAll (List.replicate times op.bare) := by
  induction times generalizing w with
  | zero =>
    obtain rfl := Yields.forM_nil_iff.mp h
    exact (emitAll_nil x).symm
  | succ times ih =>
    obtain ⟨u, first, rest⟩ := Yields.forM_cons_iff.mp h
    obtain rfl := emit_iff.mp first
    rw [ih rest, emitAll_emit]
    rfl

theorem knownCall_elaborates {args : List Value} (nested : ∀ v ∈ args, v.nesting ≤ n)
    {name : String} {head target : Value} {w x : Workshop} (sound : w.Sound) (knows : w.Knows known)
    (bound : ∀ captures, (w.sight captures).static? known head = some target)
    (ordinary : ∀ form, target ≠ .special form)
    (whole : ∀ b, target = .builtin b → expansion? b args.length = none)
    (yields : Yields (knownCall f name target args) w () x) :
    Elaborated known w (.form (.ofList (head :: args))) x := by
  have following : Yields (do
      arguments f args
      emitConst target
      emitCall args.length) w () x := by
    unfold knownCall at yields
    dsimp only at yields
    split at yields
    · split at yields
      · obtain ⟨_, _, rejected, -⟩ := Yields.bind_iff.mp yields
        exact (reject_iff.mp rejected).elim
      · exact yields
    · exact yields
  obtain ⟨_, u, operands, pushing⟩ := Yields.bind_iff.mp following
  obtain ⟨_, y, pushed, calling⟩ := Yields.bind_iff.mp pushing
  obtain ⟨es, length, emits, reads⟩ := arguments_elaborate forms nested sound knows operands
  obtain ⟨h, rfl⟩ := emitConst_iff.mp pushed
  obtain ⟨i, shape, rfl⟩ := emitCall_yields calling
  rw [← length] at shape
  exact ⟨_, .call emits (.const h) shape, fun captures captured =>
    .static (bound captures) ordinary whole (reads captures captured)⟩

theorem dynamic_elaborates {args : List Value} (nested : ∀ v ∈ args, v.nesting ≤ n) {head : Value}
    {push : Encode Unit} {w x : Workshop}
    (operator : ∀ {u y}, w.Stays u → u.Sound → u.Knows known → Yields push u () y →
      Elaborated known u (.form head) y)
    (sound : w.Sound) (knows : w.Knows known)
    (free : ∀ captures, (w.sight captures).static? known head = none)
    (yields : Yields (do
      arguments f args
      push
      emitCall args.length) w () x) :
    Elaborated known w (.form (.ofList (head :: args))) x := by
  obtain ⟨_, u, operands, pushing⟩ := Yields.bind_iff.mp yields
  obtain ⟨_, y, pushed, calling⟩ := Yields.bind_iff.mp pushing
  obtain ⟨es, length, emits, reads⟩ := arguments_elaborate forms nested sound knows operands
  have stays : w.Stays u := Emits.leaves emits
  obtain ⟨e, emits', reads'⟩ := operator stays (stays.sound sound) (knows.extend stays.toExtends) pushed
  obtain ⟨i, shape, rfl⟩ := emitCall_yields calling
  rw [← length] at shape
  refine ⟨_, .call emits emits' shape, fun captures captured => .dynamic (free captures) ?_ ?_⟩
  · exact reads captures fun entry member => captured ((Emits.leaves emits').captured.subset member)
  · rw [← stays.sight captures]
    exact reads' captures captured

omit forms in
theorem bindArg_enter {w x : Workshop} {cells : List (String × Cell)} {name : String}
    {kind : CellKind} {index : Nat} {cell : Cell}
    (distinct : (cells.map Prod.fst).Nodup)
    (h : Yields (bindArg name kind index) (w.enter ⟨.args, cells⟩) cell x) :
    (((name, (⟨kind, .args, index⟩ : Cell)) :: cells).map Prod.fst).Nodup ∧
      x = w.enter ⟨.args, (name, ⟨kind, .args, index⟩) :: cells⟩ := by
  obtain ⟨⟨s, others, same, free⟩, -, rfl⟩ := bindArg_iff.mp h
  obtain ⟨rfl, -⟩ := List.cons.inj same
  refine ⟨List.nodup_cons.mpr ⟨fun member => ?_, distinct⟩, rfl⟩
  obtain ⟨entry, inside, rfl⟩ := List.mem_map.mp member
  have looked := List.lookup_eq_none_iff.mp free entry inside
  simp at looked

omit forms in
/-- The parameters are bound in a scope of their own, if no two are the same. -/
theorem params_enter {ps : List (String × Nat)} {w x : Workshop} {cells : List (String × Cell)}
    (distinct : (cells.map Prod.fst).Nodup)
    (h : Yields (ps.forM fun (name, i) => do
      let _ ← bindArg name .value i) (w.enter ⟨.args, cells⟩) () x) :
    (((ps.map argCell).reverse ++ cells).map Prod.fst).Nodup ∧
      x = w.enter ⟨.args, (ps.map argCell).reverse ++ cells⟩ := by
  induction ps generalizing cells with
  | nil =>
    obtain rfl := Yields.forM_nil_iff.mp h
    exact ⟨distinct, rfl⟩
  | cons p ps ih =>
    obtain ⟨y, first, rest⟩ := Yields.forM_cons_iff.mp h
    obtain ⟨cell, z, bound, done⟩ := Yields.bind_iff.mp first
    obtain ⟨-, rfl⟩ := Yields.pure_iff.mp done
    obtain ⟨more, rfl⟩ := bindArg_enter distinct bound
    obtain ⟨all, rfl⟩ := ih more rest
    rw [List.map_cons, List.reverse_cons, List.append_assoc]
    exact ⟨all, rfl⟩

omit forms in
theorem sight_params (w : Workshop) (c : Clause) (captures : List (String × CellKind)) :
    (w.enter ⟨.args, c.cells.reverse⟩).sight captures = (w.sight captures).params c := by
  have value : ∀ entry ∈ c.cells, entry.2.capturedKind = .value := by
    intro entry member
    rcases List.mem_append.mp member with fixed | rest
    · obtain ⟨p, -, rfl⟩ := List.mem_map.mp fixed
      rfl
    · obtain ⟨name, -, rfl⟩ := List.mem_map.mp rest
      rfl
  have here : (w.enter ⟨.args, c.cells.reverse⟩).body.own? =
      fun x => if x ∈ c.params ++ c.rest.toList then some .value else w.body.own? x := by
    funext x
    unfold Body.own?
    cases looked : c.cells.reverse.lookup x with
    | some cell =>
      obtain ⟨before, after, split, -⟩ := List.lookup_eq_some_iff.mp looked
      have member : (x, cell) ∈ c.cells := by
        rw [← List.mem_reverse, split]
        simp
      have named : x ∈ c.params ++ c.rest.toList := c.names_cells ▸ List.mem_map_of_mem member
      simp only [enter, body_alter, List.findSome?_cons, looked, value _ member, if_pos named]
    | none =>
      have unnamed : x ∉ c.params ++ c.rest.toList := by
        rw [← c.names_cells]
        intro member
        obtain ⟨entry, inside, rfl⟩ := List.mem_map.mp member
        have other := List.lookup_eq_none_iff.mp looked entry (List.mem_reverse.mpr inside)
        simp at other
      simp only [enter, body_alter, List.findSome?_cons, looked, if_neg unnamed]
      rfl
  unfold Workshop.sight Sight.params
  rw [here]
  rfl

theorem clause_elaborates {c : Clause} (nested : ∀ v ∈ c.body, v.nesting ≤ n) {w x : Workshop}
    (sound : w.Sound) (knows : w.Knows known) (yields : Yields (clause f c) w () x) :
    ∃ e, Emits w (.clause c e) x ∧ ∀ captures, x.body.captured ⊆ captures →
      Reads known ((w.sight captures).params c) (.block c.body) (.one e) := by
  obtain ⟨_, u, entered, binding⟩ := Yields.bind_iff.mp yields
  obtain rfl := pushScope_iff.mp entered
  obtain ⟨_, u, bound, resting⟩ := Yields.bind_iff.mp binding
  obtain ⟨distinct, rfl⟩ := params_enter (by simp) bound
  have rested : ∃ y, y = w.enter ⟨.args, c.cells.reverse⟩ ∧ (c.cells.map Prod.fst).Nodup ∧
      Yields (do
        block f c.body
        emit .ret
        popScope) y () x := by
    dsimp only at resting
    cases named : c.rest with
    | some name =>
      rw [named] at resting
      obtain ⟨cell, y, last, running⟩ := Yields.bind_iff.mp resting
      obtain ⟨more, rfl⟩ := bindArg_enter distinct last
      have whole : (name, ⟨.rest, .args, c.fixedCount⟩) :: ((c.params.zipIdx.map argCell).reverse ++ []) =
          c.cells.reverse := by
        simp [Clause.cells, named]
      rw [whole] at more running
      refine ⟨_, rfl, ?_, running⟩
      rwa [List.map_reverse, List.nodup_reverse] at more
    | none =>
      have whole : (c.params.zipIdx.map argCell).reverse ++ [] = c.cells.reverse := by
        simp [Clause.cells, named]
      rw [named, whole] at resting
      rw [whole] at distinct
      refine ⟨_, rfl, ?_, resting⟩
      rwa [List.map_reverse, List.nodup_reverse] at distinct
  obtain ⟨y, rfl, distinct, running⟩ := rested
  obtain ⟨_, z, ran, returning⟩ := Yields.bind_iff.mp running
  obtain ⟨_, z', returned, leaving⟩ := Yields.bind_iff.mp returning
  obtain rfl := emit_iff.mp returned
  obtain rfl := popScope_yields leaving
  have sound' : (w.enter ⟨.args, c.cells.reverse⟩).Sound := sound.congr rfl rfl rfl
  obtain ⟨e, emits, reads⟩ := block_elaborates forms nested sound' knows ran
  refine ⟨e, .clause distinct emits, fun captures captured => ?_⟩
  rw [captured_leave] at captured
  rw [← sight_params]
  exact reads captures captured

omit forms in
theorem labels_yields {cs : Clauses} {labels : List Nat} {w x : Workshop}
    (h : Yields (cs.mapM fun _ => newLabel) w labels x) :
    labels = List.range' w.body.labelCount cs.length ∧ x = w.labels cs.length := by
  induction cs generalizing w labels with
  | nil => exact Yields.mapM_nil_iff.mp h
  | cons c cs ih =>
    obtain ⟨label, others, y, first, rest, rfl⟩ := Yields.mapM_cons_iff.mp h
    obtain ⟨rfl, rfl⟩ := newLabel_iff.mp first
    obtain ⟨rfl, rfl⟩ := ih rest
    exact ⟨by simp [List.range'_succ, Workshop.label], rfl⟩

omit forms in
theorem dispatch_yields {cs : List (Clause × Nat)} {w x : Workshop}
    (h : Yields (cs.forM fun (c, label) => dispatch c label) w () x) :
    ∃ is, Tests cs is ∧ x = w.emitAll is := by
  induction cs generalizing w with
  | nil =>
    obtain rfl := Yields.forM_nil_iff.mp h
    exact ⟨[], .nil, (emitAll_nil x).symm⟩
  | cons pair cs ih =>
    obtain ⟨c, label⟩ := pair
    obtain ⟨u, first, rest⟩ := Yields.forM_cons_iff.mp h
    obtain ⟨_, y₁, counted, first⟩ := Yields.bind_iff.mp first
    obtain ⟨_, y₂, measured, first⟩ := Yields.bind_iff.mp first
    obtain ⟨_, y₃, compared, jumped⟩ := Yields.bind_iff.mp first
    obtain ⟨count, rfl⟩ := emitWith_iff.mp counted
    obtain rfl := emit_iff.mp measured
    obtain rfl := emit_iff.mp compared
    obtain ⟨named, rfl⟩ := emitWith_iff.mp jumped
    obtain ⟨is, tests, rfl⟩ := ih rest
    exact ⟨_, .cons count named tests, by simp only [emitAll_emit]⟩

theorem cases_elaborate {cs : List (Clause × Nat)} (nested : ∀ c ∈ cs, ∀ v ∈ c.1.body, v.nesting ≤ n)
    {w x : Workshop} (sound : w.Sound) (knows : w.Knows known)
    (yields : Yields (cs.forM fun (c, label) => do
      anchor label
      clause f c) w () x) :
    ∃ es, Emits w (.cases cs es) x ∧ ∀ captures, x.body.captured ⊆ captures →
      Reads known (w.sight captures) (.clauses (cs.map Prod.fst)) (.many es) := by
  induction cs generalizing w with
  | nil =>
    obtain rfl := Yields.forM_nil_iff.mp yields
    exact ⟨[], .caseNone, fun _ _ => .clausesNil⟩
  | cons pair cs ih =>
    obtain ⟨c, label⟩ := pair
    obtain ⟨u, first, rest⟩ := Yields.forM_cons_iff.mp yields
    obtain ⟨_, y, anchored, body⟩ := Yields.bind_iff.mp first
    obtain ⟨h, rfl⟩ := anchor_iff.mp anchored
    have anchors : w.Stays (w.emit ⟨.label, label, h⟩) := stays_emit _
    obtain ⟨e, emits, reads⟩ := clause_elaborates forms (nested (c, label) (by simp))
      (anchors.sound sound) (knows.extend anchors.toExtends) body
    have stays : w.Stays u := anchors.trans (Emits.leaves emits)
    obtain ⟨es, emits', reads'⟩ := ih (fun c member => nested c (List.mem_cons_of_mem _ member))
      (stays.sound sound) (knows.extend stays.toExtends) rest
    refine ⟨e :: es, .caseMore h emits emits', fun captures captured => .clausesCons ?_ ?_⟩
    · rw [← anchors.sight captures]
      exact reads captures fun entry member => captured ((Emits.leaves emits').captured.subset member)
    · rw [← stays.sight captures]
      exact reads' captures captured

theorem clauses_elaborate {cs : Clauses} (nested : ∀ c ∈ cs, ∀ v ∈ c.body, v.nesting ≤ n)
    {w x : Workshop} (sound : w.Sound) (knows : w.Knows known)
    (yields : Yields (clauses f cs) w () x) :
    ∃ es, Emits w (.body cs es) x ∧ ∀ captures, x.body.captured ⊆ captures →
      Reads known (w.sight captures) (.clauses cs) (.many es) := by
  unfold clauses at yields
  split at yields
  next c =>
    obtain ⟨e, emits, reads⟩ := clause_elaborates forms (nested c (by simp)) sound knows yields
    exact ⟨[e], .single emits, fun captures captured => .clausesCons (reads captures captured) .clausesNil⟩
  next several =>
    obtain ⟨labels, u₁, labelled, yields⟩ := Yields.bind_iff.mp yields
    obtain ⟨_, u₂, tested, yields⟩ := Yields.bind_iff.mp yields
    obtain ⟨_, u₃, told, yields⟩ := Yields.bind_iff.mp yields
    obtain ⟨_, u₄, panics, arms⟩ := Yields.bind_iff.mp yields
    obtain ⟨rfl, rfl⟩ := labels_yields labelled
    obtain ⟨is, tests, rfl⟩ := dispatch_yields tested
    obtain ⟨h, rfl⟩ := emitConst_iff.mp told
    obtain rfl := emit_iff.mp panics
    have stays : w.Stays ((((w.labels cs.length).emitAll is).emitConst _ h).emit Opcode.panic.bare) :=
      (((stays_labels _).trans (stays_emitAll _)).trans (stays_emitConst _ h)).trans (stays_emit _)
    have names : (cs.zip (List.range' w.body.labelCount cs.length)).map Prod.fst = cs :=
      List.map_fst_zip (by simp)
    obtain ⟨es, emits, reads⟩ := cases_elaborate forms (fun c member v inside =>
      nested c.1 (names ▸ List.mem_map_of_mem member) v inside) (stays.sound sound)
      (knows.extend stays.toExtends) arms
    refine ⟨es, .several (fun single => ?_) tests rfl h emits, fun captures captured => ?_⟩
    · obtain ⟨c, rfl⟩ := List.length_eq_one_iff.mp single
      exact several c rfl
    · rw [← stays.sight captures]
      have read := reads captures captured
      rw [names] at read
      exact read

omit forms in
theorem loadCaptured_emits {names : List String} {w x : Workshop}
    (h : Yields (names.forM loadCaptured) w () x) : Emits w (.captured names) x := by
  induction names generalizing w with
  | nil =>
    obtain rfl := Yields.forM_nil_iff.mp h
    exact .loaded
  | cons name names ih =>
    obtain ⟨u, first, rest⟩ := Yields.forM_cons_iff.mp h
    obtain ⟨cell, y, resolved, loading⟩ := Yields.bind_iff.mp first
    obtain ⟨found, rfl⟩ := resolve_iff.mp resolved
    cases cell with
    | none => exact (breach_iff.mp loading).elim
    | some cell =>
      obtain ⟨i, loads, rfl⟩ := loadRaw_yields loading
      exact .load found.symm loads (ih rest)

omit forms in
/-- Captured names that were loaded can be seen around. -/
theorem captured_seen {names : List String} {w x : Workshop} (h : Emits w (.captured names) x)
    (sound : w.Sound) {captures : List (String × CellKind)} (captured : x.body.captured ⊆ captures) :
    ∀ name ∈ names, ∃ kind, (w.sight captures).Sees name kind := by
  induction names generalizing w with
  | nil => intro name member; cases member
  | cons name names ih =>
    cases h with
    | load found loads others =>
      rename_i cell i
      have stays := (stays_reach (w := w) name).trans (stays_emit i)
      intro other member
      rcases List.mem_cons.mp member with rfl | later
      · refine ⟨_, cell?_sees sound found fun entry member => captured ?_⟩
        exact (Emits.leaves others).captured.subset member
      · have seen := ih others (stays.sound sound) other later
        rwa [stays.sight] at seen

omit forms in
/-- A procedure is built of what its clauses come to in a workshop of their own. -/
theorem procedure_yields {name : Option String} {cs : Clauses} {p : Procedure Value}
    {captured : List String} {w x : Workshop} (h : Yields (procedure f name cs) w (p, captured) x) :
    ∃ z store, Yields (clauses f cs) (w.child name) () z ∧
      Yields (z.chunk.build cs.arity w.encoder.options) z.store p store ∧
      captured = z.body.captured.map Prod.fst ∧ x = { w with store } := by
  obtain ⟨_, _, read, entering⟩ := Yields.bind_iff.mp h
  obtain ⟨rfl, rfl⟩ := Yields.get_iff.mp read
  obtain ⟨y, inside, rfl⟩ := inner_yields entering
  obtain ⟨_, z, encoded, inside⟩ := Yields.bind_iff.mp inside
  obtain ⟨_, _, looked, inside⟩ := Yields.bind_iff.mp inside
  obtain ⟨rfl, rfl⟩ := body_iff.mp looked
  obtain ⟨_, _, finished, inside⟩ := Yields.bind_iff.mp inside
  obtain ⟨rfl, rfl⟩ := finish_iff.mp finished
  obtain ⟨q, _, built, done⟩ := Yields.bind_iff.mp inside
  obtain ⟨store, frozen, rfl⟩ := build_iff.mp built
  obtain ⟨same, rfl⟩ := Yields.pure_iff.mp done
  obtain ⟨rfl, rfl⟩ := Prod.mk.inj same
  exact ⟨_, store, encoded, frozen, rfl, rfl⟩

omit forms in
theorem sight_child {w : Workshop} (sound : w.Sound) (name : Option String)
    (inner outer : List (String × CellKind)) :
    (w.child name).sight inner = (w.sight outer).inside name inner := by
  have outside : Body.visible? (w.child name).around = (w.sight outer).kind? :=
    funext fun x => visible?_eq sound x outer
  unfold Workshop.sight Sight.inside at *
  rw [outside]
  rfl

omit forms in
/-- Loads what was captured and makes a closure of it. -/
def enclose (p : Procedure Value) (captured : List String) : Encode Unit := do
  captured.reverse.forM loadCaptured
  emitConst (.procedure p)
  emitWith .makeClosure captured.length

omit forms in
/-- A lambda that captures anything ends with its closure. -/
theorem lambda_eq (form : FormCompiler) (args : List Value) : lambda form args = (do
    let cs ← liftError (Clauses.parse (lambdaParts args).2)
    let (p, captured) ← procedure form (lambdaParts args).1 cs
    if captured = [] then emitConst (.closure p []) else enclose p captured) := by
  cases args with
  | nil => rfl
  | cons v rest => cases v <;> rfl

theorem lambda_elaborates {args : List Value} (nested : ∀ v ∈ args, v.nesting ≤ n) {head : Value}
    {w x : Workshop} (sound : w.Sound) (knows : w.Knows known)
    (target : ∀ captures, (w.sight captures).static? known head = some (.special .lambda))
    (yields : Yields (lambda f args) w () x) :
    Elaborated known w (.form (.ofList (head :: args))) x := by
  have nested' : ∀ v ∈ (lambdaParts args).2, v.nesting ≤ n := by
    intro v member
    refine nested v ?_
    unfold lambdaParts at member
    split at member
    · exact List.mem_cons_of_mem _ member
    · exact member
  rw [lambda_eq] at yields
  obtain ⟨cs, u, parsed, following⟩ := Yields.bind_iff.mp yields
  obtain ⟨clauses, rfl⟩ := liftError_iff.mp parsed
  obtain ⟨⟨p, captured⟩, y, made, pushing⟩ := Yields.bind_iff.mp following
  obtain ⟨z, store, encoded, frozen, rfl, rfl⟩ := procedure_yields made
  obtain ⟨es, emits, reads⟩ := clauses_elaborate forms (parse_nested clauses nested')
    (sound_child u _) knows encoded
  have inner := reads _ (List.Subset.refl _)
  have innerStays : (u.child (lambdaParts args).1).Stays z := Emits.leaves emits
  have stays : u.Stays { u with store } :=
    stays_store ((Chunk.build_namespaces frozen).trans innerStays.namespaces)
  dsimp only at pushing
  split at pushing
  next alone =>
    obtain ⟨h, rfl⟩ := emitConst_iff.mp pushing
    have none : z.body.captured = [] := List.map_eq_nil_iff.mp alone
    refine ⟨_, .constant emits none frozen h, fun captures captured => ?_⟩
    rw [sight_child sound _ _ captures, none] at inner
    exact .lambda (target captures) rfl clauses (by simp) inner
  next some =>
    obtain ⟨_, v, loading, pushing⟩ := Yields.bind_iff.mp pushing
    obtain ⟨_, y, pooled, making⟩ := Yields.bind_iff.mp pushing
    obtain ⟨h, rfl⟩ := emitConst_iff.mp pooled
    obtain ⟨count, rfl⟩ := emitWith_iff.mp making
    have loads := loadCaptured_emits loading
    have length : (z.body.captured.map Prod.fst).length = z.body.captured.length := List.length_map ..
    have emitted := Emits.closure emits (fun none => some (by rw [none]; rfl)) frozen loads h
      (length ▸ count)
    simp only [length]
    refine ⟨_, emitted, fun captures captured => ?_⟩
    rw [sight_child sound _ _ captures] at inner
    refine .lambda (target captures) rfl clauses (fun entry member => ?_) inner
    obtain ⟨kind, sees⟩ := captured_seen loads (stays.sound sound) captured entry.1
      (List.mem_reverse.mpr (List.mem_map_of_mem member))
    rw [stays.sight] at sees
    have visible := (innerStays.sound (sound_child u _)).visible entry member
    rw [innerStays.around] at visible
    have outside : (u.sight captures).kind? entry.1 = Option.some entry.2 :=
      (visible?_eq sound entry.1 captures).symm.trans visible
    have same : kind = entry.2 := Option.some.inj (sees.kind?.symm.trans outside)
    rwa [same] at sees

theorem arms_elaborate (reading : Sight → Expr → Prop) {test yes : Value}
    (nestedTest : test.nesting ≤ n) (nestedYes : yes.nesting ≤ n) {alternative : Encode Unit}
    {w x : Workshop}
    (otherwise : ∀ {u y}, u.Sound → u.Knows known → Yields alternative u () y →
      ∃ e, Emits u (.one e) y ∧ ∀ captures, y.body.captured ⊆ captures → reading (u.sight captures) e)
    (sound : w.Sound) (knows : w.Knows known)
    (yields : Yields (do
      let consequent ← newLabel
      let done ← newLabel
      f test
      emitWith .condJump consequent
      alternative
      emitWith .jump done
      anchor consequent
      f yes
      anchor done) w () x) :
    ∃ t y n, Emits w (.one (.branch t y n)) x ∧ ∀ captures, x.body.captured ⊆ captures →
      Reads known (w.sight captures) (.form test) (.one t) ∧
        Reads known (w.sight captures) (.form yes) (.one y) ∧ reading (w.sight captures) n := by
  obtain ⟨_, _, first, yields₁⟩ := Yields.bind_iff.mp yields
  obtain ⟨rfl, rfl⟩ := newLabel_iff.mp first
  obtain ⟨_, _, second, yields₂⟩ := Yields.bind_iff.mp yields₁
  obtain ⟨rfl, rfl⟩ := newLabel_iff.mp second
  obtain ⟨_, u₃, tested, yields₃⟩ := Yields.bind_iff.mp yields₂
  obtain ⟨_, u₄, chosen, yields₄⟩ := Yields.bind_iff.mp yields₃
  obtain ⟨consequent, rfl⟩ := emitWith_iff.mp chosen
  obtain ⟨_, u₅, failed, yields₅⟩ := Yields.bind_iff.mp yields₄
  obtain ⟨_, u₆, left, yields₆⟩ := Yields.bind_iff.mp yields₅
  obtain ⟨done, rfl⟩ := emitWith_iff.mp left
  obtain ⟨_, u₇, anchored, yields₇⟩ := Yields.bind_iff.mp yields₆
  obtain ⟨_, rfl⟩ := anchor_iff.mp anchored
  obtain ⟨_, u₈, held, ending⟩ := Yields.bind_iff.mp yields₇
  obtain ⟨_, rfl⟩ := anchor_iff.mp ending
  have labelled : w.Stays w.label.label := stays_label.trans stays_label
  obtain ⟨t, emitsTest, readsTest⟩ := forms test nestedTest (labelled.sound sound)
    (knows.extend labelled.toExtends) tested
  have toNo : w.Stays (u₃.emit ⟨.condJump, w.body.labelCount, consequent⟩) :=
    (labelled.trans (Emits.leaves emitsTest)).trans (stays_emit _)
  obtain ⟨no, emitsNo, readsNo⟩ := otherwise (toNo.sound sound) (knows.extend toNo.toExtends) failed
  have pastNo : u₅.Stays ((u₅.emit ⟨.jump, w.body.labelCount + 1, done⟩).emit
      ⟨.label, w.body.labelCount, consequent⟩) := (stays_emit _).trans (stays_emit _)
  have toYes := (toNo.trans (Emits.leaves emitsNo)).trans pastNo
  obtain ⟨y, emitsYes, readsYes⟩ := forms yes nestedYes (toYes.sound sound)
    (knows.extend toYes.toExtends) held
  refine ⟨t, y, no, .branch consequent done emitsTest emitsNo emitsYes, fun captures captured => ?_⟩
  have capturedNo : u₅.body.captured ⊆ captures := fun entry member =>
    captured ((pastNo.trans (Emits.leaves emitsYes)).captured.subset member)
  have capturedTest : u₃.body.captured ⊆ captures := fun entry member =>
    capturedNo (((stays_emit _).trans (Emits.leaves emitsNo)).captured.subset member)
  refine ⟨?_, ?_, ?_⟩
  · rw [← labelled.sight captures]
    exact readsTest captures capturedTest
  · rw [← toYes.sight captures]
    exact readsYes captures captured
  · rw [← toNo.sight captures]
    exact readsNo captures capturedNo

theorem branch_elaborates {args : List Value} (nested : ∀ v ∈ args, v.nesting ≤ n) {head : Value}
    {w x : Workshop} (sound : w.Sound) (knows : w.Knows known)
    (target : ∀ captures, (w.sight captures).static? known head = some (.special .branch))
    (yields : Yields (branch f args) w () x) :
    Elaborated known w (.form (.ofList (head :: args))) x := by
  unfold branch at yields
  dsimp only at yields
  split at yields
  next test yes =>
    obtain ⟨_, _, pure, following⟩ := Yields.bind_iff.mp yields
    obtain ⟨rfl, rfl⟩ := Yields.pure_iff.mp pure
    have missing : ∀ {u y}, u.Sound → u.Knows known → Yields (emit .nullLit) u () y →
        ∃ e, Emits u (.one e) y ∧ ∀ captures, y.body.captured ⊆ captures → e = .literal .null :=
      fun _ _ h => ⟨_, .literal (v := .null) h, fun _ _ => rfl⟩
    obtain ⟨t, y, no, emits, reads⟩ := arms_elaborate forms (fun _ e => e = .literal .null)
      (nested test (by simp)) (nested yes (by simp)) missing sound knows following
    refine ⟨_, emits, fun captures captured => ?_⟩
    obtain ⟨predicate, consequent, rfl⟩ := reads captures captured
    exact .branchOnly (target captures) predicate consequent
  next test yes no =>
    obtain ⟨_, _, pure, following⟩ := Yields.bind_iff.mp yields
    obtain ⟨rfl, rfl⟩ := Yields.pure_iff.mp pure
    obtain ⟨t, y, n, emits, reads⟩ := arms_elaborate forms
      (fun s e => Reads known s (.form no) (.one e)) (nested test (by simp)) (nested yes (by simp)) (forms no (nested no (by simp))) sound knows following
    refine ⟨_, emits, fun captures captured => ?_⟩
    obtain ⟨predicate, consequent, alternative⟩ := reads captures captured
    exact .branch (target captures) predicate consequent alternative
  · obtain ⟨_, _, rejected, -⟩ := Yields.bind_iff.mp yields
    exact (reject_iff.mp rejected).elim

omit forms in
theorem globalName_yields {form name : String} {args : List Value} {w x : Workshop}
    (h : Yields (globalName form args) w name x) : x = w ∧ ∃ rest, args = .symbol name :: rest := by
  unfold globalName at h
  split at h
  · obtain ⟨rfl, rfl⟩ := Yields.pure_iff.mp h
    exact ⟨rfl, _, rfl⟩
  · exact (reject_iff.mp h).elim
  · exact (reject_iff.mp h).elim

theorem define_elaborates {args : List Value} (nested : ∀ v ∈ args, v.nesting ≤ n) {head : Value}
    {w x : Workshop} (sound : w.Sound) (knows : w.Knows known)
    (target : ∀ captures, (w.sight captures).static? known head = some (.special .define))
    (yields : Yields (define f args) w () x) :
    Elaborated known w (.form (.ofList (head :: args))) x := by
  obtain ⟨name, u, named, following⟩ := Yields.bind_iff.mp yields
  obtain ⟨rfl, rest, rfl⟩ := globalName_yields named
  split at following
  next v same =>
    obtain ⟨rfl, rfl⟩ := List.cons.inj same
    obtain ⟨_, y, valued, binding⟩ := Yields.bind_iff.mp following
    obtain ⟨_, _, pooled, bound⟩ := Yields.bind_iff.mp binding
    obtain ⟨_, _, emitted, naming⟩ := Yields.bind_iff.mp bound
    obtain ⟨h, rfl⟩ := emitConst_iff.mp pooled
    obtain rfl := emit_iff.mp emitted
    obtain ⟨g, rfl⟩ := emitConst_iff.mp naming
    obtain ⟨e, emits, reads⟩ := forms v (nested v (by simp)) sound knows valued
    exact ⟨_, .define emits h g, fun captures captured => .define (target captures) (reads captures captured)⟩
  · exact (reject_iff.mp following).elim

omit forms in
theorem mention_emits (hidden : Bool) {form : String} {op : Opcode}
    (which : op = if hidden then .hide else .declare) {args : List Value} {w x : Workshop}
    (yields : Yields (mention form op args) w () x) :
    ∃ name, args = [.symbol name] ∧ Emits w (.one (.mention hidden name)) x := by
  obtain ⟨name, u, named, following⟩ := Yields.bind_iff.mp yields
  obtain ⟨rfl, rest, rfl⟩ := globalName_yields named
  split at following
  next single =>
    have none : rest = [] := by simpa using single
    subst none
    obtain ⟨_, _, pooled, mentioning⟩ := Yields.bind_iff.mp following
    obtain ⟨_, _, mentioned, naming⟩ := Yields.bind_iff.mp mentioning
    obtain ⟨h, rfl⟩ := emitConst_iff.mp pooled
    obtain rfl := emit_iff.mp mentioned
    obtain ⟨g, rfl⟩ := emitConst_iff.mp naming
    exact ⟨name, rfl, .mention which h g⟩
  · exact (reject_iff.mp following).elim

theorem special_elaborates {form : SpecialForm} {args : List Value}
    (nested : ∀ v ∈ args, v.nesting ≤ n) {head : Value} {w x : Workshop} (sound : w.Sound)
    (knows : w.Knows known)
    (target : ∀ captures, (w.sight captures).static? known head = some (.special form))
    (yields : Yields (special f form args) w () x) :
    Elaborated known w (.form (.ofList (head :: args))) x := by
  cases form with
  | branch => exact branch_elaborates forms nested sound knows target yields
  | block =>
    obtain ⟨e, emits, reads⟩ := block_elaborates forms nested sound knows yields
    exact ⟨e, emits, fun captures captured => .block (target captures) (reads captures captured)⟩
  | quote =>
    change Yields (Compile.quote args) w () x at yields
    unfold Compile.quote at yields
    split at yields
    next v => exact ⟨.literal v, .literal yields, fun captures _ => .quote (target captures)⟩
    · exact (reject_iff.mp yields).elim
  | lambda => exact lambda_elaborates forms nested sound knows target yields
  | bindings => exact letForm_elaborates forms nested sound knows target yields
  | knot => exact knot_elaborates forms nested sound knows target yields
  | define => exact define_elaborates forms nested sound knows target yields
  | declare =>
    obtain ⟨name, rfl, emits⟩ := mention_emits false rfl yields
    exact ⟨_, emits, fun captures _ => .declare (target captures)⟩
  | hide =>
    obtain ⟨name, rfl, emits⟩ := mention_emits true rfl yields
    exact ⟨_, emits, fun captures _ => .hide (target captures)⟩

theorem staticCall_elaborates {name : String} {args : List Value}
    (nested : ∀ v ∈ args, v.nesting ≤ n) {head target : Value} {w x : Workshop} (sound : w.Sound)
    (knows : w.Knows known) (bound : ∀ captures, (w.sight captures).static? known head = some target)
    (yields : Yields (staticCall f (special f) name target args) w () x) :
    Elaborated known w (.form (.ofList (head :: args))) x := by
  unfold staticCall at yields
  split at yields
  · exact special_elaborates forms nested sound knows bound yields
  next b =>
    cases expands : expansion? b args.length with
    | some expansion =>
      obtain ⟨op, times⟩ := expansion
      rw [expands] at yields
      obtain ⟨_, u, operands, operations⟩ := Yields.bind_iff.mp yields
      obtain ⟨es, -, emits, reads⟩ := arguments_elaborate forms nested sound knows operands
      obtain rfl := replicate_yields operations
      exact ⟨_, .intrinsic emits, fun captures captured =>
        .expanded (bound captures) expands (reads captures captured)⟩
    | none =>
      rw [expands] at yields
      refine knownCall_elaborates forms nested sound knows bound (by simp) (fun c same => ?_) yields
      cases same
      exact expands
  next plain foreign =>
    exact knownCall_elaborates forms nested sound knows bound plain
      (fun b same => absurd same (foreign b)) yields

theorem call_elaborates {car cdr : Value} (nested : ∀ items, (Value.pair car cdr).items? = .ok items →
      ∀ v ∈ items, v.nesting ≤ n) :
    Elaborates known (call f (special f) (.pair car cdr)) (.form (.pair car cdr)) := by
  intro w x sound knows yields
  obtain ⟨items, u, listed, choosing⟩ := Yields.bind_iff.mp yields
  obtain ⟨fetched, rfl⟩ := liftError_iff.mp listed
  have parts := mapError_eq_ok.mp fetched
  have whole : Value.pair car cdr = .ofList items := by
    rcases Value.eq_of_items? parts with vector | list
    · cases vector
    · exact list
  have shallow := nested items parts
  cases items with
  | nil => exact (reject_iff.mp choosing).elim
  | cons head args =>
    rw [whole]
    have nestedArgs : ∀ v ∈ args, v.nesting ≤ n := fun v member =>
      shallow v (List.mem_cons_of_mem _ member)
    have nestedHead := shallow head (by simp)
    have isDynamic : (∀ captures, (u.sight captures).static? known head = none) →
        Yields (do
          arguments f args
          f head
          emitCall args.length) u () x → Elaborated known u (.form (.ofList (head :: args))) x :=
      dynamic_elaborates forms nestedArgs (fun _ => forms head nestedHead) sound knows
    cases head with
    | symbol name =>
      obtain ⟨lexical, y, asked, branching⟩ := Yields.bind_iff.mp choosing
      obtain ⟨same, rfl⟩ := isLexical_iff.mp asked
      have seen : ∀ captures, lexical = ((y.sight captures).kind? name).isSome := fun captures =>
        same.trans (congrArg Option.isSome (visible?_eq sound name captures))
      split at branching
      next bound =>
        refine isDynamic (fun captures => ?_) branching
        simp only [Sight.static?, ← seen captures, bound, if_true]
      next free =>
        obtain ⟨target, z, looked, following⟩ := Yields.bind_iff.mp branching
        obtain ⟨value, rfl⟩ := global?_iff.mp looked
        rw [knows name] at value
        have static : ∀ captures, (z.sight captures).static? known (.symbol name) = target := by
          intro captures
          rw [value, Sight.static?, ← seen captures, if_neg free]
        cases target with
        | some target => exact staticCall_elaborates forms nestedArgs sound knows static following
        | none =>
          refine dynamic_elaborates forms nestedArgs (fun stays soundU knowsU pushing => ?_) sound knows
            static following
          obtain ⟨_, v, pooled, resolving⟩ := Yields.bind_iff.mp pushing
          obtain ⟨h, rfl⟩ := emitConst_iff.mp pooled
          obtain rfl := emit_iff.mp resolving
          refine ⟨.later name, .later h, fun captures _ => .later ?_ value.symm⟩
          rw [stays.sight captures]
          exact Option.not_isSome_iff_eq_none.mp (seen captures ▸ free)
    | _ => exact isDynamic (fun _ => rfl) choosing

end

theorem formUpTo_elaborates (known : String → Option Value) (n : Nat) (v : Value)
    (nested : v.nesting ≤ n) : Elaborates known (formUpTo n v) (.form v) := by
  induction n generalizing v with
  | zero =>
    cases v with
    | symbol name => exact symbol_elaborates name
    | pair car cdr => exact absurd nested (Nat.not_succ_le_zero _)
    | vector items => exact absurd nested (Nat.not_succ_le_zero _)
    | _ => exact literal_elaborates rfl
  | succ n ih =>
    cases v with
    | symbol name => exact symbol_elaborates name
    | pair car cdr =>
      refine call_elaborates ih fun items listed v member => ?_
      exact Nat.le_of_lt_succ (Nat.lt_of_lt_of_le (Value.nesting_lt_of_item listed member) nested)
    | vector items =>
      have shallow : ∀ v ∈ items, v.nesting ≤ n := fun v member =>
        Nat.le_of_lt_succ (Nat.lt_of_lt_of_le (Value.nesting_lt_of_item rfl member) nested)
      intro w x sound knows yields
      unfold formUpTo at yields
      split at yields
      next constant => exact literal_elaborates constant sound knows yields
      next parts =>
        obtain ⟨_, u, operands, pushing⟩ := Yields.bind_iff.mp yields
        obtain ⟨_, y, pushed, calling⟩ := Yields.bind_iff.mp pushing
        obtain ⟨es, length, emits, reads⟩ := arguments_elaborate ih shallow sound knows operands
        obtain ⟨h, rfl⟩ := emitConst_iff.mp pushed
        obtain ⟨i, shape, rfl⟩ := emitCall_yields calling
        rw [← length] at shape
        exact ⟨_, .call emits (.const h) shape, fun captures captured =>
          .vector (Bool.eq_false_iff.mpr parts) (reads captures captured)⟩
    | _ => exact literal_elaborates rfl

theorem form_elaborates (known : String → Option Value) (v : Value) :
    Elaborates known (form v) (.form v) :=
  formUpTo_elaborates known v.nesting v (Nat.le_refl _)

end Compile

theorem encoding_yields {α : Type} {act : Encode α} {w : Workshop} {a : α} {t : Store}
    (h : (match (act.run w : Except Rejection α × Workshop) with
      | (r, x) => (r, x.store)) = (Except.ok a, t)) : ∃ x, Yields act w a x ∧ t = x.store := by
  cases ended : (act.run w : Except Rejection α × Workshop) with
  | mk r x =>
    rw [ended] at h
    obtain ⟨rfl, rfl⟩ := Prod.mk.inj h
    exact ⟨x, ended, rfl⟩

/-- A form is compiled as the body of a procedure that sees no lexical names. -/
theorem compile_elaborates {globals : NamespaceId} {options : CompileOptions} {form : Value}
    {s t : Store} {p : Procedure Value} (h : Yields (compile globals options form) s p t) :
    ∃ e u, Emits (.top globals options s) (.one e) u ∧
      Reads (s.namespaces.resolve? globals) .top (.form form) (.one e) ∧
      Yields ((u.emit Opcode.ret.bare).chunk.build (.fixed 0) options) u.store p t := by
  have sound : (Workshop.top globals options s).Sound := .none rfl
  obtain ⟨chunk, v, encoded, built⟩ := Yields.bind_iff.mp h
  have run := encoding_yields encoded
  obtain ⟨x, running, rfl⟩ := run
  obtain ⟨_, u, formed, ending⟩ := Yields.bind_iff.mp running
  obtain ⟨_, y, returned, finished⟩ := Yields.bind_iff.mp ending
  obtain rfl := Encode.emit_iff.mp returned
  obtain ⟨rfl, rfl⟩ := Encode.finish_iff.mp finished
  obtain ⟨e, emits, reads⟩ := Compile.form_elaborates (s.namespaces.resolve? globals) form sound
    (fun _ => rfl) formed
  have stays : (Workshop.top globals options s).Stays u := Emits.leaves emits
  have empty : u.body.captured = [] := (stays.sound sound).alone stays.around
  exact ⟨e, u, emits, reads [] (by simp [empty]), built⟩

end StackLisp
