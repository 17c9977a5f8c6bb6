import StackLisp.Proofs.Lambdas
import StackLisp.Proofs.Naming
import StackLisp.Proofs.Scoping

/-!
Bodies inside others. What an inner body captures is bound around it, so that it can be loaded there. The
closure made of what was loaded has each captured value in the place that the inner body reads it from.
-/

namespace StackLisp

/-! ### Loading -/

/-- What a call has in the place of a cell. -/
def Scene.held? (s : Scene) (cell : Cell) : Option Value :=
  match cell.scope, cell.kind with
  | .args, .rest => some (.ofList (s.args.drop cell.index))
  | .args, _ => s.args[cell.index]?
  | .locals, _ => s.locals[cell.index]?.join
  | .captured, _ => s.closure.captured[cell.index]?
  | .current, _ => some s.closure.value

/-- The scene after instructions that left values on top. -/
def Scene.after (s : Scene) (vs : List Value) (n : Nat) : Scene :=
  { s with stack := vs ++ s.stack, pc := s.pc + n }

section

variable {s t : Scene} {σ τ : Store} {cell : Cell} {i : Instruction}

theorem Scene.after_after (vs ws : List Value) (m n : Nat) :
    (s.after vs m).after ws n = s.after (ws ++ vs) (m + n) := by
  simp only [Scene.after, List.append_assoc, Nat.add_assoc]

theorem Scene.fetch_iff {o : Option Value} :
    s.fetch σ o = .go t τ ↔ ∃ v, o = some v ∧ t = s.push v ∧ τ = σ := by
  cases o with
  | none => exact ⟨nofun, nofun⟩
  | some v =>
    constructor
    · intro went
      cases went
      exact ⟨v, rfl, rfl, rfl⟩
    · rintro ⟨w, same, rfl, rfl⟩
      cases same
      rfl

theorem Scene.load_iff {slot : Nat} :
    s.load σ slot = .go t τ ↔ ∃ v, s.locals[slot]?.join = some v ∧ t = s.push v ∧ τ = σ := by
  unfold Scene.load
  rw [← Scene.fetch_iff]
  cases s.locals[slot]? with
  | none => exact ⟨nofun, nofun⟩
  | some v =>
    cases v with
    | none => exact ⟨nofun, nofun⟩
    | some v => exact Iff.rfl

theorem Cell.Loads.turn_iff (loads : cell.Loads i) :
    s.turn σ i = .go t τ ↔ ∃ v, s.held? cell = some v ∧ t = s.after [v] 1 ∧ τ = σ := by
  obtain ⟨kind, scope, index⟩ := cell
  obtain ⟨op, operand, small⟩ := i
  obtain ⟨rfl, same⟩ := loads
  cases scope with
  | args =>
    obtain rfl : operand = index := same nofun
    cases kind with
    | rest => exact Scene.fetch_iff (s := s.past ⟨.restArg, operand, small⟩) (o := some _)
    | value => exact Scene.fetch_iff (s := s.past ⟨.arg, operand, small⟩)
    | reference => exact Scene.fetch_iff (s := s.past ⟨.arg, operand, small⟩)
  | locals =>
    obtain rfl : operand = index := same nofun
    exact Scene.load_iff (s := s.past ⟨.load, operand, small⟩)
  | captured =>
    obtain rfl : operand = index := same nofun
    exact Scene.fetch_iff (s := s.past ⟨.capture, operand, small⟩)
  | current => exact Scene.fetch_iff (s := s.past ⟨.current, operand, small⟩) (o := some _)

theorem Scene.turns_cons {code : List Instruction} :
    s.turns σ (i :: code) = .go t τ ↔ ∃ u υ, s.turn σ i = .go u υ ∧ u.turns υ code = .go t τ := by
  rw [Scene.turns]
  cases s.turn σ i with
  | go u υ =>
    constructor
    · exact fun went => ⟨u, υ, rfl, went⟩
    · rintro ⟨_, _, ⟨⟩, went⟩
      exact went
  | _ =>
    constructor
    · intro went
      cases went
    · rintro ⟨_, _, ⟨⟩, _⟩

theorem Scene.turns_append {first rest : List Instruction} :
    s.turns σ (first ++ rest) = .go t τ ↔ ∃ u υ, s.turns σ first = .go u υ ∧ u.turns υ rest = .go t τ := by
  induction first generalizing s σ with
  | nil =>
    constructor
    · exact fun went => ⟨s, σ, rfl, went⟩
    · rintro ⟨_, _, ⟨⟩, went⟩
      exact went
  | cons i first ih =>
    simp only [List.cons_append, Scene.turns_cons, ih]
    constructor
    · rintro ⟨u, υ, turned, v, χ, others, went⟩
      exact ⟨v, χ, ⟨u, υ, turned, others⟩, went⟩
    · rintro ⟨v, χ, ⟨u, υ, turned, others⟩, went⟩
      exact ⟨u, υ, turned, v, χ, others, went⟩

theorem turns_loads {cells : List Cell} {code : List Instruction} (loads : List.Forall₂ Cell.Loads cells code) :
    s.turns σ code = .go t τ ↔ ∃ vs, List.Forall₂ (fun cell v => s.held? cell = some v) cells vs ∧
      t = s.after vs.reverse code.length ∧ τ = σ := by
  induction loads generalizing s with
  | nil =>
    constructor
    · intro went
      cases went
      exact ⟨[], .nil, rfl, rfl⟩
    · rintro ⟨_, ⟨⟩, rfl, rfl⟩
      rfl
  | @cons cell i cells code first rest ih =>
    rw [Scene.turns_cons]
    constructor
    · rintro ⟨u, υ, pushed, went⟩
      obtain ⟨v, held, rfl, rfl⟩ := first.turn_iff.mp pushed
      obtain ⟨vs, others, rfl, rfl⟩ := ih.mp went
      refine ⟨v :: vs, .cons held others, ?_, rfl⟩
      rw [Scene.after_after, List.reverse_cons, List.length_cons, Nat.add_comm]
    · rintro ⟨_, held, rfl, rfl⟩
      obtain ⟨v, vs, here, others, rfl⟩ := List.forall₂_cons_left_iff.mp held
      refine ⟨_, _, first.turn_iff.mpr ⟨v, here, rfl, rfl⟩, ih.mpr ⟨vs, others, ?_, rfl⟩⟩
      rw [Scene.after_after, List.reverse_cons, List.length_cons, Nat.add_comm]

end

/-! ### Names around -/

section

variable {name : String} {b c : Body} {around : List Body} {cell : Cell}

theorem binding_congr (scopes : c.scopes = b.scopes) (same : c.name = b.name) :
    Binding name (c :: around) cell ↔ Binding name (b :: around) cell := by
  have held : c.scoped? name = b.scoped? name := by rw [Body.scoped?, scopes, Body.scoped?]
  cases bound : b.scoped? name with
  | some own => rw [binding_of_scoped (held.trans bound), binding_of_scoped bound]
  | none =>
    by_cases named : b.name = some name
    · rw [binding_of_named (held.trans bound) (same.trans named), binding_of_named bound named]
    · rw [binding_of_free (held.trans bound) (same ▸ named), binding_of_free bound named]

end

namespace Workshop

variable {w x : Workshop} {name : String} {cell : Cell}

theorem Orderly.sound (h : w.Orderly) : ∀ v : Workshop, v.body :: v.around <:+ w.body :: w.around → v.Sound :=
  fun v inside => (h v inside).toSound

/-- What can be seen stays the same as names are captured. -/
theorem Orderly.visible?_of_stays (h : w.Orderly) (later : x.Orderly) (stays : w.Stays x) :
    Body.visible? (x.body :: x.around) name = Body.visible? (w.body :: w.around) name := by
  ext kind
  rw [visible?_iff later.sound, visible?_iff h.sound, stays.around]
  simp only [binding_congr stays.scopes stays.name]

theorem visible?_of_cell? (found : w.cell? name = some cell) :
    Body.visible? (w.body :: w.around) name = some cell.capturedKind := by
  unfold cell? at found
  unfold Body.visible?
  cases here : w.body.lexical? name with
  | some own =>
    rw [here] at found
    cases found
    rfl
  | none =>
    rw [here] at found
    obtain ⟨kind, seen, rfl⟩ := Option.map_eq_some_iff.mp found
    exact seen.trans (congrArg some (Body.capturedKind_seen seen).symm)

/-- A name that was found is found in the same place as others are captured. -/
theorem Grows.finds (grows : w.Grows x) (scopes : x.body.scopes = w.body.scopes) (sound : x.Sound)
    (found : w.body.Finds name cell) : x.body.Finds name cell := by
  have held : x.body.scoped? name = w.body.scoped? name := by rw [Body.scoped?, scopes, Body.scoped?]
  cases found with
  | scope here => exact .scope (held.trans here)
  | captured unscoped here => exact .captured (held.trans unscoped) (getElem?_of_longer grows.captured here)
  | own unscoped _ here =>
    refine .own (held.trans unscoped) (fun member => ?_) (grows.name.trans here)
    obtain ⟨entry, inside, rfl⟩ := List.mem_map.mp member
    exact sound.unnamed entry inside (grows.name.trans here)

theorem Resolves.finds (resolves : w.Resolves name (some cell) x) : x.body.Finds name cell := by
  cases resolves with
  | found here => exact here
  | captures absent bound =>
    refine .captured ?_ List.getElem?_concat_length
    cases here : w.body.scoped? name with
    | some own => exact absurd (.scope here) (absent own)
    | none => exact here

theorem Orderly.reach (h : w.Orderly) (name : String) : (w.reach name).Orderly :=
  Step.orderly (.resolve (Encode.resolve_iff.mpr ⟨rfl, rfl⟩)) h

theorem Orderly.emit (h : w.Orderly) (i : Instruction) : (w.emit i).Orderly :=
  h.congr ⟨rfl, rfl, rfl, rfl, rfl, rfl⟩

/-- The cells of names that were captured further in, and the code that loads them. -/
structure Fetches (w x : Workshop) (captured : List (String × CellKind)) (cells : List Cell)
    (code : List Instruction) : Prop where
  stays : w.Stays x
  orderly : x.Orderly
  emitted : x.body.code = w.body.code ++ code
  loads : List.Forall₂ Cell.Loads cells code
  finds : List.Forall₂ (fun entry cell => x.body.Finds entry.1 cell ∧ cell.capturedKind = entry.2) captured cells

/-- What can be seen can be loaded, one name after another. -/
theorem Orderly.fetches (h : w.Orderly) {captured : List (String × CellKind)}
    (visible : ∀ entry ∈ captured, Body.visible? (w.body :: w.around) entry.1 = some entry.2) :
    Grants ((captured.map Prod.fst).forM Compile.loadCaptured) w fun _ x =>
      ∃ cells code, w.Fetches x captured cells code := by
  induction captured generalizing w with
  | nil => exact .pure ⟨[], [], .refl w, h, (List.append_nil _).symm, .nil, .nil⟩
  | cons entry captured ih =>
    obtain ⟨seen, others⟩ := List.forall_mem_cons.mp visible
    obtain ⟨cell, found⟩ := Compile.cell?_of_visible (Option.isSome_iff_exists.mpr ⟨_, seen⟩)
    have kind : cell.capturedKind = entry.2 := Option.some.inj ((visible?_of_cell? found).symm.trans seen)
    have resolves := h.resolve_iff.mp (Encode.resolve_iff.mpr ⟨found.symm, rfl⟩)
    refine Grants.bind (P := fun _ x => ∃ i, cell.Loads i ∧ x = (w.reach entry.1).emit i) ?_ fun _ u _ loaded => ?_
    · refine (Encode.grants_resolve entry.1).bind fun own x _ resolved => ?_
      obtain ⟨rfl, rfl⟩ := resolved
      rw [found]
      exact Encode.grants_loadRaw cell
    · obtain ⟨i, loads, rfl⟩ := loaded
      have stays := (stays_reach (w := w) entry.1).trans (stays_emit i)
      have orderly := (h.reach entry.1).emit i
      refine (ih orderly fun other member =>
        (h.visible?_of_stays orderly stays).trans (others other member)).mono fun _ x _ fetches => ?_
      obtain ⟨cells, code, fetches⟩ := fetches
      have kept := (stays_emit i).trans fetches.stays
      have lasting := kept.toExtends.grows.finds kept.scopes fetches.orderly.kept.toSound resolves.finds
      refine ⟨cell :: cells, i :: code, stays.trans fetches.stays, fetches.orderly, ?_, .cons loads fetches.loads,
        .cons ⟨lasting, kind⟩ fetches.finds⟩
      have before : (w.reach entry.1).body.code = w.body.code := by
        unfold Workshop.reach
        split <;> rfl
      rw [fetches.emitted]
      simp [Workshop.emit, before]

/-! ### Closures -/

/-- Values for captured names, in the places that the body of the closure reads them from: each is what the
call that makes the closure has for the name. -/
structure Supplies (x : Workshop) (s : Scene) (captured : List (String × CellKind)) (q : Procedure Value)
    (vs : List Value) : Prop where
  length : vs.length = captured.length
  reads : ∀ {i : Nat} {name : String} {kind : CellKind}, captured[i]? = some (name, kind) →
    ∃ cell v, x.body.Finds name cell ∧ cell.capturedKind = kind ∧ s.held? cell = some v ∧ vs[i]? = some v ∧
      ∀ (u : Scene) (υ : Store) (h : i ≤ maxOperand), u.closure = ⟨q, vs⟩ →
        u.turn υ ⟨.capture, i, h⟩ = .go (u.after [v] 1) υ

/-- Code that makes closures of the procedure, when what it loads is there. -/
structure Encloses (w x : Workshop) (captured : List (String × CellKind)) (code : List Instruction)
    (q : Procedure Value) : Prop where
  emitted : x.body.code = w.body.code ++ code
  makes : ∀ {s t : Scene} {σ τ : Store}, x.body.constants <+: s.chunk.constants →
    (s.turns σ code = .go t τ ↔
      ∃ vs, x.Supplies s captured q vs ∧ t = s.after [.closure q vs] code.length ∧ τ = σ)

theorem supplies_iff {s : Scene} {captured : List (String × CellKind)} {q : Procedure Value} {vs : List Value}
    {cells : List Cell} (sound : x.Sound)
    (finds : List.Forall₂ (fun entry cell => x.body.Finds entry.1 cell ∧ cell.capturedKind = entry.2)
      captured cells) :
    x.Supplies s captured q vs ↔ List.Forall₂ (fun cell v => s.held? cell = some v) cells vs := by
  have lengths := finds.length_eq
  constructor
  · rintro ⟨length, reads⟩
    refine List.forall₂_iff_get.mpr ⟨by omega, fun i inside _ => ?_⟩
    have here : captured[i]? = some captured[i] := List.getElem?_eq_getElem (lengths ▸ inside)
    obtain ⟨cell, v, found, -, held, place, -⟩ := reads here
    have first : x.body.Finds captured[i].1 cells[i] := (finds.get (lengths ▸ inside) inside).1
    rw [← Body.lexical?_iff sound.distinct] at found first
    obtain rfl := Option.some.inj (found.symm.trans first)
    obtain ⟨_, rfl⟩ := List.getElem?_eq_some_iff.mp place
    exact held
  · intro held
    have length := held.length_eq
    refine ⟨by omega, fun {i name kind} here => ?_⟩
    obtain ⟨inside, entry⟩ := List.getElem?_eq_some_iff.mp here
    obtain ⟨found, last⟩ := finds.get inside (lengths ▸ inside)
    have value := held.get (lengths ▸ inside) (length ▸ lengths ▸ inside)
    have place : vs[i]? = some vs[i] := List.getElem?_eq_getElem _
    simp only [List.get_eq_getElem, entry] at found last
    refine ⟨_, _, found, last, value, place, fun u υ h closure => ?_⟩
    have loads : Cell.Loads ⟨kind, .captured, i⟩ ⟨.capture, i, h⟩ := ⟨rfl, fun _ => rfl⟩
    refine loads.turn_iff.mpr ⟨_, ?_, rfl, rfl⟩
    rw [Scene.held?, closure]
    exact place

end Workshop

theorem pooled_procedure (constants : List Value) (p : Procedure Value) :
    ∃ q, pooled constants (.procedure p) = .procedure q ∧ (Value.procedure q == .procedure p) = true := by
  have same := pooled_same constants (.procedure p)
  cases found : pooled constants (.procedure p) with
  | procedure q => exact ⟨q, rfl, found ▸ same⟩
  | _ =>
    rw [found] at same
    cases same

theorem Scene.turns_makeClosure {s : Scene} {k : Nat} {q : Procedure Value} {vs : List Value}
    (found : s.chunk.constants[k]? = some (.procedure q)) (h : k ≤ maxOperand) (g : vs.length ≤ maxOperand) (m : Nat)
    (σ : Store) : (s.after vs m).turns σ [⟨.const, k, h⟩, ⟨.makeClosure, vs.length, g⟩] =
      .go (s.after [.closure q vs] (m + 2)) σ := by
  rw [Scene.turns, Scene.turn_const (s := s.after vs m) found]
  dsimp only
  rw [Scene.turns, Scene.turn_makeClosure rfl]
  simp [Scene.turns, Scene.after, Nat.add_assoc]

namespace Workshop

variable {w x : Workshop}

/-- The code that loads captured names, and then makes the closure. -/
theorem Fetches.encloses {u : Workshop} {captured : List (String × CellKind)} {cells : List Cell}
    {code : List Instruction} (fetches : w.Fetches u captured.reverse cells code) {p q : Procedure Value}
    (pool : pooled u.body.constants (.procedure p) = .procedure q) (small : u.place (.procedure p) ≤ maxOperand)
    (fits : captured.length ≤ maxOperand) :
    w.Encloses ((u.emitConst (.procedure p) small).emit ⟨.makeClosure, captured.length, fits⟩) captured
      (code ++ [⟨.const, u.place (.procedure p), small⟩, ⟨.makeClosure, captured.length, fits⟩]) q := by
  have stays := (stays_emitConst (w := u) (.procedure p) small).trans (stays_emit ⟨.makeClosure, captured.length, fits⟩)
  have sound := stays.sound fetches.orderly.kept.toSound
  have finds := fetches.finds.imp fun entry cell found =>
    And.imp_left (stays.toExtends.grows.finds stays.scopes sound) found
  rw [← List.forall₂_reverse_iff, List.reverse_reverse] at finds
  refine ⟨?_, fun {s t σ τ} pooled => ?_⟩
  · show (u.body.code ++ [_]) ++ [_] = _
    rw [fetches.emitted]
    simp
  · have place := pooled_place u.body.constants (.procedure p)
    rw [pool] at place
    have constant : s.chunk.constants[u.place (.procedure p)]? = some (.procedure q) :=
      getElem?_of_longer pooled place
    have made {vs : List Value} (length : vs.length = captured.length) :
        (s.after vs code.length).turns σ
            [⟨.const, u.place (.procedure p), small⟩, ⟨.makeClosure, captured.length, fits⟩] =
          .go (s.after [.closure q vs] (code.length + 2)) σ := by
      simp only [← length]
      exact Scene.turns_makeClosure constant small (length ▸ fits) _ σ
    rw [Scene.turns_append, List.length_append]
    constructor
    · rintro ⟨_, _, loaded, went⟩
      obtain ⟨vs, held, rfl, rfl⟩ := (turns_loads fetches.loads).mp loaded
      rw [← List.forall₂_reverse_iff] at held
      have supplies := (supplies_iff (q := q) sound finds).mpr held
      rw [made supplies.length] at went
      cases went
      exact ⟨_, supplies, rfl, rfl⟩
    · rintro ⟨vs, supplies, rfl, rfl⟩
      have held := (supplies_iff sound finds).mp supplies
      refine ⟨_, _, (turns_loads fetches.loads).mpr ⟨vs.reverse, ?_, rfl, rfl⟩, ?_⟩
      · rwa [← List.forall₂_reverse_iff, List.reverse_reverse]
      · rw [List.reverse_reverse, made supplies.length]
        rfl

/-- Closures are made of what was captured further in. -/
theorem Orderly.encloses (h : w.Orderly) {captured : List (String × CellKind)}
    (visible : ∀ entry ∈ captured, Body.visible? (w.body :: w.around) entry.1 = some entry.2)
    (p : Procedure Value) :
    Grants (Compile.enclose p (captured.map Prod.fst)) w fun _ x =>
      ∃ code q, (Value.procedure q == .procedure p) = true ∧ w.Encloses x captured code q := by
  have seen : ∀ entry ∈ captured.reverse, Body.visible? (w.body :: w.around) entry.1 = some entry.2 :=
    fun entry member => visible entry (List.mem_reverse.mp member)
  unfold Compile.enclose
  rw [← List.map_reverse, List.length_map]
  refine (h.fetches seen).bind fun _ u _ fetched => ?_
  obtain ⟨cells, code, fetches⟩ := fetched
  refine (Encode.emitConst_grants _).bind fun _ y _ pooling => ?_
  obtain ⟨small, rfl⟩ := pooling
  refine (Encode.grants_emitWith _ _).mono fun _ x _ emitted => ?_
  obtain ⟨fits, rfl⟩ := emitted
  obtain ⟨q, pool, same⟩ := pooled_procedure u.body.constants p
  exact ⟨_, q, same, fetches.encloses pool small fits⟩

/-- At any time the open scopes are those that were entered and not left, with what was bound in them. The slots
of their locals are taken once and are among those of the body, the next one is free, and the innermost scope can
be left, after which the scopes, the next slot and the cells of names are as before it was entered. A name is
resolved to the nearest cell there is for it. What was captured is captured once, stays in its place, and is at
hand in the body around, which makes closures of it. -/
theorem Reached.lexical {past : List History} (reached : Reached past w) :
    List.Forall₂ Follows (w.body :: w.around) past ∧
    (∀ b ∈ w.body :: w.around, b.slots.Nodup ∧ (∀ slot ∈ b.slots, slot < b.localCount) ∧
      b.nextLocal = b.slots.length ∧ b.nextLocal ∉ b.slots) ∧
    (∃ x, Yields Encode.popScope w () x) ∧
    (∀ kind inside x, Matched inside → w.Runs (.push kind :: inside ++ [.pop]) x →
      x.body.scopes = w.body.scopes ∧ x.body.nextLocal = w.body.nextLocal ∧
        ∀ name cell, w.body.Finds name cell → x.body.Finds name cell) ∧
    (∀ name, (∃ cell x, Yields (Encode.resolve name) w cell x) ∧
      ∀ cell x, Yields (Encode.resolve name) w cell x ↔ w.Resolves name cell x) ∧
    (w.body.captured.map Prod.fst).Nodup ∧
    (∀ qs x, w.Runs qs x → w.body.captured <+: x.body.captured) ∧
    ∀ name qs y, (w.child name).Runs qs y → ∀ store,
      (∀ entry ∈ y.body.captured, ∃ cell x,
        Yields (Encode.resolve entry.1) { w with store } (some cell) x ∧ cell.capturedKind = entry.2) ∧
      ∀ p, Grants (Compile.enclose p (y.body.captured.map Prod.fst)) { w with store } fun _ x =>
        ∃ code q, (Value.procedure q == .procedure p) = true ∧
          Encloses { w with store } x y.body.captured code q := by
  have orderly := reached.orderly
  refine ⟨reached.follows, fun b inside => ?_, ⟨_, orderly.kept.pops⟩, fun kind inside x matched runs => ?_,
    fun name => ⟨⟨_, _, Encode.resolve_iff.mpr ⟨rfl, rfl⟩⟩, fun cell x => orderly.resolve_iff⟩,
    orderly.kept.distinct, fun qs x runs => (runs.orderly orderly).2.captured, fun name qs y runs store => ?_⟩
  · obtain ⟨v, rfl, chain⟩ : ∃ v : Workshop, v.body = b ∧ v.body :: v.around <:+ w.body :: w.around := by
      obtain ⟨before, around, split⟩ := List.append_of_mem inside
      exact ⟨⟨⟨0, {}, b, around⟩, {}⟩, rfl, before, split.symm⟩
    have kept := orderly v chain
    have below : ∀ slot ∈ v.body.slots, slot < v.body.nextLocal := by
      intro slot member
      rw [kept.slots] at member
      exact List.mem_range.mp (List.mem_reverse.mp member)
    refine ⟨?_, fun slot member => Nat.lt_of_lt_of_le (below slot member) kept.count, kept.length_slots.symm,
      fun taken => Nat.lt_irrefl _ (below _ taken)⟩
    rw [kept.slots]
    exact List.nodup_reverse.mpr List.nodup_range
  · obtain ⟨scopes, next⟩ := runs.restores matched orderly
    obtain ⟨later, grows⟩ := runs.orderly orderly
    exact ⟨scopes, next, fun name cell found => grows.finds scopes later.kept.toSound found⟩
  · obtain ⟨inner, grows⟩ := runs.orderly (orderly.child name)
    have visible : ∀ entry ∈ y.body.captured, Body.visible? (w.body :: w.around) entry.1 = some entry.2 := by
      intro entry member
      have seen := inner.kept.visible entry member
      rwa [grows.around] at seen
    have same : Orderly { w with store } := orderly.congr ⟨rfl, rfl, rfl, rfl, rfl, rfl⟩
    refine ⟨fun entry member => ?_, same.encloses visible⟩
    have seen := visible entry member
    obtain ⟨cell, found⟩ := Compile.cell?_of_visible (w := { w with store }) (Option.isSome_iff_exists.mpr ⟨_, seen⟩)
    exact ⟨cell, _, Encode.resolve_iff.mpr ⟨found.symm, rfl⟩,
      Option.some.inj ((visible?_of_cell? found).symm.trans seen)⟩

/-- A name in a scope for locals. -/
def withLocal : Workshop :=
  ((Workshop.top 0 {} {}).enter { kind := .locals }).bindLocal "x" .value

/-- A scope further in with a name of its own was left, and its slot went to another name, behind a reference. -/
def withLocals : Workshop :=
  ((withLocal.enter { kind := .locals }).bindLocal "y" .value).leave.bindLocal "r" .reference

theorem reached_withLocal : Reached [⟨none, [.push .locals, .bindLocal "x" .value]⟩] withLocal := by
  have entered : Reached [⟨none, [.push .locals]⟩] ((Workshop.top 0 {} {}).enter { kind := .locals }) :=
    .step (.top 0 {} {}) (.push (Encode.pushScope_iff (u := ()).mpr rfl))
  exact .step entered (.bindLocal ⟨_, _, rfl, rfl⟩ (Encode.bindLocal_iff.mpr ⟨⟨_, _, rfl, rfl⟩, rfl, rfl⟩))

theorem runs_withLocal : withLocal.Runs [.push .locals, .bindLocal "y" .value, .pop]
    ((withLocal.enter { kind := .locals }).bindLocal "y" .value).leave := by
  have entered : withLocal.Runs [.push .locals] (withLocal.enter { kind := .locals }) :=
    .single (.push (Encode.pushScope_iff (u := ()).mpr rfl))
  have bound : withLocal.Runs [.push .locals, .bindLocal "y" .value]
      ((withLocal.enter { kind := .locals }).bindLocal "y" .value) :=
    entered.snoc (.bindLocal ⟨_, _, rfl, rfl⟩ (Encode.bindLocal_iff.mpr ⟨⟨_, _, rfl, rfl⟩, rfl, rfl⟩))
  exact bound.snoc (.pop (bound.orderly reached_withLocal.orderly).1.kept.pops)

theorem reached_withLocals : Reached [⟨none, [.push .locals, .bindLocal "x" .value, .push .locals,
    .bindLocal "y" .value, .pop, .bindLocal "r" .reference]⟩] withLocals :=
  .step (reached_withLocal.runs runs_withLocal)
    (.bindLocal ⟨_, _, rfl, rfl⟩ (Encode.bindLocal_iff.mpr ⟨⟨_, _, rfl, rfl⟩, rfl, rfl⟩))

theorem lexical_withLocals :
    (∃ x, Yields (Encode.resolve "r") (withLocals.child none) (some ⟨.reference, .captured, 0⟩) x) ∧
      (∃ x, Yields (Encode.resolve "y") (withLocals.child none) none x) ∧
      ((withLocal.enter { kind := .locals }).bindLocal "y" .value).leave.body.scopes = withLocal.body.scopes ∧
      withLocals.body.scopes =
        [⟨.locals, [("r", ⟨.reference, .locals, 1⟩), ("x", ⟨.value, .locals, 0⟩)]⟩] ∧
      ∀ p, Grants (Compile.enclose p ["r", "x"]) (withLocals.child none) fun _ x =>
        ∃ code q, (Value.procedure q == .procedure p) = true ∧
          Encloses (withLocals.child none) x [("r", .reference), ("x", .value)] code q := by
  have reached := Reached.child reached_withLocals none
  obtain ⟨follows, -, -, -, resolves, -, -, children⟩ := reached.lexical
  obtain ⟨-, -, -, restores, -⟩ := reached_withLocal.lexical
  obtain ⟨⟨-, scopes⟩, -⟩ := List.forall₂_cons.mp (List.forall₂_cons.mp follows).2
  let inner := (withLocals.child none).child (some "self")
  have runs : inner.Runs [.resolve "r", .resolve "x"] ((inner.reach "r").reach "x") :=
    (Runs.single (.resolve (Encode.resolve_iff.mpr ⟨rfl, rfl⟩))).snoc (.resolve (Encode.resolve_iff.mpr ⟨rfl, rfl⟩))
  have absent (name : String) : ∀ own, ¬(withLocals.child none).body.Finds name own :=
    (Body.lexical?_eq_none_iff (by decide)).mp (by rfl)
  have bound : Binding "r" (withLocals.child none).around ⟨.reference, .locals, 1⟩ := .scope rfl
  have matched : Matched [.bindLocal "y" .value] := .cons trivial .nil
  refine ⟨⟨_, ((resolves "r").2 _ _).mpr (.captures (absent "r") bound)⟩,
    ⟨_, ((resolves "y").2 _ _).mpr (.global (absent "y") fun cell bound => ?_)⟩,
    (restores .locals _ _ matched runs_withLocal).1, scopes, (children _ _ _ runs {}).2⟩
  cases bound with
  | scope here => cases here
  | own _ here => cases here
  | around _ _ beyond => cases beyond

end Workshop

/-! ### What the compiler asks for -/

namespace Workshop

/-- The second workshop comes of requests to the first one that leave each scope they enter. -/
def Asks (w x : Workshop) : Prop :=
  w.Orderly → ∃ qs, Matched qs ∧ w.Runs qs x

variable {w u x : Workshop} {name : String}

theorem Asks.refl (w : Workshop) : w.Asks w :=
  fun _ => ⟨[], .nil, .nil⟩

theorem Asks.trans (h : w.Asks u) (g : u.Asks x) : w.Asks x := by
  intro orderly
  obtain ⟨first, left, before⟩ := h orderly
  obtain ⟨later, right, after⟩ := g (before.orderly orderly).1
  exact ⟨first ++ later, left.append right, before.trans after⟩

theorem Step.asks {q : Request} (step : w.Step q x) (within : q.Within) : w.Asks x :=
  fun _ => ⟨[q], .cons within .nil, .single step⟩

theorem Keeps.asks (keeps : w.Keeps x) : w.Asks x :=
  (Step.emit keeps).asks trivial

theorem asks_emit (i : Instruction) : w.Asks (w.emit i) :=
  Keeps.asks ⟨rfl, rfl, rfl, rfl, rfl, rfl⟩

theorem asks_emitAll (is : List Instruction) : w.Asks (w.emitAll is) :=
  Keeps.asks ⟨rfl, rfl, rfl, rfl, rfl, rfl⟩

theorem asks_emitConst (v : Value) (h : w.place v ≤ maxOperand) : w.Asks (w.emitConst v h) :=
  Keeps.asks ⟨rfl, rfl, rfl, rfl, rfl, rfl⟩

theorem asks_store (store : Store) : w.Asks { w with store } :=
  Keeps.asks ⟨rfl, rfl, rfl, rfl, rfl, rfl⟩

theorem asks_label : w.Asks w.label :=
  Keeps.asks ⟨rfl, rfl, rfl, rfl, rfl, rfl⟩

theorem asks_labels (n : Nat) : w.Asks (w.labels n) := by
  induction n generalizing w with
  | zero => exact .refl w
  | succ n ih => exact asks_label.trans ih

theorem asks_reach (name : String) : w.Asks (w.reach name) :=
  Step.asks (.resolve (Encode.resolve_iff.mpr ⟨rfl, rfl⟩)) trivial

/-- What is asked for in a scope, between entering and leaving it. -/
theorem Asks.scope {kind : ScopeKind} (inside : (w.enter { kind }).Asks x) : w.Asks x.leave := by
  intro orderly
  have entered : w.Runs [.push kind] (w.enter { kind }) := .single (.push (Encode.pushScope_iff (u := ()).mpr rfl))
  obtain ⟨qs, matched, runs⟩ := inside (entered.orderly orderly).1
  have before := entered.trans runs
  exact ⟨_, .scope matched .nil, before.snoc (.pop (before.orderly orderly).1.kept.pops)⟩

theorem asks_bindLocal (inside : w.InScope .locals) (admits : w.Admits name) {kind : CellKind} :
    w.Asks (w.bindLocal name kind) :=
  Step.asks (.bindLocal inside (Encode.bindLocal_iff.mpr ⟨admits, rfl, rfl⟩)) trivial

theorem asks_bindArgs {cells bound : List (String × Cell)} (args : ∀ entry ∈ cells, entry.2.scope = .args)
    (distinct : ((cells ++ bound).map Prod.fst).Nodup) :
    (w.enter ⟨.args, bound⟩).Asks (w.enter ⟨.args, cells.reverse ++ bound⟩) := by
  induction cells generalizing bound with
  | nil => exact .refl _
  | cons entry cells ih =>
    obtain ⟨name, kind, scope, index⟩ := entry
    obtain ⟨first, others⟩ := List.forall_mem_cons.mp args
    obtain rfl : scope = .args := first
    obtain ⟨absent, rest⟩ := List.nodup_cons.mp distinct
    have free : bound.lookup name = none := by
      refine List.lookup_eq_none_iff.mpr fun other member => bne_iff_ne.mpr fun same => absent ?_
      exact List.mem_map.mpr ⟨other, List.mem_append_right _ member, same.symm⟩
    have bind : (w.enter ⟨.args, bound⟩).Asks (w.enter ⟨.args, (name, ⟨kind, .args, index⟩) :: bound⟩) :=
      Step.asks (.bindArg ⟨_, _, rfl, rfl⟩ (Encode.bindArg_iff.mpr ⟨⟨_, _, rfl, free⟩, rfl, rfl⟩)) trivial
    rw [List.reverse_cons, List.append_assoc]
    refine bind.trans (ih others ?_)
    exact (List.perm_middle.map Prod.fst).nodup_iff.mpr distinct

theorem InScope.opens {kind : ScopeKind} (h : w.InScope kind) (opens : w.Opens x) : x.InScope kind := by
  obtain ⟨s, others, scopes, same⟩ := h
  obtain ⟨more, now, -⟩ := opens.scopes scopes
  exact ⟨_, _, now, same⟩

end Workshop

/-- Expressions under an open scope are emitted where a scope for locals is open. -/
def Phrase.Fits : Phrase → Workshop → Prop
  | .opened _, w => w.InScope .locals
  | _, _ => True

theorem Clause.cells_args (c : Clause) : ∀ entry ∈ c.cells, entry.2.scope = .args := by
  intro entry member
  rcases List.mem_append.mp member with fixed | rest
  · obtain ⟨_, -, rfl⟩ := List.mem_map.mp fixed
    rfl
  · obtain ⟨_, -, rfl⟩ := List.mem_map.mp rest
    rfl

open Workshop

/-- All that the compiler emits comes of such requests: locals are bound in scopes for locals, and parameters
in scopes for them. -/
theorem Emits.asks {w x : Workshop} {ph : Phrase} (h : Emits w ph x) (fits : ph.Fits w) : w.Asks x := by
  induction h with
  | literal pushes =>
    rcases literal_adds pushes with ⟨i, -, rfl⟩ | ⟨h, rfl⟩
    · exact asks_emit i
    · exact asks_emitConst _ h
  | const h => exact asks_emitConst _ h
  | name found plain loads => exact (asks_reach _).trans (asks_emit _)
  | through found reference loads => exact ((asks_reach _).trans (asks_emit _)).trans (asks_emit _)
  | later h => exact (asks_emitConst _ h).trans (asks_emit _)
  | seq before after ihBefore ihAfter => exact ((ihBefore trivial).trans (asks_emit _)).trans (ihAfter trivial)
  | branch consequent done tests fails holds ihTest ihNo ihYes =>
    refine .trans ?_ (asks_emit _)
    refine .trans ?_ (((asks_emit _).trans (asks_emit _)).trans (ihYes trivial))
    refine .trans ?_ ((asks_emit _).trans (ihNo trivial))
    exact (asks_label.trans asks_label).trans (ihTest trivial)
  | scope inside ih => exact (ih ⟨_, _, rfl, rfl⟩).scope
  | define bound h g ih =>
    exact (((ih trivial).trans (asks_emitConst _ h)).trans (asks_emit _)).trans (asks_emitConst _ g)
  | mention which h g => exact ((asks_emitConst _ h).trans (asks_emit _)).trans (asks_emitConst _ g)
  | call operands operator calls ihArgs ihHead =>
    exact ((ihArgs trivial).trans (ihHead trivial)).trans (asks_emit _)
  | intrinsic operands ih => exact (ih trivial).trans (asks_emitAll _)
  | constant inner alone built h ih => exact (asks_store _).trans (asks_emitConst _ h)
  | closure inner some built loads h count ihInner ihLoads =>
    exact (((asks_store _).trans (ihLoads trivial)).trans (asks_emitConst _ h)).trans (asks_emit _)
  | @bind w u z x value rest bound admits h after ihValue ihRest =>
    have here : u.InScope .locals := fits.opens (Stays.opens bound.leaves)
    refine (((ihValue trivial).trans (asks_bindLocal here admits)).trans (asks_emit _)).trans (ihRest ?_)
    exact here.opens (opens_bindLocal.trans (stays_emit _).opens)
  | fresh admits h after ih =>
    refine (((asks_bindLocal fits admits).trans (asks_emit _)).trans (asks_emit _)).trans (ih ?_)
    exact fits.opens (opens_bindLocal.trans ((stays_emit _).trans (stays_emit _)).opens)
  | fill filled found reference loads after ihValue ihRest =>
    refine (((ihValue trivial).trans (asks_emit _)).trans (asks_emit _)).trans (ihRest ?_)
    exact fits.opens (Stays.trans filled.leaves ((stays_emit _).trans (stays_emit _))).opens
  | last inside ih => exact ih trivial
  | none => exact .refl _
  | more others first ihOthers ihFirst => exact (ihOthers trivial).trans (ihFirst trivial)
  | loaded => exact .refl _
  | load found loads others ih => exact ((asks_reach _).trans (asks_emit _)).trans (ih trivial)
  | @clause w x c body distinct inside ih =>
    have named : ((c.cells ++ []).map Prod.fst).Nodup := by rwa [List.append_nil]
    have args : (w.enter ⟨.args, []⟩).Asks _ := asks_bindArgs c.cells_args named
    rw [List.append_nil] at args
    exact ((args.trans (ih trivial)).trans (asks_emit _)).scope
  | caseNone => exact .refl _
  | caseMore h first others ihFirst ihOthers =>
    exact ((asks_emit _).trans (ihFirst trivial)).trans (ihOthers trivial)
  | single only ih => exact ih trivial
  | several many tests message h arms ih =>
    refine .trans ?_ (((asks_emitConst _ h).trans (asks_emit _)).trans (ih trivial))
    exact (asks_labels _).trans (asks_emitAll _)

/-- The encoder of an inner body is reached from that of the body around. -/
theorem Workshop.Reached.inner {past : List History} {w u : Workshop} (reached : Reached past w)
    {name : Option String} {cs : Clauses} {bodies : List Expr} (emits : Emits (w.child name) (.body cs bodies) u) :
    ∃ qs, Matched qs ∧ (w.child name).Runs qs u ∧ Reached (⟨name, qs⟩ :: past) u := by
  have child := reached.child name
  obtain ⟨qs, matched, runs⟩ := emits.asks trivial child.orderly
  exact ⟨qs, matched, runs, child.runs runs⟩

end StackLisp
