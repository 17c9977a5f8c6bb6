import StackLisp.Proofs.Attaining
import StackLisp.Proofs.Fair

/-!
Scenes in emitted code. Where the code of an expression starts, every name in scope has its value in the place
that the code reads it from; what is captured and the closure itself stand behind the names in scope.
-/

namespace StackLisp

open Workshop

/-! ### Names -/

theorem lookup_zip {names : List String} (distinct : names.Nodup) {x : String} {i : Nat}
    (here : names[i]? = some x) (vs : List Value) : (names.zip vs).lookup x = vs[i]? := by
  induction names generalizing vs i with
  | nil => cases here
  | cons y names ih =>
    obtain ⟨absent, distinct⟩ := List.nodup_cons.mp distinct
    cases vs with
    | nil => rfl
    | cons v vs =>
      cases i with
      | zero =>
        obtain rfl := Option.some.inj here
        simp
      | succ i =>
        have other : (x == y) = false := by
          refine beq_eq_false_iff_ne.mpr ?_
          rintro rfl
          exact absent (List.mem_of_getElem? here)
        rw [List.zip_cons_cons, List.lookup_cons, other]
        exact ih distinct here vs

/-- A cell in scope is an argument or one of the slots in use, which is filled. -/
def Cell.Settled (c : Cell) (count : Nat) (s : Scene) : Prop :=
  c.scope = .args ∨ c.scope = .locals ∧ c.index < count ∧ (s.held? c).isSome

/-- A workshop from which on more was added to a body. -/
structure Workshop.Precedes (w x : Workshop) : Prop where
  code : w.body.code <+: x.body.code
  captured : w.body.captured <+: x.body.captured
  name : x.body.name = w.body.name
  locals : w.body.localCount ≤ x.body.localCount

namespace Workshop

variable {w u x : Workshop}

theorem Precedes.refl (w : Workshop) : w.Precedes w :=
  ⟨List.prefix_refl _, List.prefix_refl _, rfl, Nat.le_refl _⟩

theorem Precedes.trans (h : w.Precedes u) (g : u.Precedes x) : w.Precedes x :=
  ⟨h.code.trans g.code, h.captured.trans g.captured, g.name.trans h.name, Nat.le_trans h.locals g.locals⟩

theorem Extends.precedes (h : w.Extends x) (locals : w.body.localCount ≤ x.body.localCount) : w.Precedes x :=
  ⟨h.code, h.captured, h.name, locals⟩

theorem precedes_emit (i : Instruction) : w.Precedes (w.emit i) :=
  (stays_emit i).toExtends.precedes (Nat.le_refl _)

theorem precedes_emitAll (is : List Instruction) : w.Precedes (w.emitAll is) :=
  (stays_emitAll is).toExtends.precedes (Nat.le_refl _)

theorem precedes_emitConst (v : Value) (h : w.place v ≤ maxOperand) : w.Precedes (w.emitConst v h) :=
  (stays_emitConst v h).toExtends.precedes (Nat.le_refl _)

theorem precedes_bindLocal (name : String) (kind : CellKind) : w.Precedes (w.bindLocal name kind) :=
  opens_bindLocal.toExtends.precedes (writes_bindLocal name kind).locals

theorem precedes_leave : w.Precedes w.leave := by
  have kept : w.leave.stage = w.stage := stage_leave w
  refine ⟨?_, captured_leave w ▸ List.prefix_refl _, ?_, (congrArg Stage.localCount kept).ge⟩
  · rw [show w.leave.body.code = w.body.code from congrArg Stage.code kept]
  · unfold leave
    rw [body_alter]
    split <;> rfl

end Workshop

theorem Emits.extends {w x : Workshop} {ph : Phrase} (h : Emits w ph x) : w.Extends x := by
  have leaves := h.leaves
  cases ph with
  | opened e => exact Opens.toExtends leaves
  | _ => exact Stays.toExtends leaves

theorem Emits.precedes {w x : Workshop} {ph : Phrase} (h : Emits w ph x) : w.Precedes x :=
  h.extends.precedes h.writes.locals

/-- The code of a lambda as it is run: the body in the end, the procedure that runs it, and how it is read. -/
structure Script where
  reading : Reading
  procedure : Procedure Value
  lambda : Lambda
  final : Workshop
  sound : final.Sound
  distinct : (Chunk.labelsOf final.body.code).Nodup
  name : lambda.name = final.body.name
  captures : lambda.captures = final.body.captured.map Prod.fst
  regular : reading.Regular
  literal : ∀ {σ : Store} {s : Scene} {i : Instruction} {v : Value}, s.closure.procedure = procedure →
    i.op = .const → lambda.literals[s.pc]? = some (some v) → reading.turn σ s i = .go (s.after [v] 1) σ

/-- A scene that came of another in the same call: it has this stack at this address, and the first slots are as
they were. -/
structure Scene.Became (s t : Scene) (stack : List Value) (kept pc : Nat) : Prop where
  chunk : t.chunk = s.chunk
  closure : t.closure = s.closure
  args : t.args = s.args
  stack : t.stack = stack
  pc : t.pc = pc
  slots : t.locals.length = s.locals.length
  locals : ∀ k < kept, t.locals[k]? = s.locals[k]?

namespace Scene

variable {s t u : Scene} {stack more : List Value} {kept less pc next : Nat}

theorem Became.trans (h : s.Became t stack less pc) (g : t.Became u more kept next) (fewer : less ≤ kept) :
    s.Became u more less next where
  chunk := g.chunk.trans h.chunk
  closure := g.closure.trans h.closure
  args := g.args.trans h.args
  stack := g.stack
  pc := g.pc
  slots := g.slots.trans h.slots
  locals k inside := (g.locals k (Nat.lt_of_lt_of_le inside fewer)).trans (h.locals k inside)

theorem became_with (s : Scene) (stack : List Value) (kept pc : Nat) :
    s.Became { s with stack, pc } stack kept pc :=
  ⟨rfl, rfl, rfl, rfl, rfl, rfl, fun _ _ => rfl⟩

theorem became_after (s : Scene) (vs : List Value) (n kept : Nat) :
    s.Became (s.after vs n) (vs ++ s.stack) kept (s.pc + n) :=
  s.became_with _ _ _

theorem Became.held? (h : s.Became t stack kept pc) {cell : Cell}
    (inside : cell.scope = .locals → cell.index < kept) : t.held? cell = s.held? cell := by
  obtain ⟨kind, scope, index⟩ := cell
  cases scope with
  | locals =>
    simp only [Scene.held?]
    rw [h.locals index (inside rfl)]
  | args => cases kind <;> simp only [Scene.held?, h.args]
  | captured => simp only [Scene.held?, h.closure]
  | current => simp only [Scene.held?, h.closure]

end Scene

namespace Script

variable (S : Script)

/-- What the code sees around the names in scope. -/
def outer (c : Closure) : Environment :=
  S.lambda.outer c.value c.captured

/-- Names in scope have the values that the environment gives them, and others have theirs around it. -/
structure Shows (w : Workshop) (s : Scene) (env : Environment) : Prop where
  bound : ∀ {x : String} {cell : Cell}, w.body.scoped? x = some cell →
    s.held? cell = env.lookup x ∧ cell.Settled w.body.nextLocal s
  free : ∀ {x : String}, w.body.scoped? x = none → env.lookup x = (S.outer s.closure).lookup x

/-- The scene runs the code, and is where the workshop is. -/
structure Stands (w : Workshop) (s : Scene) : Prop where
  own : s.closure.procedure = S.procedure
  chunk : s.chunk = S.final.chunk
  pc : s.pc = w.body.code.length
  slots : S.final.body.localCount ≤ s.locals.length

/-- The scene stands there with the names in scope. -/
structure Poised (w : Workshop) (s : Scene) (env : Environment) : Prop extends S.Stands w s where
  shows : S.Shows w s env

/-- The code that is emitted from the workshop on is for these literals. -/
def Spells (w : Workshop) (entries : List (Option Value)) : Prop :=
  entries <+: S.lambda.literals.drop w.body.code.length

variable {S} {w x : Workshop} {s t : Scene} {env : Environment} {stack : List Value} {cell : Cell} {name : String}
  {kept pc : Nat}

theorem lookup_outer_captured {i : Nat} {kind : CellKind} (here : S.final.body.captured[i]? = some (name, kind))
    (c : Closure) : (S.outer c).lookup name = c.captured[i]? := by
  have place : S.lambda.captures[i]? = some name := by rw [S.captures, List.getElem?_map, here]; rfl
  have distinct : S.lambda.captures.Nodup := S.captures ▸ S.sound.distinct
  have unnamed : S.lambda.name ≠ some name := S.name ▸ S.sound.unnamed _ (List.mem_of_getElem? here)
  unfold outer Lambda.outer
  rw [List.lookup_append, lookup_zip distinct place]
  have free : (S.lambda.name.toList.map fun x => (x, c.value)).lookup name = none := by
    cases own : S.lambda.name with
    | none => rfl
    | some y =>
      have other : (name == y) = false := by
        refine beq_eq_false_iff_ne.mpr ?_
        rintro rfl
        exact unnamed own
      simp [List.lookup_cons, other]
  rw [free, Option.none_or]

theorem lookup_outer_own (named : S.final.body.name = some name) (c : Closure) :
    (S.outer c).lookup name = some c.value := by
  unfold outer Lambda.outer
  rw [S.name, named]
  simp

theorem Shows.finds (h : S.Shows w s env) (precedes : x.Precedes S.final) (scopes : x.body.scopes = w.body.scopes)
    (finds : x.body.Finds name cell) :
    s.held? cell = env.lookup name ∧
      (cell.scope = .locals → cell.index < w.body.nextLocal ∧ (s.held? cell).isSome) := by
  have same : x.body.scoped? name = w.body.scoped? name := by rw [Body.scoped?, scopes, Body.scoped?]
  cases finds with
  | scope here =>
    obtain ⟨held, settled⟩ := h.bound (same ▸ here)
    refine ⟨held, fun locals => ?_⟩
    rcases settled with args | ⟨-, inside⟩
    · cases args.symm.trans locals
    · exact inside
  | @captured i kind unscoped here =>
    refine ⟨?_, fun locals => by cases locals⟩
    rw [h.free (same ▸ unscoped), lookup_outer_captured (getElem?_of_longer precedes.captured here)]
    rfl
  | own unscoped _ here =>
    refine ⟨?_, fun locals => by cases locals⟩
    rw [h.free (same ▸ unscoped), lookup_outer_own (precedes.name.trans here)]
    rfl

/-- What is in the first slots and outside of them stays where it is. -/
theorem Shows.became (h : S.Shows w s env) (became : s.Became t stack kept pc) (fewer : w.body.nextLocal ≤ kept)
    (scopes : x.body.scopes = w.body.scopes) (next : x.body.nextLocal = w.body.nextLocal) : S.Shows x t env where
  bound {y cell} here := by
    rw [Body.scoped?, scopes, ← Body.scoped?] at here
    obtain ⟨held, settled⟩ := h.bound here
    have same : t.held? cell = s.held? cell := became.held? fun locals => by
      rcases settled with args | ⟨-, inside, -⟩
      · cases args.symm.trans locals
      · exact Nat.lt_of_lt_of_le inside fewer
    refine ⟨same.trans held, ?_⟩
    unfold Cell.Settled
    rw [same, next]
    exact settled
  free {y} unscoped := by
    rw [Body.scoped?, scopes, ← Body.scoped?] at unscoped
    rw [became.closure]
    exact h.free unscoped

theorem Stands.became (h : S.Stands w s) (became : s.Became t stack kept x.body.code.length) : S.Stands x t where
  own := (congrArg Closure.procedure became.closure).trans h.own
  chunk := became.chunk.trans h.chunk
  pc := became.pc
  slots := became.slots ▸ h.slots

theorem Poised.became (h : S.Poised w s env) (became : s.Became t stack w.body.nextLocal x.body.code.length)
    (stays : w.Stays x) : S.Poised x t env :=
  ⟨h.toStands.became became, h.shows.became became (Nat.le_refl _) stays.scopes stays.nextLocal⟩

theorem Spells.append {first rest : List (Option Value)} (writes : w.Writes x first)
    (h : S.Spells w (first ++ rest)) : S.Spells w first ∧ S.Spells x rest := by
  obtain ⟨others, whole⟩ := h
  refine ⟨⟨rest ++ others, by rw [← whole, List.append_assoc]⟩, others, ?_⟩
  rw [writes.length, ← List.drop_drop, ← whole, List.append_assoc, List.drop_left]

section

variable {n : Nat} {σ : Store} {ws : List Waiting} {i : Instruction}

theorem Stands.here (h : S.Stands w s) (precedes : (w.emit i).Precedes S.final) : s.chunk.code[s.pc]? = some i := by
  rw [h.chunk, h.pc]
  exact getElem?_of_longer precedes.code List.getElem?_concat_length

theorem Stands.step (h : S.Stands w s) (precedes : (w.emit i).Precedes S.final) (plain : i.op ≠ .const) :
    Play.step S.reading ⟨σ, .running s, ws⟩ = Play.follow σ ws (s.turn σ i) := by
  rw [Play.step_running (h.here precedes), S.regular plain]

theorem Stands.pushes {v : Value} (h : S.Stands w s) (writes : w.Writes x [some v]) (precedes : x.Precedes S.final)
    (spells : S.Spells w [some v]) :
    S.reading.Leads ⟨σ, .running s, ws⟩ ⟨σ, .running (s.after [v] 1), ws⟩ := by
  obtain ⟨code, emitted, each⟩ := writes.code
  obtain ⟨i, none, spelled, rest, rfl⟩ := List.forall₂_cons_right_iff.mp each
  obtain rfl := List.forall₂_nil_right_iff.mp rest
  have here : s.chunk.code[s.pc]? = some i := by
    rw [h.chunk, h.pc]
    exact getElem?_of_longer precedes.code (emitted ▸ List.getElem?_concat_length)
  refine .step ?_
  rw [Play.step_running here]
  have entry : S.lambda.literals[s.pc]? = some (some v) := by
    have first := getElem?_of_longer (n := 0) spells rfl
    rwa [List.getElem?_drop, Nat.add_zero, ← h.pc] at first
  have turned : S.reading.turn σ s i = .go (s.after [v] 1) σ := by
    cases spelled with
    | own plain gives => rw [S.regular plain, gives]
    | pooled small found same => exact S.literal h.own rfl entry
  rw [turned]
  rfl

end

end Script

namespace Scene

variable {s : Scene}

/-- The scene at the next address, with this on its stack. -/
def holding (s : Scene) (stack : List Value) : Scene :=
  { s with stack, pc := s.pc + 1 }

theorem became_holding (s : Scene) (stack : List Value) (kept : Nat) : s.Became (s.holding stack) stack kept (s.pc + 1) :=
  s.became_with _ _ _

theorem turn_of_stack (taken : List Value) {rest : List Value} {i : Instruction} (stack : s.stack = taken ++ rest)
    (count : i.pops = taken.length) (σ : Store) : s.turn σ i = (s.holding rest).act σ i taken := by
  unfold turn past holding
  rw [stack, count, List.take_left, List.drop_left]

/-- The play goes on in the same call, where this is on the stack and the first slots are as they were. -/
def Onward (s : Scene) (stack : List Value) (kept pc : Nat) (d : Doing) : Prop :=
  ∃ t, d = .running t ∧ s.Became t stack kept pc

theorem Became.onward {t : Scene} {stack more : List Value} {less kept pc next : Nat} {d : Doing}
    (h : s.Became t stack less pc) (onward : t.Onward more kept next d) (fewer : less ≤ kept) :
    s.Onward more less next d := by
  obtain ⟨u, rfl, became⟩ := onward
  exact ⟨u, rfl, h.trans became fewer⟩

end Scene

end StackLisp
