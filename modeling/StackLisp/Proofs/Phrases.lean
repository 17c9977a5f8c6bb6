import StackLisp.Proofs.Inlined
import StackLisp.Proofs.Scripts

/-!
Expressions and their code. A play that is where the code of an expression starts, with a value for every name
in scope, comes to what the expression means, and leaves the value on top of what was there.
-/

namespace StackLisp

open Workshop

section

variable {r : Reading} {n : Nat} {ws : List Waiting} {σ : Store} {s : Scene}

theorem Attains.giveResult (f : Store → Except Fault Value) :
    Attains r n ws (Play.follow σ ws (s.giveResult σ (f σ))) (fun v d => d = .running (s.push v))
      (Meaning.read f σ) := by
  unfold Meaning.read
  cases f σ with
  | ok v => exact .pure rfl
  | error f => exact .fault (.refl r _)

theorem Attains.keep (f : Store → Except Fault Store) :
    Attains r n ws (Play.follow σ ws (s.keep (f σ))) (fun _ d => d = .running s) (Meaning.write f σ) := by
  unfold Meaning.write
  cases f σ with
  | ok τ => exact .value (.refl r _) rfl
  | error f => exact .fault (.refl r _)

theorem Cell.Loads.turn_none {cell : Cell} {i : Instruction} (loads : cell.Loads i) (missing : s.held? cell = none)
    (elsewhere : cell.scope ≠ .locals) : s.turn σ i = .breach .outOfRange := by
  obtain ⟨kind, scope, index⟩ := cell
  obtain ⟨op, operand, small⟩ := i
  obtain ⟨rfl, same⟩ := loads
  cases scope with
  | args =>
    obtain rfl : operand = index := same (ne_of_beq_false rfl)
    cases kind with
    | rest => cases missing
    | value => exact congrArg (Scene.fetch σ (s.past ⟨.arg, operand, small⟩)) missing
    | reference => exact congrArg (Scene.fetch σ (s.past ⟨.arg, operand, small⟩)) missing
  | locals => exact absurd rfl elsewhere
  | captured =>
    obtain rfl : operand = index := same (ne_of_beq_false rfl)
    exact congrArg (Scene.fetch σ (s.past ⟨.capture, operand, small⟩)) missing
  | current => cases missing

theorem Cell.Loads.attains {cell : Cell} {i : Instruction} {env : Environment} {x : String} (loads : cell.Loads i)
    (held : s.held? cell = env.lookup x) (filled : cell.scope = .locals → (s.held? cell).isSome) :
    Attains r n ws (Play.follow σ ws (s.turn σ i)) (fun v d => d = .running (s.after [v] 1))
      (Meaning.look env x σ) := by
  unfold Meaning.look
  rw [← held]
  cases found : s.held? cell with
  | some v =>
    rw [loads.turn_iff.mpr ⟨v, found, rfl, rfl⟩]
    exact .pure rfl
  | none =>
    rw [loads.turn_none found fun locals => by simpa [found] using filled locals]
    exact .breach (.refl r _)

end

namespace Script

variable (S : Script)

def globals : NamespaceId :=
  S.final.encoder.globals

/-- The scene is poised where the workshop is, and has come of another in the same call, with this on its stack and
the first slots as they were there. -/
structure Along (s : Scene) (kept : Nat) (w : Workshop) (t : Scene) (env : Environment) (stack : List Value) : Prop
    extends S.Poised w t env where
  became : s.Became t stack kept w.body.code.length
  fewer : kept ≤ w.body.nextLocal

/-- From one workshop to the next the code comes to an evaluation, and leaves operands for what this comes to. -/
def Comes (n : Nat) (ws : List Waiting) (w x : Workshop) {α : Type} (operands : α → List Value)
    (m : Environment → Meaning α) : Prop :=
  ∀ ⦃s : Scene⦄ ⦃kept : Nat⦄ ⦃t : Scene⦄ ⦃σ : Store⦄ ⦃env : Environment⦄ ⦃stack : List Value⦄,
    S.Along s kept w t env stack → Attains S.reading n ws ⟨σ, .running t, ws⟩
      (fun a => s.Onward (operands a ++ stack) kept x.body.code.length) (m env σ)

variable {S} {n : Nat} {ws : List Waiting} {w u x : Workshop} {s t : Scene} {kept : Nat} {σ τ : Store}
  {env : Environment} {stack rest taken : List Value} {i : Instruction} {α β : Type} {operands : α → List Value}
  {R : β → Doing → Prop}

theorem Poised.along (h : S.Poised w s env) : S.Along s w.body.nextLocal w s env s.stack where
  toPoised := h
  became := h.pc ▸ s.became_with s.stack _ s.pc
  fewer := Nat.le_refl _

theorem Along.became_of (h : S.Along s kept w t env stack) {more : List Value} {u : Scene}
    (later : t.Became u more w.body.nextLocal x.body.code.length) (stays : w.Stays x) :
    S.Along s kept x u env more where
  toPoised := h.toPoised.became later stays
  became := h.became.trans later h.fewer
  fewer := stays.nextLocal ▸ h.fewer

/-- After code that came to a value the rest is run. -/
theorem Along.comes (h : S.Along s kept w t env stack) {m : Environment → Meaning α}
    (comes : S.Comes n ws w x operands m) (stays : w.Stays x) {f : α → Meaning β}
    (next : ∀ {a : α} {u : Scene} {τ : Store}, S.Along s kept x u env (operands a ++ stack) →
      Attains S.reading n ws ⟨τ, .running u, ws⟩ R (f a τ)) :
    Attains S.reading n ws ⟨σ, .running t, ws⟩ R ((m env >>= f) σ) := by
  refine .bind (comes h.toPoised.along) ?_
  rintro a d τ ⟨u, rfl, became⟩
  rw [h.became.stack] at became
  exact next (h.became_of became stays)

theorem Stands.globals (h : S.Stands w s) : s.chunk.globals = S.globals := by
  rw [h.chunk]
  rfl

theorem Stands.holding (h : S.Stands w s) (i : Instruction) (stack : List Value) (kept : Nat) :
    s.Became (s.holding stack) stack kept (w.emit i).body.code.length := by
  have length : (w.emit i).body.code.length = s.pc + 1 := by
    rw [h.pc]
    exact List.length_append
  rw [length]
  exact s.became_holding stack kept

theorem Along.ends (h : S.Along s kept w t env stack) (stacked : α → List Value)
    (precedes : (w.emit i).Precedes S.final) (plain : i.op ≠ .const) {m : Meaning α}
    (acts : Attains S.reading n ws (Play.follow σ ws (t.turn σ i))
      (fun a d => d = .running (t.holding (stacked a))) (m σ)) :
    Attains S.reading n ws ⟨σ, .running t, ws⟩
      (fun a => s.Onward (stacked a) kept (w.emit i).body.code.length) (m σ) := by
  refine (acts.after (.step (h.step precedes plain))).mono ?_
  rintro a d rfl
  exact ⟨_, rfl, h.became.trans (h.holding i (stacked a) _) (Nat.le_refl _)⟩

/-- After an instruction that came to a value the rest is run. -/
theorem Along.acts (h : S.Along s kept w t env stack) (stacked : α → List Value)
    (precedes : (w.emit i).Precedes S.final) (plain : i.op ≠ .const) {m : Meaning α}
    (acts : Attains S.reading n ws (Play.follow σ ws (t.turn σ i))
      (fun a d => d = .running (t.holding (stacked a))) (m σ))
    {f : α → Meaning β} (next : ∀ {a : α} {u : Scene} {τ : Store}, S.Along s kept (w.emit i) u env (stacked a) →
      Attains S.reading n ws ⟨τ, .running u, ws⟩ R (f a τ)) :
    Attains S.reading n ws ⟨σ, .running t, ws⟩ R ((m >>= f) σ) := by
  refine .bind (acts.after (.step (h.step precedes plain))) ?_
  rintro a d τ rfl
  exact next (h.became_of (h.holding i (stacked a) _) (stays_emit i))

/-- The same for an instruction that evaluates nothing. -/
theorem Along.goes (h : S.Along s kept w t env stack) (more : List Value) (precedes : (w.emit i).Precedes S.final)
    (plain : i.op ≠ .const) (goes : t.turn σ i = .go (t.holding more) τ) {o : Option (Except Stop β × Store)}
    (next : ∀ {u : Scene}, S.Along s kept (w.emit i) u env more → Attains S.reading n ws ⟨τ, .running u, ws⟩ R o) :
    Attains S.reading n ws ⟨σ, .running t, ws⟩ R o := by
  refine .after (next (h.became_of (h.holding i more _) (stays_emit i))) (.step ?_)
  rw [h.step precedes plain, goes]
  rfl

theorem Along.pushes {v : Value} (h : S.Along s kept w t env stack) (writes : w.Writes x [some v])
    (stays : w.Stays x) (precedes : x.Precedes S.final) (spells : S.Spells w [some v])
    {o : Option (Except Stop β × Store)}
    (next : ∀ {u : Scene}, S.Along s kept x u env (v :: stack) → Attains S.reading n ws ⟨σ, .running u, ws⟩ R o) :
    Attains S.reading n ws ⟨σ, .running t, ws⟩ R o := by
  have became : t.Became (t.after [v] 1) (v :: stack) w.body.nextLocal x.body.code.length := by
    rw [writes.length, ← h.pc, ← h.became.stack]
    exact t.became_after [v] 1 _
  exact .after (next (h.became_of became stays)) (h.toStands.pushes writes precedes spells)

/-- Steps of the compiler that add no code and leave the names as they are. -/
theorem Along.quiet (h : S.Along s kept w t env stack) (stays : w.Stays x) (code : x.body.code = w.body.code) :
    S.Along s kept x t env stack := by
  refine h.became_of ?_ stays
  rw [code, ← h.pc, ← h.became.stack]
  exact t.became_with t.stack _ t.pc

end Script

/-- A name has its cell in the body once it is captured if need be. -/
theorem Workshop.finds_reach {w : Workshop} {x : String} {cell : Cell}
    (distinct : (w.body.captured.map Prod.fst).Nodup) (found : w.cell? x = some cell) :
    (w.reach x).body.Finds x cell := by
  unfold cell? at found
  unfold reach
  cases own : w.body.lexical? x with
  | some other =>
    rw [own] at found
    obtain rfl := Option.some.inj found
    exact (Body.lexical?_iff distinct).mp own
  | none =>
    rw [own] at found
    obtain ⟨kind, seen, rfl⟩ := Option.map_eq_some_iff.mp found
    rw [seen]
    exact .captured (lexical?_eq_none own).1 List.getElem?_concat_length

theorem Cell.Loads.ne_const {cell : Cell} {i : Instruction} (loads : cell.Loads i) : i.op ≠ .const := by
  rw [loads.1]
  obtain ⟨kind, scope, index⟩ := cell
  cases scope <;> cases kind <;> exact ne_of_beq_false rfl

theorem Workshop.code_reach (w : Workshop) (x : String) : (w.reach x).body.code = w.body.code := by
  unfold reach
  split <;> rfl

namespace Script

variable {S : Script} {n : Nat} {ws : List Waiting} {w u x z : Workshop} {s t : Scene} {kept : Nat} {σ τ : Store}
  {env : Environment} {stack : List Value} {call : Value → List Value → Meaning Value} {y : String}
  {first second third : Expr} {α β : Type} {R : β → Doing → Prop}

/-- An expression between two workshops. -/
abbrev Evaluates (S : Script) (n : Nat) (ws : List Waiting) (call : Value → List Value → Meaning Value)
    (w x : Workshop) (e : Expr) : Prop :=
  S.Comes n ws w x (fun v => [v]) (e.meaning S.globals call)

theorem comes_literal {v : Value} (writes : w.Writes x [some v]) (stays : w.Stays x) (precedes : x.Precedes S.final)
    (spells : S.Spells w [some v]) : S.Evaluates n ws call w x (.literal v) := by
  intro s kept t σ env stack along
  rw [Expr.meaning]
  refine along.pushes writes stays precedes spells fun {u} there => ?_
  exact .pure ⟨u, rfl, there.became⟩

theorem Along.finds {cell : Cell} (h : S.Along s kept w t env stack) (precedes : (w.reach y).Precedes S.final)
    (found : w.cell? y = some cell) :
    t.held? cell = env.lookup y ∧ (cell.scope = .locals → (t.held? cell).isSome) := by
  have stays := stays_reach (w := w) y
  have distinct : (w.body.captured.map Prod.fst).Nodup :=
    S.sound.distinct.sublist ((stays.captured.trans precedes.captured).sublist.map Prod.fst)
  obtain ⟨held, filled⟩ := h.shows.finds precedes stays.scopes (finds_reach distinct found)
  exact ⟨held, fun locals => (filled locals).2⟩

theorem Along.looks {cell : Cell} {i : Instruction} (h : S.Along s kept w t env stack)
    (precedes : ((w.reach y).emit i).Precedes S.final) (found : w.cell? y = some cell) (loads : cell.Loads i)
    {f : Value → Meaning β}
    (next : ∀ {v : Value} {u : Scene} {τ : Store}, S.Along s kept ((w.reach y).emit i) u env (v :: stack) →
      Attains S.reading n ws ⟨τ, .running u, ws⟩ R (f v τ)) :
    Attains S.reading n ws ⟨σ, .running t, ws⟩ R ((Meaning.look env y >>= f) σ) := by
  obtain ⟨held, filled⟩ := h.finds ((precedes_emit i).trans precedes) found
  have there := h.quiet (stays_reach y) (code_reach w y)
  refine there.acts (fun v => v :: stack) precedes loads.ne_const ?_ next
  rw [← h.became.stack]
  exact loads.attains held filled

theorem comes_name {cell : Cell} {i : Instruction} (precedes : ((w.reach y).emit i).Precedes S.final)
    (found : w.cell? y = some cell) (loads : cell.Loads i) :
    S.Evaluates n ws call w ((w.reach y).emit i) (.name y) := by
  intro s kept t σ env stack along
  rw [Expr.meaning, ← bind_pure (Meaning.look env y)]
  exact along.looks precedes found loads fun {v u τ} there => .pure ⟨u, rfl, there.became⟩

theorem comes_through {cell : Cell} {i : Instruction}
    (precedes : (((w.reach y).emit i).emit Opcode.deref.bare).Precedes S.final)
    (found : w.cell? y = some cell) (loads : cell.Loads i) :
    S.Evaluates n ws call w (((w.reach y).emit i).emit Opcode.deref.bare) (.through y) := by
  intro s kept t σ env stack along
  rw [Expr.meaning]
  refine along.looks ((precedes_emit _).trans precedes) found loads fun {v u τ} there => ?_
  refine there.ends (fun a => a :: stack) precedes (ne_of_beq_false rfl) ?_
  rw [Scene.turn_of_stack [v] there.became.stack rfl]
  exact .giveResult fun σ => v.ref?.bind σ.deref

theorem comes_later (h : w.place (.symbol y) ≤ maxOperand)
    (precedes : ((w.emitConst (.symbol y) h).emit Opcode.resolve.bare).Precedes S.final)
    (spells : S.Spells w [some (.symbol y), none]) :
    S.Evaluates n ws call w ((w.emitConst (.symbol y) h).emit Opcode.resolve.bare) (.later y) := by
  intro s kept t σ env stack along
  rw [Expr.meaning]
  have writes := writes_emitConst (w := w) (.symbol y) h
  refine along.pushes writes (stays_emitConst _ h) ((precedes_emit _).trans precedes)
    (spells.append writes).1 fun {u} there => ?_
  refine there.ends (fun a => a :: stack) precedes (ne_of_beq_false rfl) ?_
  rw [Scene.turn_of_stack [.symbol y] there.became.stack rfl, ← there.globals]
  exact .giveResult (·.resolve u.chunk.globals y)

theorem comes_seq (stays : w.Stays u) (precedes : (u.emit Opcode.pop.bare).Precedes S.final)
    (before : S.Evaluates n ws call w u first)
    (after : S.Evaluates n ws call (u.emit Opcode.pop.bare) x second) :
    S.Evaluates n ws call w x (.seq first second) := by
  intro s kept t σ env stack along
  rw [Expr.meaning]
  refine along.comes before stays fun {v u τ} there => ?_
  refine there.goes stack precedes (ne_of_beq_false rfl) ?_ fun {u} ready => after ready
  rw [Scene.turn_of_stack [v] there.became.stack rfl]
  rfl

theorem Along.jumps {i : Instruction} {label : Nat} {small : label ≤ maxOperand}
    {o : Option (Except Stop β × Store)} (h : S.Along s kept w t env stack) (rest : List Value)
    (precedes : (w.emit i).Precedes S.final)
    (plain : i.op ≠ .const) (turned : t.turn σ i = (t.holding rest).goTo σ label) (stays : w.Stays x)
    (anchors : (x.emit ⟨.label, label, small⟩).Precedes S.final)
    (next : ∀ {u : Scene}, S.Along s kept (x.emit ⟨.label, label, small⟩) u env rest →
      Attains S.reading n ws ⟨σ, .running u, ws⟩ R o) :
    Attains S.reading n ws ⟨σ, .running t, ws⟩ R o := by
  have anchored : Chunk.anchor? (t.holding rest).chunk.code label = some x.body.code.length := by
    refine (congrArg (fun c => Chunk.anchor? c.code label) h.chunk).trans ?_
    exact (Chunk.anchor?_eq_some_iff S.distinct).mpr
      ⟨_, getElem?_of_longer anchors.code List.getElem?_concat_length, rfl, rfl⟩
  have lands : Play.step S.reading ⟨σ, .running t, ws⟩ =
      ⟨σ, .running { t with stack := rest, pc := x.body.code.length }, ws⟩ := by
    rw [h.step precedes plain, turned, Scene.goTo_of_anchor anchored]
    rfl
  have there : S.Along s kept x _ env rest := h.became_of (t.became_with rest _ _) stays
  exact .after (there.goes rest anchors (ne_of_beq_false rfl) rfl next) (.step lands)

theorem comes_branch {no yes : Workshop} {one two : Nat} {small : one ≤ maxOperand} {less : two ≤ maxOperand}
    (precedes : (yes.emit ⟨.label, two, less⟩).Precedes S.final) (tests : S.Evaluates n ws call w.label.label u first)
    (fails : S.Evaluates n ws call (u.emit ⟨.condJump, one, small⟩) no third)
    (holds : S.Evaluates n ws call ((no.emit ⟨.jump, two, less⟩).emit ⟨.label, one, small⟩) yes second)
    (stays : w.label.label.Stays u) (failing : (u.emit ⟨.condJump, one, small⟩).Stays no)
    (holding : ((no.emit ⟨.jump, two, less⟩).emit ⟨.label, one, small⟩).Stays yes)
    (begins : ((no.emit ⟨.jump, two, less⟩).emit ⟨.label, one, small⟩).Precedes S.final)
    (starts : (u.emit ⟨.condJump, one, small⟩).Precedes S.final) :
    S.Evaluates n ws call w (yes.emit ⟨.label, two, less⟩) (.branch first second third) := by
  intro s kept t σ env stack along
  rw [Expr.meaning]
  have labelled := along.quiet (stays_label.trans stays_label) rfl
  refine labelled.comes tests stays fun {v t τ} tested => ?_
  have turned : t.turn τ ⟨.condJump, one, small⟩ =
      if v.holds then (t.holding stack).goTo τ one else .go (t.holding stack) τ :=
    Scene.turn_of_stack [v] tested.became.stack rfl τ
  by_cases truth : v.holds
  · rw [if_pos truth] at turned ⊢
    refine tested.jumps stack starts (ne_of_beq_false rfl) turned
      (((stays_emit _).trans failing).trans (stays_emit _)) begins fun {u} there => ?_
    rw [← bind_pure (second.meaning _ _ _)]
    refine there.comes holds holding fun {a u τ} done => ?_
    exact done.goes (a :: stack) precedes (ne_of_beq_false rfl) (by rw [Scene.turn_of_stack [] done.became.stack rfl]; rfl)
      fun {u} last => .pure ⟨u, rfl, last.became⟩
  · rw [if_neg truth] at turned ⊢
    refine tested.goes stack starts (ne_of_beq_false rfl) turned fun {u} there => ?_
    rw [← bind_pure (third.meaning _ _ _)]
    refine there.comes fails failing fun {a u τ} done => ?_
    refine done.jumps (a :: stack) ((precedes_emit _).trans begins) (ne_of_beq_false rfl) ?_
      (((stays_emit _).trans (stays_emit _)).trans holding) precedes fun {u} last => .pure ⟨u, rfl, last.became⟩
    rw [Scene.turn_of_stack [] done.became.stack rfl]
    rfl

theorem comes_define (stays : w.Stays u) (h : u.place (.symbol y) ≤ maxOperand)
    (g : ((u.emitConst (.symbol y) h).emit Opcode.bind.bare).place (.symbol y) ≤ maxOperand)
    (precedes : (((u.emitConst (.symbol y) h).emit Opcode.bind.bare).emitConst (.symbol y) g).Precedes S.final)
    (spells : S.Spells u [some (.symbol y), none, some (.symbol y)]) (bound : S.Evaluates n ws call w u first) :
    S.Evaluates n ws call w (((u.emitConst (.symbol y) h).emit Opcode.bind.bare).emitConst (.symbol y) g)
      (.define y first) := by
  intro s kept t σ env stack along
  rw [Expr.meaning]
  have named := writes_emitConst (w := u) (.symbol y) h
  have again := writes_emitConst (w := (u.emitConst (.symbol y) h).emit Opcode.bind.bare) (.symbol y) g
  obtain ⟨now, later⟩ := spells.append named
  have binds : ((u.emitConst (.symbol y) h).emit Opcode.bind.bare).Precedes S.final :=
    (precedes_emitConst _ g).trans precedes
  refine along.comes bound stays fun {v t τ} there => ?_
  refine there.pushes named (stays_emitConst _ h) ((precedes_emit _).trans binds) now fun {u} ready => ?_
  refine ready.acts (fun _ => stack) binds (ne_of_beq_false rfl) ?_ fun {_ u τ} bound => ?_
  · rw [Scene.turn_of_stack [.symbol y, v] ready.became.stack rfl, ← ready.globals]
    exact .keep (·.bind u.chunk.globals y v)
  · exact bound.pushes again (stays_emitConst _ g) precedes (later.append (writes_emit _)).2
      fun {u} last => .pure ⟨u, rfl, last.became⟩

theorem comes_mention {hidden : Bool} {op : Opcode} (which : op = if hidden then .hide else .declare)
    (h : w.place (.symbol y) ≤ maxOperand)
    (g : ((w.emitConst (.symbol y) h).emit op.bare).place (.symbol y) ≤ maxOperand)
    (precedes : (((w.emitConst (.symbol y) h).emit op.bare).emitConst (.symbol y) g).Precedes S.final)
    (spells : S.Spells w [some (.symbol y), none, some (.symbol y)]) :
    S.Evaluates n ws call w (((w.emitConst (.symbol y) h).emit op.bare).emitConst (.symbol y) g) (.mention hidden y) := by
  intro s kept t σ env stack along
  rw [Expr.meaning]
  have named := writes_emitConst (w := w) (.symbol y) h
  have again := writes_emitConst (w := (w.emitConst (.symbol y) h).emit op.bare) (.symbol y) g
  obtain ⟨now, later⟩ := spells.append named
  have mentions : ((w.emitConst (.symbol y) h).emit op.bare).Precedes S.final :=
    (precedes_emitConst _ g).trans precedes
  refine along.pushes named (stays_emitConst _ h) ((precedes_emit _).trans mentions) now fun {u} ready => ?_
  have plain : op.bare.op ≠ .const := by
    rw [which]
    cases hidden <;> exact ne_of_beq_false rfl
  refine ready.acts (fun _ => stack) mentions plain ?_ fun {_ u τ} mentioned => ?_
  · have count : op.bare.pops = 1 := by
      rw [which]
      cases hidden <;> rfl
    rw [Scene.turn_of_stack [.symbol y] ready.became.stack count, ← ready.globals, which]
    cases hidden
    · exact .keep fun σ => .ok (σ.declare u.chunk.globals y)
    · exact .keep fun σ => .ok (σ.hide u.chunk.globals y)
  · exact mentioned.pushes again (stays_emitConst _ g) precedes (later.append (writes_emit _)).2
      fun {u} last => .pure ⟨u, rfl, last.became⟩

/-! ### Calls -/

/-- Several expressions between two workshops, whose values stand in their order. -/
abbrev Gathers (S : Script) (n : Nat) (ws : List Waiting) (call : Value → List Value → Meaning Value)
    (w x : Workshop) (es : List Expr) : Prop :=
  S.Comes n ws w x id (Expr.meanings S.globals call es)

theorem comes_none : S.Gathers n ws call w w [] := by
  intro s kept t σ env stack along
  rw [Expr.meanings]
  exact .pure ⟨t, rfl, along.became⟩

theorem comes_more {es : List Expr} (stays : w.Stays u) (last : u.Stays x) (others : S.Gathers n ws call w u es)
    (head : S.Evaluates n ws call u x first) : S.Gathers n ws call w x (first :: es) := by
  intro s kept t σ env stack along
  rw [Expr.meanings]
  refine along.comes others stays fun {vs t τ} there => ?_
  exact there.comes head last fun {v u τ} all => .pure ⟨u, rfl, all.became⟩

end Script

theorem Attains.knowing {r : Reading} {n : Nat} {ws : List Waiting} {α : Type} {p : Play} {Q : α → Doing → Prop}
    {o : Option (Except Stop α × Store)} (h : Attains r n ws p Q o) {P : α → Prop}
    (known : ∀ {a τ}, o = some (.ok a, τ) → P a) : Attains r n ws p (fun a d => P a ∧ Q a d) o := by
  cases h with
  | lasts h => exact .lasts h
  | value leads h => exact .value leads ⟨known rfl, h⟩
  | fault leads => exact .fault leads
  | breach leads => exact .breach leads
  | crowd τ => exact .crowd τ

namespace Script

variable {S : Script} {n : Nat} {ws : List Waiting} {w u x z : Workshop} {s t : Scene} {kept : Nat} {σ τ : Store}
  {env : Environment} {stack : List Value} {call : Value → List Value → Meaning Value} {y : String}
  {first second third : Expr} {α β : Type} {R : β → Doing → Prop}

theorem Along.gathers {es : List Expr} (h : S.Along s kept w t env stack) (gathers : S.Gathers n ws call w x es)
    (stays : w.Stays x) {f : List Value → Meaning β}
    (next : ∀ {vs : List Value} {u : Scene} {τ : Store}, vs.length = es.length →
      S.Along s kept x u env (vs ++ stack) → Attains S.reading n ws ⟨τ, .running u, ws⟩ R (f vs τ)) :
    Attains S.reading n ws ⟨σ, .running t, ws⟩ R ((Expr.meanings S.globals call es env >>= f) σ) := by
  refine .bind ((gathers h.toPoised.along).knowing Expr.length_meanings) ?_
  rintro vs d τ ⟨count, u, rfl, became⟩
  rw [h.became.stack] at became
  exact next count (h.became_of became stays)

theorem comes_call {args : List Expr} {i : Instruction} (calls : Attained S.reading n call)
    (shape : Chunk.callShape? i = some (args.length, false)) (precedes : (x.emit i).Precedes S.final)
    (stays : w.Stays u) (later : u.Stays x) (operands : S.Gathers n ws call w u args)
    (operator : S.Evaluates n ws call u x first) : S.Evaluates n ws call w (x.emit i) (.call args first) := by
  intro s kept t σ env stack along
  rw [Expr.meaning]
  refine along.gathers operands stays fun {vs t τ} count there => ?_
  refine there.comes operator later fun {callee t τ} ready => ?_
  have plain : i.op ≠ .const := by
    intro const
    obtain ⟨op, operand, small⟩ := i
    obtain rfl : op = .const := const
    cases shape
  have counted : i.pops = (callee :: vs).length := by
    rw [(Chunk.callShape?_effect shape).1, List.length_cons, count, Nat.add_comm]
  have whole : t.stack = callee :: (vs ++ stack) := ready.became.stack
  have turned := Scene.turn_call shape τ whole
  rw [if_neg Bool.false_ne_true, List.take_left' count] at turned
  refine ready.ends (fun v => v :: stack) precedes plain ?_
  rw [turned]
  refine (calls callee vs τ (.resume (t.past i) :: ws)).resume.mono ?_
  rintro v d rfl
  have left : (t.past i).stack = stack := by
    change t.stack.drop i.pops = stack
    rw [whole, counted]
    exact List.drop_left
  rw [Scene.push, left]
  rfl

end Script

/-- Operations that leave one operand for those that they take. -/
structure Opcode.Reduces (op : Opcode) : Prop where
  pushes : op.effect.pushes = 1
  pops : op.effect.pops = 1 ∧ op ≠ .makeClosure ∨ op.effect.pops = 2

theorem Opcode.Combines.reduces {op : Opcode} {times count : Nat} (h : op.Combines times count) :
    op.Reduces ∧ count = 1 + times * (op.effect.pops - 1) := by
  obtain ⟨pushes, ⟨pops, other, rfl, rfl⟩ | ⟨pops, rfl⟩⟩ := h
  · exact ⟨⟨pushes, .inl ⟨pops, other⟩⟩, by rw [pops]⟩
  · exact ⟨⟨pushes, .inr pops⟩, by rw [pops, Nat.mul_one, Nat.add_comm]⟩

/-- An operation pushes what it makes of its operands, or calls for it. -/
theorem Opcode.Reduces.attains {r : Reading} {n : Nat} {ws : List Waiting} {call : Value → List Value → Meaning Value}
    {op : Opcode} (h : op.Reduces) (calls : Attained r n call) {s : Scene} (σ : Store) {taken rest : List Value}
    (stack : s.stack = taken ++ rest) (count : taken.length = op.effect.pops) :
    Attains r n ws (Play.follow σ ws (s.turn σ op.bare)) (fun v d => d = .running (s.holding (v :: rest)))
      (op.value s.chunk.globals call taken σ) := by
  have pops : op.bare.pops = taken.length := by
    rw [count, Instruction.pops, bare]
    split <;> rfl
  rw [Scene.turn_of_stack taken stack pops]
  obtain ⟨pushes, one | two⟩ := h
  · obtain ⟨v, rfl⟩ := List.length_eq_one_iff.mp (count.trans one.1)
    cases op with
    | deref => exact .giveResult fun σ => v.ref?.bind σ.deref
    | resolve => exact .giveResult fun σ => v.symbol?.bind (σ.resolve s.chunk.globals)
    | call0 | call => exact (calls v [] σ (.resume (s.holding rest) :: ws)).resume
    | neg => exact .giveResult fun _ => v.number?.map fun n => n.neg.value
    | not => exact .giveResult fun _ => .ok (.bool !v.holds)
    | car => exact .giveResult fun _ => v.car?
    | cdr => exact .giveResult fun _ => v.cdr?
    | empty => exact .giveResult fun _ => v.isEmpty?.map .bool
    | makeClosure => exact absurd rfl one.2
    | _ => simp [effect] at pushes one
  · obtain ⟨v, w, rfl⟩ := List.length_eq_two.mp (count.trans two)
    cases op with
    | call1 => exact (calls v [w] σ (.resume (s.holding rest) :: ws)).resume
    | eq => exact .giveResult fun _ => .ok (.bool (v == w))
    | add | sub | mul | div | mod | numEq | numLt | numLte | numGt | numGte | cons =>
      exact .giveResult fun _ => _
    | _ => simp [effect] at pushes two

namespace Script

variable {S : Script} {n : Nat} {ws : List Waiting} {w u x z : Workshop} {s t : Scene} {kept : Nat} {σ τ : Store}
  {env : Environment} {stack : List Value} {call : Value → List Value → Meaning Value} {y : String}
  {first second third : Expr} {α β : Type} {R : β → Doing → Prop}

theorem Along.repeats {op : Opcode} (reduces : op.Reduces) (calls : Attained S.reading n call) {times : Nat}
    {vs : List Value} (h : S.Along s kept w t env (vs ++ stack))
    (precedes : (w.emitAll (List.replicate times op.bare)).Precedes S.final)
    (count : vs.length = 1 + times * (op.effect.pops - 1)) {f : List Value → Meaning β}
    (next : ∀ {v : Value} {u : Scene} {τ : Store}, S.Along s kept (w.emitAll (List.replicate times op.bare)) u env
      (v :: stack) → Attains S.reading n ws ⟨τ, .running u, ws⟩ R (f [v] τ)) :
    Attains S.reading n ws ⟨σ, .running t, ws⟩ R ((op.repeated S.globals call times vs >>= f) σ) := by
  induction times generalizing w t vs σ with
  | zero =>
    obtain ⟨v, rfl⟩ := List.length_eq_one_iff.mp (by simpa using count)
    simp only [List.replicate_zero, emitAll_nil] at next
    exact next h
  | succ times ih =>
    rw [List.replicate_succ, ← emitAll_emit] at precedes next
    rw [Opcode.repeated, bind_assoc]
    have plain : op.bare.op ≠ .const := by
      rintro const
      have none := reduces.pops
      rw [show op = .const from const] at none
      simp [Opcode.effect] at none
    have enough : op.effect.pops ≤ vs.length ∧ (vs.drop op.effect.pops).length = times * (op.effect.pops - 1) := by
      rw [List.length_drop, count]
      obtain ⟨pops, -⟩ | pops := reduces.pops
      · rw [pops]
        omega
      · rw [pops]
        omega
    have begins : (w.emit op.bare).Precedes S.final := (precedes_emitAll _).trans precedes
    have whole : t.stack = vs.take op.effect.pops ++ (vs.drop op.effect.pops ++ stack) := by
      rw [← List.append_assoc, List.take_append_drop, h.became.stack]
    have taken : (vs.take op.effect.pops).length = op.effect.pops := List.length_take_of_le enough.1
    refine h.acts (fun v => v :: (vs.drop op.effect.pops ++ stack)) begins plain
      (h.globals ▸ reduces.attains calls σ whole taken) fun {v u τ} there => ?_
    have left : S.Along s kept (w.emit op.bare) u env (v :: vs.drop op.effect.pops ++ stack) := there
    refine ih left precedes ?_ next
    rw [List.length_cons, enough.2, Nat.add_comm]

theorem comes_intrinsic {op : Opcode} {times : Nat} {args : List Expr} (combines : op.Combines times args.length)
    (calls : Attained S.reading n call) (precedes : (u.emitAll (List.replicate times op.bare)).Precedes S.final)
    (stays : w.Stays u) (operands : S.Gathers n ws call w u args) :
    S.Evaluates n ws call w (u.emitAll (List.replicate times op.bare)) (.intrinsic op times args) := by
  intro s kept t σ env stack along
  rw [Expr.meaning]
  obtain ⟨reduces, enough⟩ := combines.reduces
  refine along.gathers operands stays fun {vs t τ} count there => ?_
  exact there.repeats reduces calls precedes (count.trans enough) fun {v u τ} done => .pure ⟨u, rfl, done.became⟩

end Script

/-! ### Closures -/

namespace Meaning

theorem gather_cons (env : Environment) (x : String) (xs : List String) (σ : Store) :
    gather env (x :: xs) σ = (do
      let v ← look env x
      let vs ← gather env xs
      pure (v :: vs) : Meaning (List Value)) σ := by
  unfold gather look
  rw [List.mapM_cons]
  cases env.lookup x with
  | none => rfl
  | some v =>
    cases xs.mapM fun x => env.lookup x with
    | none => rfl
    | some vs => rfl

theorem gather_reverse (env : Environment) (xs : List String) :
    gather env xs = (List.reverse <$> gather env xs.reverse : Meaning (List Value)) := by
  have reversed : (xs.reverse.mapM fun x => env.lookup x) = (xs.mapM fun x => env.lookup x).map List.reverse := by
    induction xs with
    | nil => rfl
    | cons x xs ih =>
      rw [List.reverse_cons, List.mapM_append, ih, List.mapM_cons]
      cases here : env.lookup x <;> cases others : xs.mapM fun x => env.lookup x <;> simp [here, others]
  unfold gather
  rw [reversed]
  cases xs.mapM fun x => env.lookup x with
  | none => rfl
  | some vs => exact congrArg Pure.pure (List.reverse_reverse vs).symm

theorem length_gather {env : Environment} {xs : List String} {σ τ : Store} {vs : List Value}
    (h : gather env xs σ = some (.ok vs, τ)) : vs.length = xs.length := by
  have found : (xs.mapM fun x => env.lookup x) = some vs := by
    unfold gather at h
    cases found : xs.mapM fun x => env.lookup x with
    | none =>
      rw [found] at h
      cases h
    | some us =>
      rw [found] at h
      cases h
      rfl
  clear h
  induction xs generalizing vs with
  | nil =>
    cases found
    rfl
  | cons x xs ih =>
    rw [List.mapM_cons] at found
    obtain ⟨v, -, others⟩ := Option.bind_eq_some_iff.mp found
    obtain ⟨vs, rest, same⟩ := Option.bind_eq_some_iff.mp others
    cases same
    rw [List.length_cons, List.length_cons, ih rest]

end Meaning

namespace Script

variable {S : Script} {n : Nat} {ws : List Waiting} {w u x z : Workshop} {s t : Scene} {kept : Nat} {σ τ : Store}
  {env : Environment} {stack : List Value} {call : Value → List Value → Meaning Value} {y : String}
  {first second third : Expr} {α β : Type} {R : β → Doing → Prop}

/-- Captured names between two workshops: the value of the last one is on top. -/
abbrev Loads (S : Script) (n : Nat) (ws : List Waiting) (w x : Workshop) (names : List String) : Prop :=
  S.Comes n ws w x List.reverse (Meaning.gather · names)

theorem comes_loaded : S.Loads n ws w w [] := by
  intro s kept t σ env stack along
  exact .pure ⟨t, rfl, along.became⟩

theorem comes_load {names : List String} {cell : Cell} {i : Instruction}
    (precedes : ((w.reach y).emit i).Precedes S.final) (found : w.cell? y = some cell)
    (loads : cell.Loads i) (stays : ((w.reach y).emit i).Stays x)
    (others : S.Loads n ws ((w.reach y).emit i) x names) : S.Loads n ws w x (y :: names) := by
  intro s kept t σ env stack along
  change Attains _ _ _ _ _ (Meaning.gather env (y :: names) σ)
  rw [Meaning.gather_cons]
  refine along.looks precedes found loads fun {v t τ} there => ?_
  refine there.comes others stays fun {vs u τ} all => .pure ⟨u, rfl, ?_⟩
  rw [List.reverse_cons, List.append_assoc]
  exact all.became

theorem comes_constant {p : Procedure Value} {name : Option String} {cs : Clauses} {bodies : List Expr}
    (writes : w.Writes x [some (.closure p [])]) (stays : w.Stays x) (precedes : x.Precedes S.final)
    (spells : S.Spells w [some (.closure p [])]) : S.Evaluates n ws call w x (.lambda p [] name cs bodies) := by
  intro s kept t σ env stack along
  rw [Expr.meaning]
  have pushed : S.Evaluates n ws call w x (.literal (.closure p [])) := comes_literal writes stays precedes spells
  exact pushed along

theorem comes_closure {p : Procedure Value} {captured : List (String × CellKind)} {name : Option String} {cs : Clauses}
    {bodies : List Expr} (loads : S.Loads n ws w u (captured.map Prod.fst).reverse) (stays : w.Stays u)
    (h : u.place (.procedure p) ≤ maxOperand) (count : captured.length ≤ maxOperand)
    (precedes : ((u.emitConst (.procedure p) h).emit ⟨.makeClosure, captured.length, count⟩).Precedes S.final)
    (spells : S.Spells u [some (.procedure p), none]) :
    S.Evaluates n ws call w ((u.emitConst (.procedure p) h).emit ⟨.makeClosure, captured.length, count⟩)
      (.lambda p captured name cs bodies) := by
  intro s kept t σ env stack along
  rw [Expr.meaning, Meaning.gather_reverse, map_eq_pure_bind, bind_assoc]
  have template := writes_emitConst (w := u) (.procedure p) h
  refine .bind ((loads along.toPoised.along).knowing Meaning.length_gather) ?_
  rintro vs d τ ⟨length, t, rfl, became⟩
  rw [along.became.stack] at became
  refine (along.became_of became stays).pushes template (stays_emitConst _ h) ((precedes_emit _).trans precedes)
    (spells.append template).1 fun {t} ready => ?_
  have counted : vs.reverse.length = captured.length := by
    rw [List.length_reverse, length, List.length_reverse, List.length_map]
  refine ready.goes (.closure p vs.reverse :: stack) precedes (ne_of_beq_false rfl) ?_ fun {u} made =>
    .pure ⟨u, rfl, made.became⟩
  rw [Scene.turn_makeClosure ready.became.stack, List.take_left' counted, List.drop_left' counted]
  rfl

end Script

end StackLisp
