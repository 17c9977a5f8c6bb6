import StackLisp.Proofs.Entrances
import StackLisp.Proofs.Phrases

/-!
Bodies and what lambdas mean. Names are bound in slots of their own or are parameters; the clause that the
argument count fits is found; so a play that starts in the code of a lambda comes to what the lambda means.
-/

namespace StackLisp

open Workshop

/-! ### Names in scopes -/

namespace Workshop

variable {w : Workshop} {x y : String} {kind : CellKind}

theorem scoped?_enter (w : Workshop) (s : Scope) (x : String) :
    (w.enter s).body.scoped? x = (s.cells.lookup x).or (w.body.scoped? x) := by
  unfold Body.scoped? enter
  rw [body_alter, List.findSome?_cons]
  cases s.cells.lookup x <;> rfl

theorem scoped?_bindLocal (admits : w.Admits y) (kind : CellKind) (x : String) :
    (w.bindLocal y kind).body.scoped? x = if x = y then some (w.nextCell kind) else w.body.scoped? x := by
  obtain ⟨s, others, scopes, -⟩ := admits
  unfold Body.scoped? bindLocal slot
  rw [body_alter, declare_keeps scopes, scopes]
  simp only [List.findSome?_cons, List.lookup_cons]
  by_cases same : x = y
  · simp [same]
  · simp [same, beq_eq_false_iff_ne.mpr same]

end Workshop

namespace Script

variable {S : Script} {n : Nat} {ws : List Waiting} {w u x z : Workshop} {s t : Scene} {kept : Nat} {σ τ : Store}
  {env : Environment} {stack : List Value} {call : Value → List Value → Meaning Value} {y : String}
  {first second : Expr} {β : Type} {R : β → Doing → Prop}

theorem Along.enter (h : S.Along s kept w t env stack) (kind : ScopeKind) :
    S.Along s kept (w.enter { kind }) t env stack where
  own := h.own
  chunk := h.chunk
  pc := h.pc
  slots := h.slots
  shows :=
    { bound := fun {y cell} here => h.shows.bound (by rwa [scoped?_enter] at here)
      free := fun {y} here => h.shows.free (by rwa [scoped?_enter] at here) }
  became := h.became
  fewer := h.fewer

theorem Shows.binds {s t : Scene} {v : Value} {pc : Nat} (h : S.Shows w s env) (admits : w.Admits y) (kind : CellKind)
    (became : s.Became t stack w.body.nextLocal pc) (filled : t.locals[w.body.nextLocal]? = some (some v)) :
    S.Shows (w.bindLocal y kind) t ((y, v) :: env) where
  bound {x cell} here := by
    rw [scoped?_bindLocal admits] at here
    rw [nextLocal_bindLocal]
    split at here
    next same =>
      obtain rfl := Option.some.inj here
      have held : t.held? (w.nextCell kind) = some v := by simp [Scene.held?, nextCell, filled]
      rw [same, List.lookup_cons_self]
      exact ⟨held, .inr ⟨rfl, Nat.lt_succ_self _, held ▸ rfl⟩⟩
    next other =>
      obtain ⟨held, settled⟩ := h.bound here
      have kept : t.held? cell = s.held? cell := became.held? fun inside => by
        rcases settled with args | ⟨-, below, -⟩
        · cases args.symm.trans inside
        · exact below
      rw [kept, held, List.lookup_cons, beq_eq_false_iff_ne.mpr other]
      refine ⟨rfl, settled.imp id fun settled => ?_⟩
      obtain ⟨inside, below, full⟩ := settled
      exact ⟨inside, Nat.lt_succ_of_lt below, kept ▸ full⟩
  free {x} free := by
    rw [scoped?_bindLocal admits] at free
    split at free
    · cases free
    next other =>
      rw [List.lookup_cons, beq_eq_false_iff_ne.mpr other, became.closure]
      exact h.free free

theorem Along.binds {v : Value} {kind : CellKind} {small : w.body.nextLocal ≤ maxOperand}
    {o : Option (Except Stop β × Store)} (h : S.Along s kept w t env (v :: stack)) (admits : w.Admits y)
    (precedes : ((w.bindLocal y kind).emit ⟨.store, w.body.nextLocal, small⟩).Precedes S.final)
    (next : ∀ {u : Scene}, S.Along s kept ((w.bindLocal y kind).emit ⟨.store, w.body.nextLocal, small⟩) u
      ((y, v) :: env) stack → Attains S.reading n ws ⟨σ, .running u, ws⟩ R o) :
    Attains S.reading n ws ⟨σ, .running t, ws⟩ R o := by
  obtain ⟨code, locals, -⟩ := body_bindLocal w y kind
  have room : w.body.nextLocal < t.locals.length := by
    have fits : max w.body.localCount (w.body.nextLocal + 1) ≤ S.final.body.localCount := locals ▸ precedes.locals
    have slots := h.slots
    omega
  let u : Scene := { t.holding stack with locals := t.locals.set w.body.nextLocal (some v) }
  have there : S.Stands (w.bindLocal y kind) t := ⟨h.own, h.chunk, code ▸ h.pc, h.slots⟩
  have stored : Play.step S.reading ⟨σ, .running t, ws⟩ = ⟨σ, .running u, ws⟩ := by
    rw [there.step precedes (ne_of_beq_false rfl), Scene.turn_of_stack [v] h.became.stack rfl]
    exact congrArg (Play.follow σ ws) (if_pos room)
  have became : t.Became u stack w.body.nextLocal
      ((w.bindLocal y kind).emit ⟨.store, w.body.nextLocal, small⟩).body.code.length := by
    have pc := (there.holding ⟨.store, w.body.nextLocal, small⟩ stack w.body.nextLocal).pc
    exact ⟨rfl, rfl, rfl, rfl, pc, List.length_set, fun k below => List.getElem?_set_ne (Nat.ne_of_gt below)⟩
  have shows := h.shows.binds admits kind became (List.getElem?_set_self room)
  have fewer : kept ≤ (w.bindLocal y kind).body.nextLocal :=
    nextLocal_bindLocal w y kind ▸ Nat.le_succ_of_le h.fewer
  have grows := h.became.trans became h.fewer
  exact .after (next ⟨⟨there.became became, shows.bound, shows.free⟩, grows, fewer⟩) (.step stored)

theorem comes_scope (inside : S.Evaluates n ws call (w.enter { kind := .locals }) x first) :
    S.Evaluates n ws call w x.leave (.scope first) := by
  intro s kept t σ env stack along
  rw [Expr.meaning_scope, show x.leave.body.code = x.body.code from congrArg Stage.code (stage_leave x)]
  exact inside (along.enter .locals)

theorem comes_bind {small : u.body.nextLocal ≤ maxOperand} (stays : w.Stays u) (admits : u.Admits y)
    (precedes : ((u.bindLocal y .value).emit ⟨.store, u.body.nextLocal, small⟩).Precedes S.final)
    (bound : S.Evaluates n ws call w u first)
    (after : S.Evaluates n ws call ((u.bindLocal y .value).emit ⟨.store, u.body.nextLocal, small⟩) x second) :
    S.Evaluates n ws call w x (.bind y first second) := by
  intro s kept t σ env stack along
  rw [Expr.meaning]
  exact along.comes bound stays fun {v t τ} there => there.binds admits precedes fun {u} ready => after ready

theorem comes_fresh {small : w.body.nextLocal ≤ maxOperand} (admits : w.Admits y)
    (precedes : (((w.bindLocal y .reference).emit Opcode.newRef.bare).emit
      ⟨.store, w.body.nextLocal, small⟩).Precedes S.final)
    (after : S.Evaluates n ws call (((w.bindLocal y .reference).emit Opcode.newRef.bare).emit
      ⟨.store, w.body.nextLocal, small⟩) x first) : S.Evaluates n ws call w x (.fresh y first) := by
  intro s kept t σ env stack along
  rw [Expr.meaning]
  rw [bindLocal_emit] at precedes after
  have refers : (w.emit Opcode.newRef.bare).Precedes S.final :=
    (precedes_bindLocal _ _).trans ((precedes_emit _).trans precedes)
  refine along.acts (fun v => v :: stack) refers (ne_of_beq_false rfl) ?_ fun {v t τ} there =>
    there.binds (w := w.emit Opcode.newRef.bare) admits precedes fun {u} ready => after ready
  rw [Scene.turn_of_stack [] along.became.stack rfl]
  exact .value (.refl _ _) rfl

theorem comes_fill {cell : Cell} {i : Instruction} (stays : w.Stays u)
    (found : u.body.lexical? y = some cell) (loads : cell.Loads i)
    (precedes : ((u.emit i).emit Opcode.bindRef.bare).Precedes S.final) (filled : S.Evaluates n ws call w u first)
    (after : S.Evaluates n ws call ((u.emit i).emit Opcode.bindRef.bare) x second) :
    S.Evaluates n ws call w x (.fill y first second) := by
  intro s kept t σ env stack along
  rw [Expr.meaning]
  have here : u.cell? y = some cell := by
    unfold Workshop.cell?
    rw [found]
  have same : u.reach y = u := by
    unfold Workshop.reach
    rw [found]
  refine along.comes filled stays fun {v t τ} there => ?_
  refine there.looks (same.symm ▸ (precedes_emit _).trans precedes) here loads fun {c t τ} looked => ?_
  rw [same] at looked
  refine looked.acts (fun _ => stack) precedes (ne_of_beq_false rfl) ?_ fun {_ u τ} ready => after ready
  rw [Scene.turn_of_stack [c, v] looked.became.stack rfl]
  exact .keep fun σ => c.ref?.bind fun id => σ.fillRef id v

end Script

/-! ### Parameters -/

namespace Clause

variable {c : Clause} {args : List Value} {x : String} {cell : Cell}

theorem fixedCount_le (fits : c.fits args.length) : c.fixedCount ≤ args.length := by
  cases variadic : c.isVariadic with
  | true => exact (Clauses.fits_of_variadic variadic).mp fits
  | false => exact ((Clauses.fits_of_fixed variadic).mp fits).ge

/-- A parameter stands for what a call has in the place of its cell. -/
theorem held_of_cells (distinct : (c.cells.map Prod.fst).Nodup) (member : (x, cell) ∈ c.cells) {s : Scene}
    (fits : c.fits s.args.length) : ∃ v, s.held? cell = some v ∧ (c.binds s.args).lookup x = some v := by
  rw [names_cells] at distinct
  obtain ⟨params, -, apart⟩ := List.nodup_append.mp distinct
  unfold binds
  rw [List.lookup_append]
  rcases List.mem_append.mp member with fixed | rest
  · obtain ⟨entry, inside, same⟩ := List.mem_map.mp fixed
    obtain ⟨y, k⟩ := entry
    obtain ⟨rfl, rfl⟩ := Prod.mk.inj same
    have place : c.params[k]? = some y := List.mem_zipIdx_iff_getElem?.mp inside
    have below : k < s.args.length :=
      Nat.lt_of_lt_of_le (List.getElem?_eq_some_iff.mp place).1 (fixedCount_le fits)
    refine ⟨s.args[k], List.getElem?_eq_getElem below, ?_⟩
    rw [lookup_zip params place, List.getElem?_eq_getElem below, Option.some_or]
  · obtain ⟨y, named, same⟩ := List.mem_map.mp rest
    obtain ⟨rfl, rfl⟩ := Prod.mk.inj same
    have unnamed : (c.params.zip s.args).lookup y = none := by
      refine List.lookup_eq_none_iff.mpr fun entry inside => bne_iff_ne.mpr ?_
      exact (apart _ (List.of_mem_zip inside).1 _ named).symm
    refine ⟨.ofList (s.args.drop c.fixedCount), rfl, ?_⟩
    rw [unnamed, Option.none_or, Option.mem_toList.mp named]
    simp

/-- A clause binds its parameters and nothing else. -/
theorem lookup_binds_none (absent : x ∉ c.cells.map Prod.fst) (args : List Value) :
    (c.binds args).lookup x = none := by
  rw [names_cells, List.mem_append, not_or] at absent
  refine List.lookup_eq_none_iff.mpr fun entry inside => bne_iff_ne.mpr ?_
  rintro rfl
  rcases List.mem_append.mp inside with fixed | rest
  · exact absent.1 (List.of_mem_zip fixed).1
  · obtain ⟨y, named, rfl⟩ := List.mem_map.mp rest
    exact absent.2 named

end Clause

namespace Script

variable {S : Script} {n : Nat} {ws : List Waiting} {w u x z : Workshop} {s t : Scene} {kept : Nat} {σ τ : Store}
  {env : Environment} {stack : List Value} {call : Value → List Value → Meaning Value} {y : String}
  {first second : Expr} {β : Type} {R : β → Doing → Prop} {c : Clause}

theorem shows_clause (unscoped : w.body.scopes = []) (distinct : (c.cells.map Prod.fst).Nodup)
    (fits : c.fits s.args.length) :
    S.Shows (w.enter ⟨.args, c.cells.reverse⟩) s (c.binds s.args ++ S.outer s.closure) where
  bound {x cell} here := by
    have nowhere : w.body.scoped? x = none := by rw [Body.scoped?, unscoped, List.findSome?_nil]
    rw [scoped?_enter, nowhere, Option.or_none] at here
    obtain ⟨before, after, split, -⟩ := List.lookup_eq_some_iff.mp here
    have member : (x, cell) ∈ c.cells := by
      rw [← List.mem_reverse, show c.cells.reverse = before ++ (x, cell) :: after from split]
      exact List.mem_append_right _ List.mem_cons_self
    obtain ⟨v, held, bound⟩ := Clause.held_of_cells distinct member fits
    refine ⟨?_, .inl (c.cells_args _ member)⟩
    rw [held, List.lookup_append, bound, Option.some_or]
  free {x} free := by
    have nowhere : w.body.scoped? x = none := by rw [Body.scoped?, unscoped, List.findSome?_nil]
    rw [scoped?_enter, nowhere, Option.or_none] at free
    have absent : x ∉ c.cells.map Prod.fst := by
      intro member
      obtain ⟨entry, inside, rfl⟩ := List.mem_map.mp member
      have other := List.lookup_eq_none_iff.mp free entry (List.mem_reverse.mpr inside)
      simp at other
    rw [List.lookup_append, Clause.lookup_binds_none absent, Option.none_or]

/-! ### Clauses -/

/-- The code of a clause answers what its body means where its parameters have their arguments. -/
def Answers (S : Script) (n : Nat) (ws : List Waiting) (call : Value → List Value → Meaning Value) (w : Workshop)
    (c : Clause) (body : Expr) : Prop :=
  ∀ ⦃t : Scene⦄ ⦃σ : Store⦄, S.Stands w t → c.fits t.args.length →
    Attains S.reading n ws ⟨σ, .running t, ws⟩ (fun v d => d = .returning v)
      (body.meaning S.globals call (c.binds t.args ++ S.outer t.closure) σ)

theorem Poised.answers (h : S.Poised w s env) (inside : S.Evaluates n ws call w x first) (stays : w.Stays x)
    (precedes : (x.emit Opcode.ret.bare).Precedes S.final) (σ : Store) :
    Attains S.reading n ws ⟨σ, .running s, ws⟩ (fun v d => d = .returning v) (first.meaning S.globals call env σ) := by
  rw [← bind_pure (first.meaning _ _ _)]
  refine h.along.comes inside stays fun {v u τ} there => .after (.pure rfl) (.step ?_)
  rw [there.step precedes (ne_of_beq_false rfl), Scene.turn_of_stack [v] there.became.stack rfl]
  rfl

theorem answers_clause (unscoped : w.body.scopes = []) (distinct : (c.cells.map Prod.fst).Nodup)
    (inside : S.Evaluates n ws call (w.enter ⟨.args, c.cells.reverse⟩) x first)
    (stays : (w.enter ⟨.args, c.cells.reverse⟩).Stays x) (precedes : (x.emit Opcode.ret.bare).Precedes S.final) :
    S.Answers n ws call w c first := by
  intro t σ stands fits
  have shows := S.shows_clause unscoped distinct fits
  have poised : S.Poised (w.enter ⟨.args, c.cells.reverse⟩) t _ :=
    ⟨⟨stands.own, stands.chunk, stands.pc, stands.slots⟩, shows⟩
  exact poised.answers inside stays precedes _

/-- The clauses with labels are anchored by these, each before its code. -/
structure Arms (S : Script) (n : Nat) (ws : List Waiting) (call : Value → List Value → Meaning Value) (w : Workshop)
    (cs : List (Clause × Nat)) (bodies : List Expr) : Prop where
  count : cs.length = bodies.length
  arm : ∀ entry ∈ cs.zip bodies, ∃ (u : Workshop) (small : entry.1.2 ≤ maxOperand), w.Stays u ∧
    (u.emit ⟨.label, entry.1.2, small⟩).Precedes S.final ∧
      S.Answers n ws call (u.emit ⟨.label, entry.1.2, small⟩) entry.1.1 entry.2

theorem arms_cons {label : Nat} {small : label ≤ maxOperand} {cs : List (Clause × Nat)} {bodies : List Expr}
    (precedes : (w.emit ⟨.label, label, small⟩).Precedes S.final) (stays : (w.emit ⟨.label, label, small⟩).Stays u)
    (head : S.Answers n ws call (w.emit ⟨.label, label, small⟩) c first) (others : S.Arms n ws call u cs bodies) :
    S.Arms n ws call w ((c, label) :: cs) (first :: bodies) where
  count := congrArg Nat.succ others.count
  arm entry member := by
    rcases List.mem_cons.mp member with rfl | later
    · exact ⟨w, small, .refl w, precedes, head⟩
    · obtain ⟨z, less, onward, arm⟩ := others.arm entry later
      exact ⟨z, less, ((stays_emit _).trans stays).trans onward, arm⟩

theorem Along.tells {count : c.fixedCount ≤ maxOperand} {o : Option (Except Stop β × Store)}
    (h : S.Along s kept w t env stack) (small : s.args.length < countLimit)
    (precedes : (((w.emit ⟨.posInt, c.fixedCount, count⟩).emit Opcode.argLen.bare).emit
      (if c.isVariadic then Opcode.numGte else Opcode.numEq).bare).Precedes S.final)
    (next : ∀ {u : Scene}, S.Along s kept (((w.emit ⟨.posInt, c.fixedCount, count⟩).emit Opcode.argLen.bare).emit
      (if c.isVariadic then Opcode.numGte else Opcode.numEq).bare) u env (.bool (c.fits s.args.length) :: stack) →
      Attains S.reading n ws ⟨σ, .running u, ws⟩ R o) :
    Attains S.reading n ws ⟨σ, .running t, ws⟩ R o := by
  have length := (precedes_emit _).trans precedes
  let fixed : Value := .integer (Int64.ofNat c.fixedCount)
  let given : Value := .integer (Int64.ofNat s.args.length)
  have counts : t.turn σ ⟨.posInt, c.fixedCount, count⟩ = .go (t.holding (fixed :: stack)) σ :=
    Scene.turn_of_stack [] h.became.stack rfl σ
  refine h.goes (fixed :: stack) ((precedes_emit _).trans length) (ne_of_beq_false rfl) counts fun {t} counted => ?_
  have measures : t.turn σ Opcode.argLen.bare = .go (t.holding (given :: fixed :: stack)) σ := by
    rw [Scene.turn_of_stack [] counted.became.stack rfl]
    show (t.holding (fixed :: stack)).give σ (.integer (Int64.ofNat t.args.length)) = _
    rw [counted.became.args]
    rfl
  refine counted.goes (given :: fixed :: stack) length (ne_of_beq_false rfl) measures fun {t} measured => ?_
  refine measured.goes (.bool (c.fits s.args.length) :: stack) precedes ?_ ?_ next
  · split <;> exact ne_of_beq_false rfl
  · obtain ⟨f, meaning, compared⟩ := c.compares count small
    have same : t = t.placed (given :: fixed :: stack) t.pc := by rw [Scene.placed, ← measured.became.stack]
    rw [same, Scene.turn_binary meaning, compared]
    rfl

/-- The tests lead to the label of the first clause that fits. -/
theorem Along.tests {cs : List (Clause × Nat)} {is : List Instruction} (tests : Tests cs is) {label : Nat}
    {anchored : label ≤ maxOperand} {o : Option (Except Stop β × Store)} (h : S.Along s kept w t env stack)
    (small : s.args.length < countLimit) (first : cs.find? (·.1.fits s.args.length) = some (c, label))
    (precedes : (w.emitAll is).Precedes S.final) (stays : (w.emitAll is).Stays x)
    (anchors : (x.emit ⟨.label, label, anchored⟩).Precedes S.final)
    (next : ∀ {u : Scene}, S.Along s kept (x.emit ⟨.label, label, anchored⟩) u env stack →
      Attains S.reading n ws ⟨σ, .running u, ws⟩ R o) :
    Attains S.reading n ws ⟨σ, .running t, ws⟩ R o := by
  induction tests generalizing w t with
  | nil => cases first
  | @cons d other cs is count named rest ih =>
    simp only [← emitAll_emit] at precedes stays
    have jump := (precedes_emitAll is).trans precedes
    refine h.tells small ((precedes_emit _).trans jump) fun {t} told => ?_
    have turned : t.turn σ ⟨.condJump, other, named⟩ =
        if d.fits s.args.length then (t.holding stack).goTo σ other else .go (t.holding stack) σ :=
      Scene.turn_of_stack [.bool (d.fits s.args.length)] told.became.stack rfl σ
    cases fits : d.fits s.args.length with
    | true =>
      rw [List.find?_cons_of_pos (by exact fits)] at first
      obtain ⟨rfl, rfl⟩ := Prod.mk.inj (Option.some.inj first)
      rw [fits, if_pos rfl] at turned
      have past := (stays_emit _).trans ((stays_emitAll is).trans stays)
      exact told.jumps stack jump (ne_of_beq_false rfl) turned past anchors next
    | false =>
      rw [List.find?_cons_of_neg (by simp [fits])] at first
      rw [fits, if_neg Bool.false_ne_true] at turned
      exact told.goes stack jump (ne_of_beq_false rfl) turned fun {t} there => ih there first precedes stays

end Script

theorem find?_zip {α β γ : Type} {p : α → Bool} {as : List α} {bs : List β} {cs : List γ}
    (left : as.length = bs.length)
    (right : as.length = cs.length) (passes : ∃ a ∈ as, p a) : ∃ a b c, (as.zip bs).find? (p ·.1) = some (a, b) ∧
      (as.zip cs).find? (p ·.1) = some (a, c) ∧ ((a, b), c) ∈ (as.zip bs).zip cs := by
  induction as generalizing bs cs with
  | nil => simp at passes
  | cons a as ih =>
    obtain ⟨b, bs, rfl⟩ := List.exists_cons_of_length_eq_add_one left.symm
    obtain ⟨c, cs, rfl⟩ := List.exists_cons_of_length_eq_add_one right.symm
    cases here : p a with
    | true => exact ⟨a, b, c, by simp [here], by simp [here], by simp⟩
    | false =>
      have later : ∃ a ∈ as, p a := by simpa [here] using passes
      obtain ⟨d, e, f, first, second, member⟩ := ih (Nat.succ.inj left) (Nat.succ.inj right) later
      exact ⟨d, e, f, by simpa [here] using first, by simpa [here] using second, List.mem_cons_of_mem _ member⟩

namespace Script

variable {S : Script} {n : Nat} {ws : List Waiting} {w u x : Workshop} {call : Value → List Value → Meaning Value}
  {c : Clause} {cs : Clauses} {body : Expr} {bodies : List Expr}

/-- The code of clauses answers what the first one means that its arguments fit. -/
def Serves (S : Script) (n : Nat) (ws : List Waiting) (call : Value → List Value → Meaning Value) (w : Workshop)
    (cs : Clauses) (bodies : List Expr) : Prop :=
  ∀ ⦃t : Scene⦄ ⦃σ : Store⦄, S.Stands w t → cs.arity.accepts t.args.length → t.args.length < countLimit →
    ∃ c body, (cs.zip bodies).find? (·.1.fits t.args.length) = some (c, body) ∧
      Attains S.reading n ws ⟨σ, .running t, ws⟩ (fun v d => d = .returning v)
        (body.meaning S.globals call (c.binds t.args ++ S.outer t.closure) σ)

theorem serves_single (only : S.Answers n ws call w c body) : S.Serves n ws call w [c] [body] := by
  intro t σ stands accepts small
  obtain ⟨d, member, fits⟩ := Clauses.arity_accepts.mp accepts
  obtain rfl := List.mem_singleton.mp member
  exact ⟨d, body, by simp [fits], only stands fits⟩

theorem serves_several {is : List Instruction} {labels : List Nat} (unscoped : w.body.scopes = [])
    (tests : Tests (cs.zip labels) is) (count : cs.length = labels.length)
    (begins : (u.emitAll is).Precedes S.final) (starts : w.Stays u) (stays : (u.emitAll is).Stays x)
    (code : u.body.code = w.body.code) (arms : S.Arms n ws call x (cs.zip labels) bodies) :
    S.Serves n ws call w cs bodies := by
  intro t σ stands accepts small
  have same : cs.length = bodies.length := by
    rw [← arms.count, List.length_zip, ← count, Nat.min_self]
  obtain ⟨c, label, body, first, clause, member⟩ :=
    find?_zip count same (Clauses.arity_accepts.mp accepts)
  obtain ⟨z, named, onward, anchors, answers⟩ := arms.arm _ member
  refine ⟨c, body, clause, ?_⟩
  have poised : S.Poised w t (S.outer t.closure) :=
    { stands with
      shows :=
        { bound := fun {y cell} here => by simp [Body.scoped?, unscoped] at here
          free := fun _ => rfl } }
  refine (poised.along.quiet starts code).tests tests small first begins (stays.trans onward) anchors fun {u} there => ?_
  have fits : c.fits u.args.length := by
    have passes := List.find?_some first
    rwa [there.became.args]
  have meant := @answers _ σ there.toStands fits
  rwa [there.became.args, there.became.closure] at meant

end Script

/-! ### All that is emitted -/

/-- The expressions of a phrase. -/
def Phrase.exprs : Phrase → List Expr
  | .one e | .opened e | .clause _ e => [e]
  | .many es | .cases _ es | .body _ es => es
  | .captured _ => []

/-- What the code of a phrase comes to. -/
def Phrase.Comes (S : Script) (n : Nat) (ws : List Waiting) (call : Value → List Value → Meaning Value) :
    Phrase → Workshop → Workshop → Prop
  | .one e, w, x | .opened e, w, x => S.Evaluates n ws call w x e
  | .many es, w, x => S.Gathers n ws call w x es
  | .captured xs, w, x => S.Loads n ws w x xs
  | .clause c e, w, _ => w.body.scopes = [] → S.Answers n ws call w c e
  | .cases cs bodies, w, _ => w.body.scopes = [] → S.Arms n ws call w cs bodies
  | .body cs bodies, w, _ => w.body.scopes = [] → S.Serves n ws call w cs bodies

theorem fair_one {T : Value → Prop} {e : Expr} (h : e.Fair T) : ∀ d ∈ [e], d.Fair T := by
  intro d member
  rwa [List.mem_singleton.mp member]

open Script

/-- The code of a fair phrase comes to what the phrase means, wherever it stands in a script. -/
theorem Emits.comes {S : Script} {T : Value → Prop} {n : Nat} {ws : List Waiting}
    {call : Value → List Value → Meaning Value} (calls : Attained S.reading n call) {w x : Workshop} {ph : Phrase}
    (h : Emits w ph x) (precedes : x.Precedes S.final) (spells : S.Spells w ph.literals)
    (fair : ∀ e ∈ ph.exprs, e.Fair T) : ph.Comes S n ws call w x := by
  induction h with
  | literal pushes =>
    have emits := Emits.literal pushes
    exact comes_literal emits.writes emits.leaves precedes spells
  | const h => exact comes_literal (writes_emitConst _ h) (stays_emitConst _ h) precedes spells
  | name found plain loads => exact comes_name precedes found loads
  | through found reference loads => exact comes_through precedes found loads
  | later h => exact comes_later h precedes spells
  | seq before after ihBefore ihAfter =>
    cases fair _ List.mem_cons_self with
    | seq first rest =>
      obtain ⟨now, later⟩ := spells.append before.writes
      have popped := after.precedes.trans precedes
      have value := ihBefore ((precedes_emit _).trans popped) now (fair_one first)
      have others := ihAfter precedes (later.append (writes_emit _)).2 (fair_one rest)
      exact comes_seq before.leaves popped value others
  | @branch w t n y test yes no consequent done tests fails holds ihTest ihNo ihYes =>
    cases fair _ List.mem_cons_self with
    | branch first second third =>
      obtain ⟨now, later⟩ := spells.append (tests.writes.after (writes_label.trans writes_label))
      obtain ⟨failing, onward⟩ := (later.append (writes_emit _)).2.append fails.writes
      obtain ⟨holding, -⟩ := ((onward.append (writes_emit _)).2.append (writes_emit _)).2.append holds.writes
      have ends := (precedes_emit _).trans precedes
      have begins := holds.precedes.trans ends
      have fell := (precedes_emit _).trans ((precedes_emit _).trans begins)
      have starts := fails.precedes.trans fell
      exact comes_branch precedes (ihTest ((precedes_emit _).trans starts) now (fair_one first))
        (ihNo fell failing (fair_one third)) (ihYes ends holding (fair_one second))
        tests.leaves fails.leaves holds.leaves begins starts
  | scope inside ih =>
    cases fair _ List.mem_cons_self with
    | scope first => exact comes_scope (ih (precedes_leave.trans precedes) spells (fair_one first))
  | define bound h g ih =>
    cases fair _ List.mem_cons_self with
    | define _ first =>
      obtain ⟨now, later⟩ := spells.append bound.writes
      have binds := (precedes_emitConst _ g).trans precedes
      have value := ih ((precedes_emitConst _ h).trans ((precedes_emit _).trans binds)) now (fair_one first)
      exact comes_define bound.leaves h g precedes later value
  | mention which h g => exact comes_mention which h g precedes spells
  | call operands operator shape ihArgs ihHead =>
    cases fair _ List.mem_cons_self with
    | call parts head =>
      obtain ⟨now, later⟩ := spells.append operands.writes
      have ends := (precedes_emit _).trans precedes
      have begins := operator.precedes.trans ends
      have values := ihArgs begins now parts
      have callee := ihHead ends (later.append operator.writes).1 (fair_one head)
      exact comes_call calls shape precedes operands.leaves operator.leaves values callee
  | intrinsic operands ih =>
    cases fair _ List.mem_cons_self with
    | intrinsic combines parts =>
      have values := ih ((precedes_emitAll _).trans precedes) (spells.append operands.writes).1 parts
      exact comes_intrinsic combines calls precedes operands.leaves values
  | @constant w u p name cs bodies store inner alone built h ih =>
    have stays : w.Stays { w with store } := stays_store ((Chunk.build_namespaces built).trans inner.extends.namespaces)
    rw [Phrase.literals, Expr.literals, if_pos rfl] at spells
    exact comes_constant ((writes_emitConst _ h).after (writes_store _)) (stays.trans (stays_emitConst _ h)) precedes spells
  | @closure w u x p name cs bodies store inner some built loads h count ihInner ihLoads =>
    have stays : w.Stays { w with store } := stays_store ((Chunk.build_namespaces built).trans inner.extends.namespaces)
    have begins := (precedes_emitConst _ h).trans ((precedes_emit _).trans precedes)
    have writes := loads.writes.after (writes_store _)
    rw [Phrase.literals, List.length_reverse, List.length_map] at writes
    rw [Phrase.literals, Expr.literals, if_neg some] at spells
    obtain ⟨now, later⟩ := spells.append writes
    have loaded := ihLoads begins (by rwa [Phrase.literals, List.length_reverse, List.length_map])
      (List.forall_mem_nil _)
    have pushes : S.Loads n ws w x (u.body.captured.map Prod.fst).reverse := fun s kept t σ env stack along =>
      loaded (along.quiet stays rfl)
    exact comes_closure pushes (stays.trans loads.leaves) h count precedes later
  | bind bound admits h after ihValue ihRest =>
    cases fair _ List.mem_cons_self with
    | bind _ first rest =>
      obtain ⟨now, later⟩ := spells.append bound.writes
      have stored := after.precedes.trans precedes
      have ends := (precedes_bindLocal _ _).trans ((precedes_emit _).trans stored)
      have value := ihValue ends now (fair_one first)
      have others := ihRest precedes (later.append ((writes_emit _).after (writes_bindLocal _ _))).2 (fair_one rest)
      exact comes_bind bound.leaves admits stored value others
  | @fresh w z y rest admits h after ih =>
    cases fair _ List.mem_cons_self with
    | fresh _ rest =>
      have binds := (writes_emit Opcode.newRef.bare).after (writes_bindLocal (w := w) y .reference)
      have others := ih precedes (spells.append (binds.trans (writes_emit _))).2 (fair_one rest)
      exact comes_fresh admits (after.precedes.trans precedes) others
  | fill filled found reference loads after ihValue ihRest =>
    cases fair _ List.mem_cons_self with
    | fill _ first rest =>
      obtain ⟨now, later⟩ := spells.append filled.writes
      have filling := after.precedes.trans precedes
      have ends := (precedes_emit _).trans ((precedes_emit _).trans filling)
      have value := ihValue ends now (fair_one first)
      have others := ihRest precedes (later.append ((writes_emit _).trans (writes_emit _))).2 (fair_one rest)
      exact comes_fill filled.leaves found loads filling value others
  | last inside ih => exact ih precedes spells fair
  | none => exact comes_none
  | more others first ihOthers ihFirst =>
    obtain ⟨now, later⟩ := spells.append others.writes
    obtain ⟨head, rest⟩ := List.forall_mem_cons.mp fair
    have values := ihOthers (first.precedes.trans precedes) now rest
    exact comes_more others.leaves first.leaves values (ihFirst precedes later (fair_one head))
  | loaded => exact comes_loaded
  | load found loads others ih =>
    have begins := others.precedes.trans precedes
    have rest := ih precedes (spells.append ((writes_emit _).after (writes_reach _))).2 (List.forall_mem_nil _)
    exact comes_load begins found loads others.leaves rest
  | clause distinct inside ih =>
    intro unscoped
    have returns := precedes_leave.trans precedes
    have begins := (precedes_emit _).trans returns
    have value := ih begins (spells.append (inside.writes.after (writes_enter _))).1 fair
    exact answers_clause unscoped distinct value inside.leaves returns
  | caseNone => exact fun _ => ⟨rfl, List.forall_mem_nil _⟩
  | caseMore h first others ihFirst ihOthers =>
    intro unscoped
    obtain ⟨head, rest⟩ := List.forall_mem_cons.mp fair
    obtain ⟨now, later⟩ := spells.append ((writes_emit _).trans first.writes)
    have begins := others.precedes.trans precedes
    have arm := ihFirst begins (now.append (writes_emit _)).2 (fair_one head) unscoped
    have stays := first.leaves
    exact arms_cons (first.precedes.trans begins) stays arm (ihOthers precedes later rest (stays.scopes.trans unscoped))
  | single only ih =>
    rw [Phrase.literals, Clauses.literals, List.flatMap_singleton] at spells
    exact fun unscoped => serves_single (ih precedes spells fair unscoped)
  | @several w x cs bodies is v many tests message h arms ih =>
    intro unscoped
    rw [Phrase.literals, Clauses.literals_several many, Clauses.complaint, ← message] at spells
    have starts := stays_labels (w := w) cs.length
    have stays := (stays_emitConst v h).trans (stays_emit Opcode.panic.bare)
    have begins := (precedes_emitConst v h).trans ((precedes_emit _).trans (arms.precedes.trans precedes))
    have complains := (writes_emitConst v h).trans (writes_emit Opcode.panic.bare)
    have apart := ((spells.append (writes_tests tests)).2.append complains).2
    have served := ih precedes apart fair ((starts.trans ((stays_emitAll is).trans stays)).scopes.trans unscoped)
    exact serves_several unscoped tests List.length_range'.symm begins starts stays (code_labels w _) served

end StackLisp
