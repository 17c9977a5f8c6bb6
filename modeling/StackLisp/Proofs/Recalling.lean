import StackLisp.Proofs.Alike
import StackLisp.Proofs.Coded
import StackLisp.Proofs.Shortened

/-!
Procedures that were built for the lambdas of a program. Their code is the emitted code shortened, with the
constants that were pooled for its literals. Plays of such procedures come to the same as plays of the emitted
code with the literals themselves, but for what equality does not tell apart.
-/

namespace StackLisp

/-- Known procedures, no two constants or literals of which are taken for each other without being alike. Those with
the number of a lambda were built from its draft. -/
structure Program.Kept (P : Program) (draft : Nat → Chunk) (known : Procedure Value → Prop) (genuine : Builtin → Prop)
    (T : Value → Prop) : Prop extends P.Drafted draft T where
  pool : Distinct known genuine
  literals : ∀ {p : Procedure Value} {l : Lambda}, known p → P.lambda? p = some l →
    ∀ {v : Value}, some v ∈ l.literals → v.Made known genuine
  chunk : ∀ {p : Procedure Value} {l : Lambda}, known p → P.lambda? p = some l → p.chunk = (draft p.serial).shortened
  labels : ∀ {p : Procedure Value}, known p → (Chunk.labelsOf p.code).Nodup
  room : ∀ {p : Procedure Value}, known p → ∀ i ∈ p.code, i.op = .store → i.operand < p.localCount

/-- A scene in emitted code and one in the code that was built from it, where the constants are what equality
takes for the literals. -/
structure Scene.Recalls (P : Program) (known : Procedure Value → Prop) (s t : Scene) : Prop where
  resembles : s.Resembles (Alike known) t
  room : ∀ i ∈ t.chunk.code, i.op = .store → (i.operand < s.locals.length ↔ i.operand < t.locals.length)
  distinct : (Chunk.labelsOf s.chunk.code).Nodup
  code : ∃ source, Chunk.Shortens s.chunk.code t.chunk.code source ∧ s.pc = source t.pc
  body : Alike known s.closure.procedure t.closure.procedure
  literal : ∀ {pc : Nat} {i : Instruction} {v : Value}, s.chunk.code[pc]? = some i → i.op = .const →
    P.literal? s.closure.procedure pc = some v →
      ∃ u, t.chunk.constants[i.operand]? = some u ∧ v.Matches (Alike known) u

/-- Breaches may have different texts. -/
def Likeness.recalling (P : Program) (known : Procedure Value → Prop) : Likeness :=
  ⟨Alike known, fun _ _ => True, Scene.Recalls P known⟩

variable {P : Program} {draft : Nat → Chunk} {known : Procedure Value → Prop} {genuine : Builtin → Prop}
  {T : Value → Prop} {s t u v : Scene} {σ τ : Store} {source : Nat → Nat}

namespace Scene

/-- What the scenes come to by an instruction of both. -/
theorem Recalls.parted (h : s.Recalls P known t) (shortens : Chunk.Shortens s.chunk.code t.chunk.code source)
    (parted : Parted (Alike known) source s t u v) : u.Recalls P known v := by
  obtain ⟨resembles, address, ⟨chunk, closure, slots⟩, ⟨chunk', closure', slots'⟩⟩ := parted
  refine ⟨resembles, ?_, ?_, ⟨source, ?_, address⟩, ?_, ?_⟩
  · rw [chunk', slots, slots']
    exact h.room
  · rw [chunk]
    exact h.distinct
  · rw [chunk, chunk']
    exact shortens
  · rw [closure, closure']
    exact h.body
  · rw [chunk, chunk', closure]
    exact h.literal

/-- An instruction that stays comes to the same, whether its literal is recalled or it is run as it is. -/
theorem Recalls.turn_alike (h : s.Recalls P known t) (stores : σ.Matches (Alike known) τ)
    (shortens : Chunk.Shortens s.chunk.code t.chunk.code source) {i : Instruction} (here : s.chunk.code[s.pc]? = some i)
    (there : t.chunk.code[t.pc]? = some i) (onward : i.op.effect.exits = false → source (t.pc + 1) = s.pc + 1) :
    (P.turn σ s i).Alike (.recalling P known) (t.turn τ i) := by
  have turns := turn_resembles Alike.alikeness h.resembles stores i (h.room i (List.mem_of_getElem? there))
    (fun _ => shortens.anchor_isSome i.operand) fun _ => h.body
  have plain : (s.turn σ i).Alike (.recalling P known) (t.turn τ i) :=
    alike_of_resembles (L := .recalling P known) turns (act_heeds σ (s.past i) i _) (act_heeds τ (t.past i) i _)
      h.resembles shortens h.distinct onward (fun _ _ => trivial) (h.parted shortens)
  unfold Program.turn
  split
  next v const found =>
    obtain ⟨u, pooled, value⟩ := h.literal here const found
    obtain ⟨op, operand, small⟩ := i
    obtain rfl : op = .const := const
    rw [turn_const pooled]
    refine .go (h.parted shortens ⟨?_, (onward rfl).symm, ⟨rfl, rfl, rfl⟩, ⟨rfl, rfl, rfl⟩⟩) stores
    exact { h.resembles with stack := .cons value h.resembles.stack }
  · exact plain

end Scene

namespace Program

/-- The constant in the place of a literal is what equality takes for it, in any procedure that is taken for the one
built for the lambda. -/
theorem Kept.literal (kept : P.Kept draft known genuine T) {p q : Procedure Value} (alike : Alike known p q) {l : Lambda}
    (own : P.lambda? p = some l) {pc : Nat} {i : Instruction} {v : Value}
    (here : (draft p.serial).code[pc]? = some i) (const : i.op = .const) (found : P.literal? p pc = some v) :
    ∃ u, q.constants[i.operand]? = some u ∧ v.Matches (Alike known) u := by
  have entry : l.literals[pc]? = some (some v) := by
    unfold literal? at found
    rw [own, Option.bind_some] at found
    exact Option.join_eq_some_iff.mp found
  have coded := kept.coded (lambda?_eq_some.mp own).1
  have spells : i.Spells (draft p.serial).constants (some v) := by
    have related := rel_getElem? coded.writes.1 pc
    rw [here, entry] at related
    cases related with
    | some spells => exact spells
  have constants : p.constants = (draft p.serial).constants := congrArg Chunk.constants (kept.chunk alike.1 own)
  cases spells with
  | own plain gives => exact absurd const plain
  | @pooled k u v small pooled same =>
    have pairs := rel_getElem? (alike.constants kept.pool) k
    rw [constants, pooled] at pairs
    obtain ⟨w, there, matched⟩ : ∃ w, q.constants[k]? = some w ∧ u.Matches (Alike known) w := by
      revert pairs
      generalize q.constants[k]? = o
      intro pairs
      cases pairs with
      | some matched => exact ⟨_, rfl, matched⟩
    refine ⟨w, there, ?_⟩
    have equal : Value.same v w = true := Value.same_trans (Value.same_comm same) matched.equal
    exact Value.matches_of_same kept.pool.names (kept.literals alike.1 own (List.mem_of_getElem? entry))
      (kept.pool.constants alike.2.1 w (List.mem_of_getElem? there)) equal

theorem Kept.enters (kept : P.Kept draft known genuine T) :
    Play.Enters (.recalling P known) (P.reading draft) .plain := by
  intro p q as bs args args' alike captured values
  have room (c : Chunk) (count : c.localCount = p.localCount) (i : Instruction) (member : i ∈ q.code)
      (stores : i.op = .store) : i.operand < (Scene.enter c ⟨p, as⟩ args).locals.length ↔
        i.operand < (Scene.enter q.chunk ⟨q, bs⟩ args').locals.length := by
    have first := kept.room alike.1 i (alike.code ▸ member) stores
    have second := kept.room alike.2.1 i member stores
    change i.operand < (List.replicate _ _).length ↔ i.operand < (List.replicate _ _).length
    rw [List.length_replicate, List.length_replicate, count]
    exact ⟨fun _ => second, fun _ => first⟩
  change Scene.Recalls P known (.enter (if (P.lambda? p).isSome then draft p.serial else p.chunk) _ _) _
  cases own : P.lambda? p with
  | none =>
    have same : Chunk.Shortens p.code q.code id := alike.code ▸ .refl p.code
    exact
      { resembles := Scene.resembles_enter alike.globals (alike.constants kept.pool) captured values
        room := room p.chunk rfl
        distinct := kept.labels alike.1
        code := ⟨id, same, rfl⟩
        body := alike
        literal := fun {pc i v} _ _ found => by
          change P.literal? p pc = some v at found
          rw [literal?, own] at found
          cases found }
  | some l =>
    have same := kept.chunk alike.1 own
    have distinct := kept.distinct (lambda?_eq_some.mp own).1
    obtain ⟨source, shortens⟩ := Chunk.shortens_shorten distinct
    have code : Chunk.shorten (draft p.serial).code = q.code := (congrArg Chunk.code same).symm.trans alike.code
    rw [code] at shortens
    have constants : p.constants = (draft p.serial).constants := congrArg Chunk.constants same
    have globals : p.globals = (draft p.serial).globals := congrArg Chunk.globals same
    exact
      { resembles := Scene.resembles_enter (globals ▸ alike.globals) (constants ▸ alike.constants kept.pool) captured values
        room := room _ (congrArg Chunk.localCount same).symm
        distinct
        code := ⟨source, shortens, shortens.start.symm⟩
        body := alike
        literal := fun {pc i v} here const found => kept.literal alike own here const found }

/-- Plays of the emitted code and of the code built from it end together. -/
theorem Kept.together (kept : P.Kept draft known genuine T) {p q : Play}
    (alike : Play.Alike (.recalling P known) (P.reading draft) p q) :
    System.Together (Play.system (P.reading draft)) (Play.system .plain) (Play.EndAlike (.recalling P known))
      (Edit.Matches (Alike known)) p q := by
  refine System.together_of_progress (Play.going_of_alike Alike.alikeness kept.enters ?_) alike
  intro s t σ τ ws xs h stores waits
  obtain ⟨source, shortens, address⟩ := h.code
  exact Play.meets_of_shortens regular_reading h.resembles stores waits shortens address fun here there onward =>
    h.turn_alike stores shortens here there onward

end Program

end StackLisp
