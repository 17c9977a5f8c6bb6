import StackLisp.Proofs.Enclosing
import StackLisp.Proofs.Layout
import StackLisp.Proofs.Meaning

/-!
The literals of code. Emitted code has one entry for each of its instructions: the literal that the
instruction was emitted for, or nothing. It pushes that literal or the equal constant that was pooled first.
-/

namespace StackLisp

open Workshop

/-- The text that is raised where no clause fits. -/
def Clauses.complaint (cs : Clauses) : Value :=
  .string s!"wrong number of arguments: expected {cs.arity.text}"

mutual

/-- What each instruction of the code of an expression is emitted to push. -/
def Expr.literals : Expr → List (Option Value)
  | .literal v => [some v]
  | .name _ => [none]
  | .through _ => [none, none]
  | .later x => [some (.symbol x), none]
  | .seq first rest => first.literals ++ none :: rest.literals
  | .branch test yes no => test.literals ++ none :: (no.literals ++ none :: none :: (yes.literals ++ [none]))
  | .scope e => e.literals
  | .bind _ value rest => value.literals ++ none :: rest.literals
  | .fresh _ rest => none :: none :: rest.literals
  | .fill _ value rest => value.literals ++ none :: none :: rest.literals
  | .define x value => value.literals ++ [some (.symbol x), none, some (.symbol x)]
  | .mention _ x => [some (.symbol x), none, some (.symbol x)]
  | .call args head => Expr.literalsIn args ++ (head.literals ++ [none])
  | .intrinsic _ times args => Expr.literalsIn args ++ List.replicate times none
  | .lambda p captures _ _ _ =>
    if captures = [] then [some (.closure p [])]
    else List.replicate captures.length none ++ [some (.procedure p), none]
termination_by structural e => e

/-- The last expression comes first. -/
def Expr.literalsIn : List Expr → List (Option Value)
  | [] => []
  | e :: es => Expr.literalsIn es ++ e.literals
termination_by structural es => es

end

/-- A body that returns its value. -/
def Expr.returned (e : Expr) : List (Option Value) :=
  e.literals ++ [none]

/-- The same for clauses: tests and the complaint stand before them unless there is one only. -/
def Clauses.literals (cs : Clauses) (bodies : List Expr) : List (Option Value) :=
  match cs with
  | [_] => bodies.flatMap Expr.returned
  | _ => List.replicate (4 * cs.length) none ++ some cs.complaint :: none ::
      bodies.flatMap fun e => none :: e.returned

def Lambda.literals (l : Lambda) : List (Option Value) :=
  l.clauses.literals l.bodies

def Phrase.literals : Phrase → List (Option Value)
  | .one e | .opened e => e.literals
  | .many es => Expr.literalsIn es
  | .captured xs => List.replicate xs.length none
  | .clause _ e => e.returned
  | .cases _ bodies => bodies.flatMap fun e => none :: e.returned
  | .body cs bodies => cs.literals bodies

/-- An instruction that pushes a value, whatever the scene. -/
def Instruction.Gives (i : Instruction) (v : Value) : Prop :=
  ∀ (s : Scene) (σ : Store), s.turn σ i = .go (s.after [v] 1) σ

/-- An instruction that was emitted for the entry: a literal is pushed by an operation of its own, or is the
constant in the pool that is equal to it. -/
inductive Instruction.Spells (pool : List Value) : Instruction → Option Value → Prop
  | other (i : Instruction) : Spells pool i none
  | own {i : Instruction} {v : Value} (plain : i.op ≠ .const) (gives : i.Gives v) : Spells pool i (some v)
  | pooled {k : Nat} {u v : Value} (h : k ≤ maxOperand) (here : pool[k]? = some u) (same : (u == v) = true) :
    Spells pool ⟨.const, k, h⟩ (some v)

theorem Instruction.Spells.mono {pool more : List Value} {i : Instruction} {o : Option Value}
    (h : i.Spells pool o) (longer : pool <+: more) : i.Spells more o := by
  cases h with
  | other => exact .other i
  | own plain gives => exact .own plain gives
  | pooled h here same => exact .pooled h (getElem?_of_longer longer here) same

/-- Code was emitted for these literals. Its constants are among them, and no slot was given up. -/
structure Workshop.Writes (w x : Workshop) (entries : List (Option Value)) : Prop where
  code : ∃ code, x.body.code = w.body.code ++ code ∧
    List.Forall₂ (Instruction.Spells x.body.constants) code entries
  constants : w.body.constants <+: x.body.constants
  pool : ∀ v ∈ x.body.constants, v ∈ w.body.constants ∨ some v ∈ entries
  locals : w.body.localCount ≤ x.body.localCount

namespace Workshop

variable {w u x : Workshop} {entries more : List (Option Value)} {v : Value} {i : Instruction}

theorem Writes.quiet (code : x.body.code = w.body.code) (constants : x.body.constants = w.body.constants)
    (locals : w.body.localCount ≤ x.body.localCount) : w.Writes x [] where
  code := ⟨[], by rw [code, List.append_nil], .nil⟩
  constants := constants ▸ List.prefix_refl _
  pool v member := .inl (constants ▸ member)
  locals

theorem Writes.refl (w : Workshop) : w.Writes w [] :=
  .quiet rfl rfl (Nat.le_refl _)

theorem Writes.trans (h : w.Writes u entries) (g : u.Writes x more) : w.Writes x (entries ++ more) where
  code := by
    obtain ⟨first, before, spells⟩ := h.code
    obtain ⟨second, after, spelled⟩ := g.code
    refine ⟨first ++ second, by rw [after, before, List.append_assoc], ?_⟩
    exact List.rel_append (spells.imp fun _ _ spells => spells.mono g.constants) spelled
  constants := h.constants.trans g.constants
  pool v member := by
    rcases g.pool v member with old | new
    · exact (h.pool v old).imp id (List.mem_append_left _)
    · exact .inr (List.mem_append_right _ new)
  locals := Nat.le_trans h.locals g.locals

theorem Writes.after (h : u.Writes x entries) (quiet : w.Writes u []) : w.Writes x entries :=
  quiet.trans h

theorem Writes.then (h : w.Writes u entries) (quiet : u.Writes x []) : w.Writes x entries := by
  have both := h.trans quiet
  rwa [List.append_nil] at both

theorem Writes.length (h : w.Writes x entries) : x.body.code.length = w.body.code.length + entries.length := by
  obtain ⟨code, added, spells⟩ := h.code
  rw [added, List.length_append, spells.length_eq]

theorem writes_emit (i : Instruction) : w.Writes (w.emit i) [none] where
  code := ⟨[i], rfl, .cons (.other i) .nil⟩
  constants := List.prefix_refl _
  pool _ := .inl
  locals := Nat.le_refl _

theorem writes_own (plain : i.op ≠ .const) (gives : i.Gives v) : w.Writes (w.emit i) [some v] where
  code := ⟨[i], rfl, .cons (.own plain gives) .nil⟩
  constants := List.prefix_refl _
  pool _ := .inl
  locals := Nat.le_refl _

theorem writes_emitAll (is : List Instruction) :
    w.Writes (w.emitAll is) (List.replicate is.length none) := by
  induction is generalizing w with
  | nil =>
    rw [emitAll_nil]
    exact .refl w
  | cons i is ih =>
    rw [← emitAll_emit]
    exact (writes_emit i).trans ih

theorem writes_emitConst (v : Value) (h : w.place v ≤ maxOperand) : w.Writes (w.emitConst v h) [some v] where
  code := by
    obtain ⟨u, here, same⟩ := poolConstant_place w.body.constants v
    exact ⟨[⟨.const, w.place v, h⟩], rfl, .cons (.pooled h here same) .nil⟩
  constants := poolConstant_extends _ v
  pool u member := (mem_poolConstant member).imp id fun same => by rw [same]; exact List.mem_cons_self
  locals := Nat.le_refl _

theorem writes_label : w.Writes w.label [] :=
  .quiet rfl rfl (Nat.le_refl _)

theorem writes_labels (n : Nat) : w.Writes (w.labels n) [] := by
  induction n generalizing w with
  | zero => exact .refl w
  | succ n ih => exact writes_label.trans ih

theorem writes_store (store : Store) : w.Writes { w with store } [] :=
  .quiet rfl rfl (Nat.le_refl _)

theorem writes_enter (s : Scope) : w.Writes (w.enter s) [] :=
  .quiet rfl rfl (Nat.le_refl _)

theorem writes_leave : w.Writes w.leave [] := by
  have kept : w.leave.stage = w.stage := stage_leave w
  exact .quiet (congrArg Stage.code kept) (congrArg Stage.constants kept) (congrArg Stage.localCount kept).ge

theorem writes_reach (name : String) : w.Writes (w.reach name) [] := by
  unfold Workshop.reach
  split
  · exact .quiet rfl rfl (Nat.le_refl _)
  · exact .refl w

theorem writes_bindLocal (name : String) (kind : CellKind) : w.Writes (w.bindLocal name kind) [] := by
  obtain ⟨code, locals, -, -, constants⟩ := body_bindLocal w name kind
  exact .quiet code constants (locals ▸ Nat.le_max_left _ _)

end Workshop

theorem Instruction.gives_integer {n : Int64} {size : Nat} (whole : n.toInt.natAbs = size) (h : size ≤ maxOperand) :
    Instruction.Gives ⟨if n < 0 then .negInt else .posInt, size, h⟩ (.integer n) := by
  have small : size < countLimit := Nat.lt_of_le_of_lt h (by decide)
  have count : (Int64.ofNat size).toInt = size := toInt_count small
  have fits : size ≤ 16777215 := h
  intro s σ
  split
  next negative =>
    have below : n.toInt < 0 := Int64.lt_iff_toInt_lt.mp negative
    have same : -Int64.ofNat size = n := by
      rw [← Int64.toInt_inj, Int64.toInt_neg, count, Int.bmod_eq_of_le] <;> omega
    rw [← same]
    rfl
  next positive =>
    have above : 0 ≤ n.toInt := Int.not_lt.mp fun below => positive (Int64.lt_iff_toInt_lt.mpr below)
    have same : Int64.ofNat size = n := by
      rw [← Int64.toInt_inj, count]
      omega
    rw [← same]
    rfl

theorem Compile.literal_writes {w x : Workshop} {v : Value} (h : Yields (Compile.literal v) w () x) :
    w.Writes x [some v] := by
  unfold Compile.literal at h
  split at h
  · rw [Encode.emit_iff.mp h]
    exact writes_own (ne_of_beq_false rfl) fun _ _ => rfl
  · rw [Encode.emit_iff.mp h]
    exact writes_own (ne_of_beq_false rfl) fun _ _ => rfl
  · rw [Encode.emit_iff.mp h]
    exact writes_own (ne_of_beq_false rfl) fun _ _ => rfl
  next n =>
    dsimp only at h
    split at h
    · obtain ⟨fits, rfl⟩ := Encode.emitWith_iff.mp h
      refine writes_own ?_ (Instruction.gives_integer rfl fits)
      split <;> exact ne_of_beq_false rfl
    · obtain ⟨fits, rfl⟩ := Encode.emitConst_iff.mp h
      exact writes_emitConst _ fits
  · obtain ⟨fits, rfl⟩ := Encode.emitConst_iff.mp h
    exact writes_emitConst _ fits

theorem Tests.length {cs : List (Clause × Nat)} {is : List Instruction} (tests : Tests cs is) :
    is.length = 4 * cs.length := by
  induction tests with
  | nil => rfl
  | cons count named rest ih =>
    simp only [List.length_cons, ih]
    omega

/-- The tests of clauses, with a label for each of these. -/
theorem Workshop.writes_tests {w : Workshop} {cs : Clauses} {is : List Instruction}
    (tests : Tests (cs.zip (List.range' w.body.labelCount cs.length)) is) :
    w.Writes ((w.labels cs.length).emitAll is) (List.replicate (4 * cs.length) none) := by
  have before := (writes_emitAll (w := w.labels cs.length) is).after (writes_labels _)
  rwa [tests.length, List.length_zip, List.length_range', Nat.min_self] at before

theorem Clauses.literals_several {cs : Clauses} (many : cs.length ≠ 1) (bodies : List Expr) :
    cs.literals bodies = List.replicate (4 * cs.length) none ++
      ([some cs.complaint, none] ++ bodies.flatMap fun e => none :: e.returned) := by
  unfold Clauses.literals
  split
  · exact absurd rfl many
  · rfl

/-- Emitted code is for the literals of its phrase. -/
theorem Emits.writes {w x : Workshop} {ph : Phrase} (h : Emits w ph x) : w.Writes x ph.literals := by
  induction h with
  | literal pushes => exact Compile.literal_writes pushes
  | const h => exact writes_emitConst _ h
  | name found plain loads => exact (writes_emit _).after (writes_reach _)
  | through found reference loads =>
    exact ((writes_emit _).after (writes_reach _)).trans (writes_emit _)
  | later h => exact (writes_emitConst _ h).trans (writes_emit _)
  | seq before after ihBefore ihAfter => exact ihBefore.trans ((writes_emit _).trans ihAfter)
  | branch consequent done tests fails holds ihTest ihNo ihYes =>
    refine .trans (ihTest.after (writes_label.trans writes_label)) (.trans (writes_emit _) (.trans ihNo ?_))
    exact .trans (writes_emit _) (.trans (writes_emit _) (ihYes.trans (writes_emit _)))
  | scope inside ih => exact (ih.after (writes_enter _)).then writes_leave
  | define bound h g ih =>
    exact ih.trans ((writes_emitConst _ h).trans ((writes_emit _).trans (writes_emitConst _ g)))
  | @mention w x hidden op which h g =>
    exact (writes_emitConst _ h).trans ((writes_emit _).trans (writes_emitConst _ g))
  | call operands operator calls ihArgs ihHead =>
    exact ihArgs.trans (ihHead.trans (writes_emit _))
  | @intrinsic w u op times args operands ih =>
    have operations := writes_emitAll (w := u) (List.replicate times op.bare)
    rw [List.length_replicate] at operations
    exact ih.trans operations
  | constant inner alone built h ih => exact (writes_emitConst _ h).after (writes_store _)
  | closure inner some built loads h count ihInner ihLoads =>
    have pushes := (ihLoads.after (writes_store _)).trans ((writes_emitConst _ h).trans
      (writes_emit ⟨.makeClosure, _, count⟩))
    rw [Phrase.literals, List.length_reverse, List.length_map] at pushes
    rw [Phrase.literals, Expr.literals, if_neg some]
    exact pushes
  | bind bound admits h after ihValue ihRest =>
    exact ihValue.trans (((writes_emit _).after (writes_bindLocal _ _)).trans ihRest)
  | fresh admits h after ih =>
    exact ((writes_emit _).after (writes_bindLocal _ _)).trans ((writes_emit _).trans ih)
  | fill filled found reference loads after ihValue ihRest =>
    exact ihValue.trans ((writes_emit _).trans ((writes_emit _).trans ihRest))
  | last inside ih => exact ih
  | none => exact .refl _
  | more others first ihOthers ihFirst => exact ihOthers.trans ihFirst
  | loaded => exact .refl _
  | load found loads others ih => exact ((writes_emit _).after (writes_reach _)).trans ih
  | clause distinct inside ih => exact ((ih.after (writes_enter _)).trans (writes_emit _)).then writes_leave
  | caseNone => exact .refl _
  | caseMore h first others ihFirst ihOthers => exact ((writes_emit _).trans ihFirst).trans ihOthers
  | single only ih =>
    rw [Phrase.literals, Clauses.literals, List.flatMap_singleton]
    exact ih
  | @several w x cs bodies is v many tests message h arms ih =>
    rw [Phrase.literals, Clauses.literals_several many, Clauses.complaint, ← message]
    exact (writes_tests tests).trans (((writes_emitConst v h).trans (writes_emit Opcode.panic.bare)).trans ih)

end StackLisp
