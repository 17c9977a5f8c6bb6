import StackLisp.Proofs.Coverage
import StackLisp.Proofs.Seclusion

/-!
The code of clauses. One clause is its body and nothing else. Several are told apart by tests of the
argument count, each of which leads to the label of its clause; behind the tests is the message that no clause
fits.
-/

namespace StackLisp

open Chunk Workshop

theorem Clauses.arity_accepts {cs : Clauses} {n : Nat} : cs.arity.accepts n ↔ ∃ c ∈ cs, c.fits n := by
  unfold Clauses.arity
  rw [Arity.accepts_ofParts]
  constructor
  · rintro (fixed | ⟨least, listed, below⟩)
    · obtain ⟨c, member, rfl⟩ := List.mem_map.mp fixed
      obtain ⟨inside, plain⟩ := List.mem_filter.mp member
      exact ⟨c, inside, (fits_of_fixed (by simpa using plain)).mpr rfl⟩
    · obtain ⟨⟨c, inside, variadic, same⟩, -⟩ := leastRest?_eq_some listed
      exact ⟨c, inside, (fits_of_variadic variadic).mpr (same ▸ below)⟩
  · rintro ⟨c, inside, fits⟩
    cases variadic : c.isVariadic with
    | false =>
      refine .inl ((fits_of_fixed variadic).mp fits ▸ List.mem_map_of_mem (List.mem_filter.mpr ⟨inside, ?_⟩))
      simp [variadic]
    | true =>
      have above := (fits_of_variadic variadic).mp fits
      cases listed : leastRest? cs with
      | none => exact absurd variadic (by simp [leastRest?_eq_none listed c inside])
      | some least => exact .inr ⟨least, rfl, Nat.le_trans ((leastRest?_eq_some listed).2 c inside variadic) above⟩

theorem Arity.ascending_insertCount {n : Nat} {ms : List Nat} (h : ms.Pairwise (· < ·)) :
    (insertCount n ms).Pairwise (· < ·) := by
  induction ms with
  | nil => exact List.pairwise_singleton _ n
  | cons m ms ih =>
    obtain ⟨least, rest⟩ := List.pairwise_cons.mp h
    unfold insertCount
    split
    next below =>
      refine List.pairwise_cons.mpr ⟨fun k member => ?_, h⟩
      rcases List.mem_cons.mp member with rfl | later
      · exact below
      · exact Nat.lt_trans below (least k later)
    split
    · exact h
    next above other =>
      refine List.pairwise_cons.mpr ⟨fun k member => ?_, ih rest⟩
      rcases mem_insertCount.mp member with rfl | old
      · omega
      · exact least k old

/-- The fixed counts ascend, so that a search by halves finds each of them. -/
theorem Clauses.ascending_arity (cs : Clauses) : cs.arity.counts.Pairwise (· < ·) := by
  have ascending : ∀ counts : List Nat, (counts.foldr Arity.insertCount []).Pairwise (· < ·) := by
    intro counts
    induction counts with
    | nil => exact .nil
    | cons n counts ih => exact Arity.ascending_insertCount ih
  unfold Clauses.arity Arity.ofParts
  dsimp only
  split
  · exact ascending _
  · exact (ascending _).filter _

/-- What calls of a builtin that can be seen are written as. -/
def Compile.InPlace (known : String → Option Value) (i : Instruction) : Prop :=
  ∃ x b count op times, known x = some (.builtin b) ∧ expansion? b count = some (op, times) ∧ i = op.bare

/-- The cell is that of a parameter of the clause, or of the rest of the arguments. -/
def Clause.Offers (c : Clause) (cell : Cell) : Prop :=
  if cell.kind = .rest then c.isVariadic ∧ cell.index = c.fixedCount else cell.index < c.fixedCount

/-- An instruction that looks for an argument of a call that the clause fits, or for those past its
parameters. -/
structure Clause.Reads (c : Clause) (i : Instruction) : Prop where
  arg : i.op = .arg → i.operand < c.fixedCount
  rest : i.op = .restArg → c.isVariadic ∧ i.operand = c.fixedCount

/-- An instruction that is fine for calls of the clause, or one of some other kind. -/
def Clause.Allows (c : Clause) (P : Instruction → Prop) (i : Instruction) : Prop :=
  c.Reads i ∨ P i

/-- The arguments that names in scope stand for are those of the clause. -/
def Workshop.Within (w : Workshop) (c : Clause) : Prop :=
  ∀ s ∈ w.body.scopes, ∀ entry ∈ s.cells, entry.2.scope = .args → c.Offers entry.2

/-- Code is added, all of it of this kind. -/
def Workshop.Adds (w x : Workshop) (P : Instruction → Prop) : Prop :=
  ∃ code, x.body.code = w.body.code ++ code ∧ ∀ i ∈ code, P i

section

variable {w u x : Workshop} {c : Clause} {i : Instruction} {cell : Cell} {name : String}
  {P : Instruction → Prop}

theorem Clause.reads_of_ne (h : i.op ≠ .arg ∧ i.op ≠ .restArg) : c.Reads i :=
  ⟨fun arg => absurd arg h.1, fun rest => absurd rest h.2⟩

theorem Clause.allows_of_ne (h : i.op ≠ .arg ∧ i.op ≠ .restArg) : c.Allows P i :=
  .inl (reads_of_ne h)

theorem Clause.cells_offered (c : Clause) : ∀ entry ∈ c.cells, c.Offers entry.2 := by
  intro entry member
  unfold cells at member
  rcases List.mem_append.mp member with named | rest
  · obtain ⟨⟨x, k⟩, inside, rfl⟩ := List.mem_map.mp named
    have below := (List.mem_zipIdx inside).2.1
    show (if _ then _ else _)
    rw [if_neg nofun]
    simpa [argCell, fixedCount] using below
  · obtain ⟨x, inside, rfl⟩ := List.mem_map.mp rest
    show (if _ then _ else _)
    rw [if_pos rfl]
    exact ⟨by rw [isVariadic, Option.mem_toList.mp inside]; rfl, rfl⟩

theorem Cell.Loads.reads (loads : cell.Loads i) (offers : cell.scope = .args → c.Offers cell) : c.Reads i := by
  obtain ⟨kind, scope, index⟩ := cell
  obtain ⟨loader, place⟩ := loads
  cases scope with
  | args =>
    have offered : if kind = .rest then c.isVariadic ∧ index = c.fixedCount else index < c.fixedCount :=
      offers rfl
    have same : i.operand = index := place nofun
    cases kind with
    | rest => exact ⟨fun arg => (by rw [loader] at arg; cases arg), fun _ => same ▸ offered⟩
    | _ => exact ⟨fun _ => same ▸ offered, fun rest => (by rw [loader] at rest; cases rest)⟩
  | _ => exact Clause.reads_of_ne (by rw [loader]; exact ⟨nofun, nofun⟩)

namespace Workshop

theorem Adds.refl (w : Workshop) (P : Instruction → Prop) : w.Adds w P :=
  ⟨[], by simp, fun _ => nofun⟩

theorem Adds.trans (h : w.Adds u P) (g : u.Adds x P) : w.Adds x P := by
  obtain ⟨code, adds, each⟩ := h
  obtain ⟨more, adds', each'⟩ := g
  exact ⟨code ++ more, by rw [adds', adds, List.append_assoc], List.forall_mem_append.mpr ⟨each, each'⟩⟩

theorem adds_emitAll {is : List Instruction} (each : ∀ i ∈ is, P i) : w.Adds (w.emitAll is) P :=
  ⟨is, rfl, each⟩

theorem adds_emit (each : P i) : w.Adds (w.emit i) P :=
  ⟨[i], rfl, List.forall_mem_singleton.mpr each⟩

theorem adds_reach (name : String) : w.Adds (w.reach name) P := by
  unfold reach
  split
  · exact ⟨[], by simp, fun _ => nofun⟩
  · exact .refl w P

theorem adds_leave (w : Workshop) : w.Adds w.leave P :=
  ⟨[], by rw [code_leave, List.append_nil], fun _ => nofun⟩

theorem adds_bindLocal (name : String) (kind : CellKind) : w.Adds (w.bindLocal name kind) P :=
  ⟨[], by rw [List.append_nil, (body_bindLocal w name kind).1], fun _ => nofun⟩

theorem code_labels (w : Workshop) (n : Nat) : (w.labels n).body.code = w.body.code := by
  induction n generalizing w with
  | zero => rfl
  | succ n ih => exact ih w.label

theorem adds_emitConst {v : Value} (h : w.place v ≤ maxOperand) : w.Adds (w.emitConst v h) (c.Allows P) :=
  ⟨_, rfl, List.forall_mem_singleton.mpr (Clause.allows_of_ne ⟨nofun, nofun⟩)⟩

theorem adds_other (op : Opcode) {operand : Nat} (small : operand ≤ maxOperand) (h : op ≠ .arg ∧ op ≠ .restArg) :
    w.Adds (w.emit ⟨op, operand, small⟩) (c.Allows P) :=
  adds_emit (Clause.allows_of_ne h)

theorem adds_bare (op : Opcode) (h : op ≠ .arg ∧ op ≠ .restArg) : w.Adds (w.emit op.bare) (c.Allows P) :=
  adds_other op _ h

theorem Within.stays (h : w.Within c) (stays : w.Stays x) : x.Within c := by
  unfold Within
  rw [stays.scopes]
  exact h

theorem Within.enter (h : w.Within c) : (w.enter { kind := .locals }).Within c :=
  List.forall_mem_cons.mpr ⟨fun _ => nofun, h⟩

theorem Within.bindLocal (h : w.Within c) (name : String) (kind : CellKind) : (w.bindLocal name kind).Within c := by
  intro s member entry inside
  rcases scopes_bindLocal w name kind member inside with new | ⟨t, old, there⟩
  · rw [new]
    exact nofun
  · exact h t old entry there

/-- The cell of a name that can be seen is one of a scope if it stands for an argument. -/
theorem Within.offers (h : w.Within c) (found : w.cell? name = some cell) : cell.scope = .args → c.Offers cell := by
  intro args
  unfold cell? at found
  split at found
  next own lexical =>
    obtain rfl := Option.some.inj found
    unfold Body.lexical? at lexical
    split at lexical
    next kept looked =>
      obtain rfl := Option.some.inj lexical
      obtain ⟨s, member, there⟩ := List.exists_of_findSome?_eq_some looked
      obtain ⟨before, after, same, -⟩ := List.lookup_eq_some_iff.mp there
      exact h s member (name, kept) (by rw [same]; simp) args
    · split at lexical
      · obtain rfl := Option.some.inj lexical
        cases args
      · split at lexical
        · obtain rfl := Option.some.inj lexical
          cases args
        · cases lexical
  · obtain ⟨kind, -, rfl⟩ := Option.map_eq_some_iff.mp found
    cases args

end Workshop

theorem ne_arg_of_callShape? {shape : Nat × Bool} (h : callShape? i = some shape) :
    i.op ≠ .arg ∧ i.op ≠ .restArg := by
  constructor <;> intro op <;> simp [callShape?, op] at h

/-- The code of what stands under a clause looks for the arguments of the clause only, but for what is written in
place of calls. -/
theorem Emits.reads {ph : Phrase} (h : Emits w ph x) (part : ph.IsPart)
    (inPlace : ∀ entry ∈ ph.operators, P entry.1.bare) (within : w.Within c) : w.Adds x (c.Allows P) := by
  induction h with
  | literal pushes =>
    rcases literal_adds pushes with ⟨i, ops, rfl⟩ | ⟨h, rfl⟩
    · exact adds_emit (Clause.allows_of_ne (by constructor <;> intro op <;> simp [op] at ops))
    · exact adds_emitConst h
  | const h => exact adds_emitConst h
  | name found plain loads => exact (adds_reach _).trans (adds_emit (.inl (loads.reads (within.offers found))))
  | through found reference loads =>
    exact ((adds_reach _).trans (adds_emit (.inl (loads.reads (within.offers found))))).trans
      (adds_bare .deref (by decide))
  | later h => exact (adds_emitConst h).trans (adds_bare .resolve (by decide))
  | seq before after ihBefore ihAfter =>
    obtain ⟨first, rest⟩ := List.forall_mem_append.mp inPlace
    have within' := (within.stays (Emits.leaves before)).stays (stays_emit Opcode.pop.bare)
    exact ((ihBefore trivial first within).trans (adds_bare .pop (by decide))).trans (ihAfter trivial rest within')
  | branch consequent done tests fails holds ihTest ihNo ihYes =>
    obtain ⟨both, yes⟩ := List.forall_mem_append.mp inPlace
    obtain ⟨test, no⟩ := List.forall_mem_append.mp both
    have labelled : (_ : Workshop).Within c := within.stays (stays_label.trans stays_label)
    have tested := (labelled.stays (Emits.leaves tests)).stays (stays_emit ⟨.condJump, _, consequent⟩)
    have failed := ((tested.stays (Emits.leaves fails)).stays (stays_emit ⟨.jump, _, done⟩)).stays
      (stays_emit ⟨.label, _, consequent⟩)
    have taken : Adds _ _ (c.Allows P) := ihTest trivial test labelled
    exact ((((taken.trans (adds_other .condJump consequent (by decide))).trans (ihNo trivial no tested)).trans
      ((adds_other .jump done (by decide)).trans (adds_other .label consequent (by decide)))).trans
        (ihYes trivial yes failed)).trans (adds_other .label done (by decide))
  | scope inside ih =>
    obtain ⟨code, adds, each⟩ := ih trivial inPlace within.enter
    exact .trans ⟨code, adds, each⟩ (adds_leave _)
  | define bound h g ih =>
    exact (((ih trivial inPlace within).trans (adds_emitConst h)).trans (adds_bare .bind (by decide))).trans
      (adds_emitConst g)
  | mention which h g =>
    refine ((adds_emitConst h).trans (adds_bare _ ?_)).trans (adds_emitConst g)
    rw [which]
    split <;> decide
  | call operands operator calls ihArgs ihHead =>
    obtain ⟨args, head⟩ := List.forall_mem_append.mp inPlace
    exact ((ihArgs trivial args within).trans (ihHead trivial head (within.stays (Emits.leaves operands)))).trans
      (adds_emit (Clause.allows_of_ne (ne_arg_of_callShape? calls)))
  | intrinsic operands ih =>
    obtain ⟨own, args⟩ := List.forall_mem_cons.mp inPlace
    refine (ih trivial args within).trans (adds_emitAll fun i member => ?_)
    rw [List.eq_of_mem_replicate member]
    exact .inr own
  | constant inner alone built h ih => exact adds_emitConst h
  | closure inner some built loads h count ihInner ihLoads =>
    have loaded : Adds _ _ (c.Allows P) := ihLoads trivial (fun _ member => absurd member List.not_mem_nil) within
    exact (loaded.trans (adds_emitConst h)).trans (adds_other .makeClosure count (by decide))
  | @bind w u z y _ _ bound admits h after ihValue ihRest =>
    obtain ⟨value, rest⟩ := List.forall_mem_append.mp inPlace
    have within' := ((within.stays (Emits.leaves bound)).bindLocal y .value).stays (stays_emit ⟨.store, _, h⟩)
    exact (((ihValue trivial value within).trans (adds_bindLocal _ _)).trans
      (adds_other .store h (by decide))).trans (ihRest trivial rest within')
  | @fresh w z y _ admits h after ih =>
    have within' := (within.bindLocal y .reference).stays
      ((stays_emit Opcode.newRef.bare).trans (stays_emit ⟨.store, _, h⟩))
    exact (((adds_bindLocal _ _).trans (adds_bare .newRef (by decide))).trans
      (adds_other .store h (by decide))).trans (ih trivial inPlace within')
  | fill filled found reference loads after ihValue ihRest =>
    obtain ⟨value, rest⟩ := List.forall_mem_append.mp inPlace
    have filled' := within.stays (Emits.leaves filled)
    have seen := filled'.offers (by rw [cell?, found])
    exact (((ihValue trivial value within).trans (adds_emit (.inl (loads.reads seen)))).trans
      (adds_bare .bindRef (by decide))).trans (ihRest trivial rest
        (filled'.stays ((stays_emit _).trans (stays_emit Opcode.bindRef.bare))))
  | last inside ih => exact ih trivial inPlace within
  | none => exact .refl _ _
  | more others first ihOthers ihFirst =>
    obtain ⟨own, rest⟩ := List.forall_mem_append.mp inPlace
    exact (ihOthers trivial rest within).trans (ihFirst trivial own (within.stays (Emits.leaves others)))
  | loaded => exact .refl _ _
  | load found loads others ih =>
    exact ((adds_reach _).trans (adds_emit (.inl (loads.reads (within.offers found))))).trans
      (ih trivial (fun _ member => absurd member List.not_mem_nil)
        (within.stays ((stays_reach _).trans (stays_emit _))))
  | clause | caseNone | caseMore | single | several => exact part.elim

end

/-- A clause with its label, where it has one, and its code. -/
structure Arm where
  clause : Clause
  label : Nat
  code : List Instruction

/-- The code of a clause is that of its body, which keeps to itself, and a return. -/
def Chunk.Contained (code : List Instruction) : Prop :=
  ∃ body, code = body ++ [Opcode.ret.bare] ∧ Secluded body ∧ body ≠ []

namespace Arm

/-- The code looks for no arguments but those of the clause, if what stands in place of calls does not. -/
def Keeps (known : String → Option Value) (arm : Arm) : Prop :=
  ∀ i ∈ arm.code, arm.clause.Allows (Compile.InPlace known) i

/-- What the clauses are told apart by. -/
def pair (arm : Arm) : Clause × Nat :=
  (arm.clause, arm.label)

/-- The compiler lays down the arms, from one workshop to another: for each its label, and behind that what the
clause comes to. -/
inductive Laid (f : Compile.FormCompiler) : Workshop → List Arm → Workshop → Prop
  | nil {w : Workshop} : Laid f w [] w
  | cons {w u x : Workshop} {arm : Arm} {arms : List Arm} (h : arm.label ≤ maxOperand)
      (yields : Yields (Compile.clause f arm.clause) (w.emit ⟨.label, arm.label, h⟩) () u)
      (code : u.body.code = (w.emit ⟨.label, arm.label, h⟩).body.code ++ arm.code) (others : Laid f u arms x) :
    Laid f w (arm :: arms) x

/-- The compiler lays down what clauses come to: the one arm, or the tests of several, the message that no clause
fits, and the arms. -/
inductive Written (f : Compile.FormCompiler) (w : Workshop) : List Arm → Workshop → Prop
  | single {x : Workshop} {arm : Arm} (yields : Yields (Compile.clause f arm.clause) w () x)
      (code : x.body.code = w.body.code ++ arm.code) : Written f w [arm] x
  | several {x : Workshop} {arms : List Arm} {is : List Instruction} {v : Value} (many : arms.length ≠ 1)
      (labels : arms.map Arm.label = List.range' w.body.labelCount arms.length) (tests : Tests (arms.map pair) is)
      (message : v = .string s!"wrong number of arguments: expected {(Clauses.arity (arms.map Arm.clause)).text}")
      (h : ((w.labels arms.length).emitAll is).place v ≤ maxOperand)
      (laid : Laid f ((((w.labels arms.length).emitAll is).emitConst v h).emit Opcode.panic.bare) arms x) :
    Written f w arms x

/-- The arms one after another, each at its label. -/
inductive Lie : List Arm → List Instruction → Prop
  | nil : Lie [] []
  | cons {arm : Arm} {arms : List Arm} {rest : List Instruction} (h : arm.label ≤ maxOperand)
    (others : Lie arms rest) : Lie (arm :: arms) (⟨.label, arm.label, h⟩ :: (arm.code ++ rest))

/-- What stands before the arms: their tests, and behind these what no argument count is to come to. -/
inductive Gate (arms : List Arm) : List Instruction → Prop
  | intro {is : List Instruction} {place : Nat} (tests : Tests (arms.map pair) is) (h : place ≤ maxOperand) :
    Gate arms (is ++ [⟨.const, place, h⟩, Opcode.panic.bare])

/-- The code of a body with these arms. Several have the first labels of all. -/
inductive Fill : List Arm → List Instruction → Prop
  | single (arm : Arm) : Fill [arm] arm.code
  | several {arms : List Arm} {gate rest : List Instruction} (many : arms.length ≠ 1)
    (labels : arms.map Arm.label = List.range arms.length) (gates : Gate arms gate) (lie : Lie arms rest) :
    Fill arms (gate ++ rest)

variable {f : Compile.FormCompiler} {w x : Workshop} {arms : List Arm} {arm : Arm} {code : List Instruction}

theorem Laid.lie (h : Laid f w arms x) : ∃ code, x.body.code = w.body.code ++ code ∧ Lie arms code := by
  induction h with
  | nil => exact ⟨[], (List.append_nil _).symm, .nil⟩
  | @cons w u x arm arms h _ code _ ih =>
    obtain ⟨rest, adds, lie⟩ := ih
    refine ⟨_, ?_, .cons h lie⟩
    rw [adds, code]
    show w.body.code ++ [_] ++ arm.code ++ rest = _
    simp

theorem Lie.place (h : Lie arms code) (member : arm ∈ arms) : ∃ before i after, i.op = .label ∧
    i.operand = arm.label ∧ code = before ++ i :: (arm.code ++ after) := by
  induction h with
  | nil => cases member
  | @cons first arms rest small others ih =>
    rcases List.mem_cons.mp member with rfl | later
    · exact ⟨[], _, rest, rfl, rfl, rfl⟩
    · obtain ⟨before, i, after, label, named, rfl⟩ := ih later
      refine ⟨⟨.label, first.label, small⟩ :: (first.code ++ before), i, after, label, named, ?_⟩
      simp

theorem Written.fill (h : Written f w arms x) (blank : w.body.code = []) (unlabelled : w.body.labelCount = 0) :
    Fill arms x.body.code := by
  cases h with
  | single _ code =>
    rw [code, blank]
    exact .single _
  | several many labels tests _ h laid =>
    obtain ⟨rest, adds, lie⟩ := laid.lie
    rw [adds]
    show Fill arms ((w.labels arms.length).body.code ++ _ ++ [_] ++ [_] ++ rest)
    rw [code_labels, blank, List.nil_append, List.append_assoc _ [_] [_]]
    exact .several many (by rw [labels, unlabelled, List.range_eq_range']) (.intro tests h) lie

end Arm

namespace Compile

open Encode

variable {known : String → Option Value} {n : Nat} {f : FormCompiler} {w x : Workshop} {c : Clause}
  {cs : Clauses}

section

variable (forms : ∀ v, v.nesting ≤ n → Elaborates known (f v) (.form v))

include forms

theorem clause_code (nested : ∀ v ∈ c.body, v.nesting ≤ n) (sound : w.Sound) (knows : w.Knows known)
    (alone : w.body.scopes = []) (yields : Yields (clause f c) w () x) : w.Stays x ∧
      ∃ code, x.body.code = w.body.code ++ code ∧ Contained code ∧
        ∀ i ∈ code, c.Allows (InPlace known) i := by
  obtain ⟨e, emits, reads⟩ := clause_elaborates forms nested sound knows yields
  have operators : ∀ entry ∈ e.operators, Expands known entry := (reads x.body.captured fun _ => id).operators
  refine ⟨Emits.leaves emits, ?_⟩
  cases emits with
  | @clause _ u _ _ distinct inside =>
    obtain ⟨body, adds, secluded, some⟩ := inside.adjoins trivial fun entry member => (operators entry member).pos
    refine ⟨body ++ [Opcode.ret.bare], ?_, ⟨body, rfl, secluded, some trivial⟩, ?_⟩
    · rw [code_leave]
      show u.body.code ++ [_] = _
      rw [adds, List.append_assoc]
      rfl
    · have within : (w.enter ⟨.args, c.cells.reverse⟩).Within c := by
        refine List.forall_mem_cons.mpr ⟨fun entry member _ => ?_, ?_⟩
        · exact c.cells_offered entry (List.mem_reverse.mp member)
        · change ∀ s ∈ w.body.scopes, _
          rw [alone]
          exact fun _ => nofun
      have inPlace : ∀ entry ∈ e.operators, InPlace known entry.1.bare := by
        intro entry member
        obtain ⟨name, b, times, bound, expands⟩ := operators entry member
        exact ⟨name, b, _, _, times, bound, expands, rfl⟩
      obtain ⟨same, adds', each⟩ := inside.reads trivial inPlace within
      obtain rfl := List.append_cancel_left (adds.symm.trans adds')
      exact List.forall_mem_append.mpr ⟨each, List.forall_mem_singleton.mpr (Clause.allows_of_ne ⟨nofun, nofun⟩)⟩

theorem cases_arms {cs : List (Clause × Nat)} (nested : ∀ c ∈ cs, ∀ v ∈ c.1.body, v.nesting ≤ n)
    (sound : w.Sound) (knows : w.Knows known) (alone : w.body.scopes = [])
    (yields : Yields (cs.forM fun (c, label) => do
      anchor label
      clause f c) w () x) : ∃ arms : List Arm, arms.map Arm.pair = cs ∧ Arm.Laid f w arms x ∧
        ∀ arm ∈ arms, Contained arm.code ∧ arm.Keeps known := by
  induction cs generalizing w with
  | nil =>
    obtain rfl := Yields.forM_nil_iff.mp yields
    exact ⟨[], rfl, .nil, fun _ => nofun⟩
  | cons pair cs ih =>
    obtain ⟨c, label⟩ := pair
    obtain ⟨u, first, rest⟩ := Yields.forM_cons_iff.mp yields
    obtain ⟨_, y, anchored, body⟩ := Yields.bind_iff.mp first
    obtain ⟨h, rfl⟩ := anchor_iff.mp anchored
    have anchors : w.Stays (w.emit ⟨.label, label, h⟩) := stays_emit _
    obtain ⟨stays, code, adds, contained, keeps⟩ := clause_code forms (nested (c, label) List.mem_cons_self)
      (anchors.sound sound) (knows.extend anchors.toExtends) alone body
    have all : w.Stays u := anchors.trans stays
    obtain ⟨arms, named, laid, each⟩ := ih (fun c member => nested c (List.mem_cons_of_mem _ member))
      (all.sound sound) (knows.extend all.toExtends) (all.scopes.trans alone) rest
    exact ⟨⟨c, label, code⟩ :: arms, congrArg _ named, .cons h body adds laid,
      List.forall_mem_cons.mpr ⟨⟨contained, keeps⟩, each⟩⟩

theorem clauses_arms (nested : ∀ c ∈ cs, ∀ v ∈ c.body, v.nesting ≤ n) (sound : w.Sound) (knows : w.Knows known)
    (alone : w.body.scopes = []) (yields : Yields (clauses f cs) w () x) :
    ∃ arms : List Arm, arms.map Arm.clause = cs ∧ Arm.Written f w arms x ∧
      ∀ arm ∈ arms, Contained arm.code ∧ arm.Keeps known := by
  unfold clauses at yields
  split at yields
  next c =>
    obtain ⟨-, code, adds, contained, keeps⟩ :=
      clause_code forms (nested c List.mem_cons_self) sound knows alone yields
    exact ⟨[⟨c, 0, code⟩], rfl, .single yields adds, List.forall_mem_singleton.mpr ⟨contained, keeps⟩⟩
  next several =>
    obtain ⟨labels, u₁, labelled, yields⟩ := Yields.bind_iff.mp yields
    obtain ⟨_, u₂, tested, yields⟩ := Yields.bind_iff.mp yields
    obtain ⟨_, u₃, told, yields⟩ := Yields.bind_iff.mp yields
    obtain ⟨_, u₄, panics, bodies⟩ := Yields.bind_iff.mp yields
    obtain ⟨rfl, rfl⟩ := labels_yields labelled
    obtain ⟨is, tests, rfl⟩ := dispatch_yields tested
    obtain ⟨h, rfl⟩ := emitConst_iff.mp told
    obtain rfl := emit_iff.mp panics
    have stays : w.Stays ((((w.labels cs.length).emitAll is).emitConst _ h).emit Opcode.panic.bare) :=
      (((stays_labels _).trans (stays_emitAll _)).trans (stays_emitConst _ h)).trans (stays_emit _)
    have names : (cs.zip (List.range' w.body.labelCount cs.length)).map Prod.fst = cs :=
      List.map_fst_zip (by simp)
    obtain ⟨arms, named, laid, each⟩ := cases_arms forms (fun c member v inside =>
      nested c.1 (names ▸ List.mem_map_of_mem member) v inside) (stays.sound sound)
      (knows.extend stays.toExtends) (stays.scopes.trans alone) bodies
    have same : arms.map Arm.clause = cs := by
      rw [← names, ← named, List.map_map]
      rfl
    have length : arms.length = cs.length := by rw [← same, List.length_map]
    have labels : arms.map Arm.label = List.range' w.body.labelCount cs.length := by
      have seconds : (cs.zip (List.range' w.body.labelCount cs.length)).map Prod.snd = _ := List.map_snd_zip (by simp)
      rw [← seconds, ← named, List.map_map]
      rfl
    have none : arms.length ≠ 1 := fun single => by
      obtain ⟨arm, rfl⟩ := List.length_eq_one_iff.mp single
      exact several arm.clause (same ▸ rfl)
    rw [← named] at tests
    clear stays labelled tested told panics bodies
    generalize cs.length = k at *
    obtain rfl := length
    exact ⟨arms, same, .several none labels tests (same ▸ rfl) h laid, each⟩

end

end Compile

end StackLisp
