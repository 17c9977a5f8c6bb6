import StackLisp.Machine
import StackLisp.Proofs.Elaboration
import StackLisp.Proofs.Returns
import StackLisp.Proofs.Sameness

/-!
Which calls become tail calls. A call in tail position does if its path leads through the alternative of
at most one conditional; through more it stays a call, since each alternative ends in a jump of its own
and the passes see through one of them.
-/

namespace StackLisp

open Chunk Workshop

/-- A call by its argument count and, in tail position, the number of conditionals whose alternative it
stands in. -/
abbrev CallSite := Nat × Option Nat

mutual

/-- The calls of an expression in the order of their code. Those of the lambdas in it are not its own. -/
def Expr.calls (position : Option Nat) : Expr → List CallSite
  | .literal _ | .name _ | .through _ | .later _ | .mention _ _ | .lambda _ _ _ _ _ => []
  | .seq first rest => first.calls none ++ rest.calls position
  | .branch test yes no =>
    test.calls none ++ no.calls (position.map (· + 1)) ++ yes.calls position
  | .scope e => e.calls position
  | .bind _ value rest => value.calls none ++ rest.calls position
  | .fresh _ rest => rest.calls position
  | .fill _ value rest => value.calls none ++ rest.calls position
  | .define _ value => value.calls none
  | .call args head => Expr.callsIn args ++ head.calls none ++ [(args.length, position)]
  | .intrinsic op times args =>
    Expr.callsIn args ++
      ((List.replicate times op.bare).filterMap callShape?).map fun shape => (shape.1, none)
termination_by structural e => e

/-- Arguments have their code last to first. -/
def Expr.callsIn : List Expr → List CallSite
  | [] => []
  | e :: es => Expr.callsIn es ++ e.calls none
termination_by structural es => es

end

mutual

/-- The lambdas in an expression, with the procedure of each and its bodies. Those in the bodies of
another lambda are not its own. -/
def Expr.lambdas : Expr → List (Procedure Value × List Expr)
  | .literal _ | .name _ | .through _ | .later _ | .mention _ _ => []
  | .seq first rest => first.lambdas ++ rest.lambdas
  | .branch test yes no => test.lambdas ++ no.lambdas ++ yes.lambdas
  | .scope e => e.lambdas
  | .bind _ value rest => value.lambdas ++ rest.lambdas
  | .fresh _ rest => rest.lambdas
  | .fill _ value rest => value.lambdas ++ rest.lambdas
  | .define _ value => value.lambdas
  | .call args head => Expr.lambdasIn args ++ head.lambdas
  | .intrinsic _ _ args => Expr.lambdasIn args
  | .lambda p _ _ _ bodies => [(p, bodies)]
termination_by structural e => e

def Expr.lambdasIn : List Expr → List (Procedure Value × List Expr)
  | [] => []
  | e :: es => e.lambdas ++ Expr.lambdasIn es
termination_by structural es => es

end

/-- The calls of the bodies of a lambda, each of which ends in a return. -/
def Expr.callsOf (bodies : List Expr) : List CallSite :=
  bodies.flatMap (Expr.calls (some 0))

/-- What becomes of a call: in tail position it is a tail call just if it stands in no more than one
alternative. -/
def CallSite.Becomes (c : CallSite) (shape : Nat × Bool) : Prop :=
  shape.1 = c.1 ∧ ∀ alternatives, c.2 = some alternatives → shape.2 = decide (alternatives ≤ 1)

/-- The calls of the code, in order, are what becomes of the sites. -/
def Settled (sites : List CallSite) (code : List Instruction) : Prop :=
  List.Forall₂ CallSite.Becomes sites (code.filterMap callShape?)

/-- The calls of a procedure with these bodies are what becomes of their sites. So are those of the lambdas
inside, each of which equals a constant of the procedure. -/
inductive Procedure.Settles : Procedure Value → List Expr → Prop
  | intro {p : Procedure Value} {bodies : List Expr} (calls : Settled (Expr.callsOf bodies) p.code)
      (constants : ∀ made ∈ Expr.lambdasIn bodies, ∃ v ∈ p.constants,
        (v == .procedure made.1) = true ∨ (v == .closure made.1 []) = true)
      (inner : ∀ made ∈ Expr.lambdasIn bodies, Procedure.Settles made.1 made.2) :
    Procedure.Settles p bodies

/-- The calls between two addresses of code before its conversion are what becomes of the sites. -/
def Between (code : List Instruction) (start stop : Nat) (sites : List CallSite) : Prop :=
  ∃ shapes, settle (code.drop start) = shapes ++ settle (code.drop stop) ∧
    List.Forall₂ CallSite.Becomes sites shapes

namespace Between

variable {code : List Instruction} {a b c : Nat}

theorem refl (code : List Instruction) (a : Nat) : Between code a a [] :=
  ⟨[], rfl, .nil⟩

theorem trans {first second : List CallSite} (h : Between code a b first)
    (g : Between code b c second) : Between code a c (first ++ second) := by
  obtain ⟨shapes, settles, becomes⟩ := h
  obtain ⟨more, settles', becomes'⟩ := g
  exact ⟨shapes ++ more, by rw [settles, settles', List.append_assoc], List.rel_append becomes becomes'⟩

theorem plainAfter {sites : List CallSite} (h : Between code a b sites) (g : Between code b c []) :
    Between code a c sites := by
  have both := h.trans g
  rwa [List.append_nil] at both

theorem plain {i : Instruction} (here : code[a]? = some i) (shape : callShape? i = none) :
    Between code a (a + 1) [] := by
  obtain ⟨inside, rfl⟩ := List.getElem?_eq_some_iff.mp here
  refine ⟨[], ?_, .nil⟩
  rw [List.drop_eq_getElem_cons inside, settle_plain shape]
  rfl

theorem call {i : Instruction} {count : Nat} {tail : Bool} (here : code[a]? = some i)
    (shape : callShape? i = some (count, tail)) {position : Option Nat}
    (becomes : ∀ alternatives, position = some alternatives →
      (tail || leadsToReturn code (a + 1)) = decide (alternatives ≤ 1)) :
    Between code a (a + 1) [(count, position)] := by
  obtain ⟨inside, rfl⟩ := List.getElem?_eq_some_iff.mp here
  refine ⟨[(count, tail || leadsToReturn code (a + 1))], ?_, .cons ⟨rfl, becomes⟩ .nil⟩
  rw [List.drop_eq_getElem_cons inside, settle_call shape, leadsToReturn_drop]
  rfl

end Between

def Workshop.size (w : Workshop) : Nat :=
  w.body.code.length

/-- The calls of a phrase. -/
def Phrase.calls (position : Option Nat) : Phrase → List CallSite
  | .one e | .opened e => e.calls position
  | .many es => Expr.callsIn es
  | .captured _ => []
  | .clause _ e => e.calls (some 0)
  | .cases _ bodies | .body _ bodies => Expr.callsOf bodies

section

variable {w x : Workshop} {code : List Instruction}

theorem Workshop.size_emit (w : Workshop) (i : Instruction) : (w.emit i).size = w.size + 1 := by
  simp [size, emit]

theorem Workshop.code_leave (w : Workshop) : w.leave.body.code = w.body.code := by
  simp only [Workshop.leave, body_alter]
  split <;> rfl

theorem Workshop.size_leave (w : Workshop) : w.leave.size = w.size := by
  rw [size, code_leave, size]

theorem Workshop.size_bindLocal (w : Workshop) (name : String) (kind : CellKind) :
    (w.bindLocal name kind).size = w.size := by
  simp only [size, bindLocal, slot, declare, body_alter]
  split <;> rfl

theorem Workshop.size_labels (w : Workshop) (n : Nat) : (w.labels n).size = w.size := by
  induction n generalizing w with
  | zero => rfl
  | succ n ih => exact ih w.label

theorem Workshop.size_reach (w : Workshop) (name : String) : (w.reach name).size = w.size := by
  unfold reach
  split <;> rfl

theorem Workshop.Extends.size_le (h : w.Extends x) : w.size ≤ x.size :=
  h.code.length_le

theorem Cell.Loads.plain {cell : Cell} {i : Instruction} (h : cell.Loads i) : callShape? i = none := by
  obtain ⟨kind, scope, index⟩ := cell
  have op := h.1
  unfold callShape?
  cases scope <;> cases kind <;> rw [op] <;> rfl

theorem Tests.plain {cs : List (Clause × Nat)} {is : List Instruction} (h : Tests cs is) :
    is.filterMap callShape? = [] := by
  induction h with
  | nil => rfl
  | @cons c label cs is count named rest ih =>
    have compares : callShape? (if c.isVariadic then Opcode.numGte else Opcode.numEq).bare = none := by
      split <;> rfl
    rw [List.filterMap_cons_none rfl, List.filterMap_cons_none rfl, List.filterMap_cons_none compares,
      List.filterMap_cons_none rfl, ih]

theorem Workshop.Extends.within (h : w.Extends x) (inside : x.body.code <+: code) :
    w.body.code <+: code :=
  h.code.trans inside

theorem Workshop.emitted {i : Instruction} (inside : (w.emit i).body.code <+: code) :
    code[w.size]? = some i := by
  obtain ⟨rest, rfl⟩ := inside
  have here : (w.emit i).body.code = w.body.code ++ [i] := rfl
  unfold size
  rw [here, List.append_assoc, List.getElem?_append_right (Nat.le_refl _)]
  simp

/-- An instruction that is no call stays none, whatever the first pass makes of it. -/
theorem Workshop.between_emit {i : Instruction} (inside : (w.emit i).body.code <+: code)
    (shape : callShape? i = none) : Between (returnEarly code) w.size (w.emit i).size [] := by
  have here := emitted inside
  have early := early_returnEarly code
  rw [size_emit]
  by_cases jump : i.op = .jump
  · rcases early.jumps here jump with same | ret
    · exact .plain same shape
    · exact .plain ret rfl
  · exact .plain (early.kept here jump) shape

theorem Workshop.between_emitAll {is : List Instruction} (inside : (w.emitAll is).body.code <+: code) :
    Between (returnEarly code) w.size (w.emitAll is).size
      ((is.filterMap callShape?).map fun shape => (shape.1, none)) := by
  induction is generalizing w with
  | nil =>
    rw [emitAll_nil]
    exact .refl _ _
  | cons i is ih =>
    rw [← emitAll_emit] at inside ⊢
    have here : (w.emit i).body.code <+: code := (stays_emitAll is).within inside
    have rest := ih inside
    cases shape : callShape? i with
    | none =>
      rw [List.filterMap_cons_none shape]
      exact (between_emit here shape).trans rest
    | some found =>
      obtain ⟨count, tail⟩ := found
      have kept := (early_returnEarly code).kept (emitted here) (by
        intro jump
        simp [callShape?, jump] at shape)
      rw [List.filterMap_cons_some shape, size_emit] at *
      exact (Between.call kept shape (by simp)).trans rest

theorem not_tail : ∀ alternatives, (none : Option Nat) = some alternatives → Leads code x.size alternatives :=
  fun _ none => nomatch none

theorem Emits.between {ph : Phrase} (h : Emits w ph x) (distinct : (labelsOf code).Nodup)
    (inside : x.body.code <+: code) {position : Option Nat}
    (leads : ∀ alternatives, position = some alternatives → Leads code x.size alternatives) :
    Between (returnEarly code) w.size x.size (ph.calls position) := by
  induction h generalizing position with
  | literal pushes =>
    rcases literal_adds pushes with ⟨i, simple, rfl⟩ | ⟨h, rfl⟩
    · refine between_emit inside ?_
      unfold callShape?
      split <;> simp_all
    · exact between_emit inside rfl
  | const h => exact between_emit inside rfl
  | name found plain loads =>
    have step := between_emit inside loads.plain
    rwa [size_reach] at step
  | through found reference loads =>
    have load := between_emit ((stays_emit _).within inside) loads.plain
    rw [size_reach] at load
    exact load.plainAfter (between_emit inside rfl)
  | later h =>
    have push := between_emit ((stays_emit _).within inside) rfl
    exact push.plainAfter (between_emit inside rfl)
  | seq before after ihBefore ihAfter =>
    have insideAfter := (Emits.leaves after).within inside
    have first := ihBefore ((stays_emit _).within insideAfter) not_tail
    exact (first.plainAfter (between_emit insideAfter rfl)).trans (ihAfter inside leads)
  | branch consequent done tests fails holds ihTest ihNo ihYes =>
    rename_i w t n y test yes no
    have insideYes := (stays_emit _).within inside
    have insideLabel := (Emits.leaves holds).within insideYes
    have insideJump := (stays_emit _).within insideLabel
    have insideNo := (stays_emit _).within insideJump
    have insideCond := (Emits.leaves fails).within insideNo
    have leadsYes : ∀ alternatives, position = some alternatives → Leads code y.size alternatives :=
      fun alternatives same => .label (emitted inside) rfl (size_emit y _ ▸ leads alternatives same)
    have ahead : n.size < y.size := by
      have past := (Emits.leaves holds).size_le
      rw [size_emit, size_emit] at past
      omega
    have leadsNo : ∀ alternatives, position.map (· + 1) = some alternatives →
        Leads code n.size alternatives := by
      intro alternatives same
      obtain ⟨outer, tail, rfl⟩ := Option.map_eq_some_iff.mp same
      exact .jump (emitted insideJump) rfl (emitted inside) rfl rfl ahead (leadsYes outer tail)
    have test := (ihTest ((stays_emit _).within insideCond) not_tail).plainAfter
      (between_emit insideCond rfl)
    have no := ((ihNo insideNo leadsNo).plainAfter (between_emit insideJump rfl)).plainAfter
      (between_emit insideLabel rfl)
    have yes := (ihYes insideYes leadsYes).plainAfter (between_emit inside rfl)
    exact (test.trans no).trans yes
  | scope inner ih =>
    rw [size_leave] at leads ⊢
    rw [code_leave] at inside
    exact ih inside leads
  | define bound h g ih =>
    have insideBind := (stays_emitConst _ g).within inside
    have insideName := (stays_emit _).within insideBind
    have value := ih ((stays_emitConst _ h).within insideName) not_tail
    exact ((value.plainAfter (between_emit insideName rfl)).plainAfter
      (between_emit insideBind rfl)).plainAfter (between_emit inside rfl)
  | mention which h g =>
    have insideMention := (stays_emitConst _ g).within inside
    have insideName := (stays_emit _).within insideMention
    have mentions := between_emit insideMention (by rw [which]; split <;> rfl)
    exact ((between_emit insideName rfl).plainAfter mentions).plainAfter
      (between_emit inside rfl)
  | call operands operator calls ihArgs ihHead =>
    have insideHead := (stays_emit _).within inside
    have args := ihArgs ((Emits.leaves operator).within insideHead) not_tail
    have head := ihHead insideHead not_tail
    have kept := (early_returnEarly code).kept (emitted inside) (by
      intro jump
      simp [callShape?, jump] at calls)
    refine (args.trans head).trans ?_
    rw [size_emit] at *
    refine Between.call kept calls fun alternatives same => ?_
    rw [Bool.false_or, (leads alternatives same).early distinct]
  | intrinsic operands ih =>
    exact (ih ((stays_emitAll _).within inside) not_tail).trans (between_emitAll inside)
  | constant inner alone built h ih => exact between_emit inside rfl
  | closure inner some built loads h count ihInner ihLoads =>
    have insideClosure := (stays_emit _).within inside
    have captured := ihLoads ((stays_emitConst _ h).within insideClosure) not_tail
    exact (captured.plainAfter (between_emit insideClosure rfl)).plainAfter (between_emit inside rfl)
  | bind bound admits h after ihValue ihRest =>
    have insideStore := (Emits.leaves after).within inside
    have insideLocal := (stays_emit _).within insideStore
    have value := ihValue (opens_bindLocal.within insideLocal) not_tail
    have stored := between_emit insideStore rfl
    rw [size_bindLocal] at stored
    exact (value.plainAfter stored).trans (ihRest inside leads)
  | fresh admits h after ih =>
    have insideStore := (Emits.leaves after).within inside
    have made := between_emit ((stays_emit _).within insideStore) rfl
    rw [size_bindLocal] at made
    exact (made.plainAfter (between_emit insideStore rfl)).trans (ih inside leads)
  | fill filled found reference loads after ihValue ihRest =>
    have insideBind := (Emits.leaves after).within inside
    have insideLoad := (stays_emit _).within insideBind
    have value := ihValue ((stays_emit _).within insideLoad) not_tail
    exact ((value.plainAfter (between_emit insideLoad loads.plain)).plainAfter
      (between_emit insideBind rfl)).trans (ihRest inside leads)
  | last inner ih => exact ih inside leads
  | none => exact .refl _ _
  | more others first ihOthers ihFirst =>
    exact (ihOthers ((Emits.leaves first).within inside) not_tail).trans (ihFirst inside not_tail)
  | loaded => exact .refl _ _
  | load found loads others ih =>
    have step := between_emit ((Emits.leaves others).within inside) loads.plain
    rw [size_reach] at step
    exact step.plainAfter (ih inside not_tail)
  | clause distinct inner ih =>
    rename_i w x c e
    rw [size_leave]
    rw [code_leave] at inside
    have ends : ∀ alternatives, some 0 = some alternatives → Leads code x.size alternatives := by
      intro alternatives same
      obtain rfl := Option.some.inj same
      exact .ret (emitted inside) rfl
    exact (ih ((stays_emit _).within inside) ends).plainAfter (between_emit inside rfl)
  | caseNone => exact .refl _ _
  | caseMore h first others ihFirst ihOthers =>
    have insideFirst := (Emits.leaves others).within inside
    have anchored := between_emit ((Emits.leaves first).within insideFirst) rfl
    exact (anchored.trans (ihFirst insideFirst not_tail)).trans (ihOthers inside not_tail)
  | single only ih =>
    have step := ih inside not_tail
    simpa [Phrase.calls, Expr.callsOf] using step
  | several many tests message h arms ih =>
    have insidePanic := (Emits.leaves arms).within inside
    have insideMessage := (stays_emit _).within insidePanic
    have tested := between_emitAll ((stays_emitConst _ h).within insideMessage)
    rw [tests.plain, size_labels] at tested
    have raises := (between_emit insideMessage rfl).plainAfter (between_emit insidePanic rfl)
    exact (Between.plainAfter tested raises).trans (ih inside not_tail)

/-- Calls between the first address and the last are all there are. -/
theorem Between.settled {sites : List CallSite}
    (h : Between (returnEarly code) 0 code.length sites) : Settled sites (shorten code) := by
  obtain ⟨shapes, settles, becomes⟩ := h
  have past : (returnEarly code).drop code.length = [] :=
    List.drop_eq_nil_of_le (Nat.le_of_eq (early_returnEarly code).length)
  have all : (shorten code).filterMap callShape? = shapes := by
    unfold shorten
    rw [settle_convertTailCalls, (settle_fuseReturns _).1, ← List.drop_zero (l := returnEarly code), settles,
      past]
    exact List.append_nil shapes
  unfold Settled
  rwa [all]

end

/-- A procedure built without inlining has the code of its chunk, shortened; labels are anchored once. -/
theorem Chunk.build_shortens {c : Chunk} {arity : Arity} {o : CompileOptions} {s t : Store}
    {p : Procedure Value} (h : Yields (c.build arity o) s p t) (plain : o.inline = false) :
    p.code = shorten c.code ∧ p.constants = c.constants ∧ (labelsOf c.code).Nodup := by
  obtain ⟨d, u, checked, optimized, accepted, chunk, -⟩ := build_yields h
  have shortened : d = { c with code := shorten c.code } := by
    unfold optimize at optimized
    dsimp only at optimized
    rw [plain] at optimized
    exact (Yields.pure_iff.mp optimized).1
  subst shortened
  have distinct := labels_nodup_of_verify accepted
  exact ⟨congrArg Chunk.code chunk, congrArg Chunk.constants chunk, labelsOf_shorten c.code ▸ distinct⟩

/-- The lambdas in a phrase. -/
def Phrase.lambdas : Phrase → List (Procedure Value × List Expr)
  | .one e | .opened e | .clause _ e => e.lambdas
  | .many es | .cases _ es | .body _ es => Expr.lambdasIn es
  | .captured _ => []

/-- The lambda is among the constants and its calls are settled. -/
def Workshop.Holds (w : Workshop) (made : Procedure Value × List Expr) : Prop :=
  (∃ v ∈ w.body.constants, (v == .procedure made.1) = true ∨ (v == .closure made.1 []) = true) ∧
    made.1.Settles made.2

theorem Workshop.Holds.later {w x : Workshop} {made : Procedure Value × List Expr} (h : w.Holds made)
    (grows : w.Extends x) : x.Holds made := by
  obtain ⟨⟨v, member, same⟩, settles⟩ := h
  exact ⟨⟨v, grows.constants.subset member, same⟩, settles⟩

theorem Workshop.Holds.leave {w : Workshop} {made : Procedure Value × List Expr} (h : w.Holds made) :
    w.leave.Holds made := by
  have same : w.leave.body.constants = w.body.constants := by
    simp only [Workshop.leave, body_alter]
    split <;> rfl
  unfold Holds
  rwa [same]

theorem Workshop.holds_emitConst (w : Workshop) (v : Value) (h : w.place v ≤ maxOperand) :
    ∃ u ∈ (w.emitConst v h).body.constants, (u == v) = true :=
  poolConstant_holds w.body.constants v

/-- What a lambda is built of settles its calls, if it does so for those inside. -/
theorem lambda_settles {w u : Workshop} {p : Procedure Value} {name : Option String} {cs : Clauses}
    {bodies : List Expr} {store : Store} (inner : Emits (w.child name) (.body cs bodies) u)
    (built : Yields (u.chunk.build cs.arity w.encoder.options) u.store p store)
    (plain : w.encoder.options.inline = false) (inside : ∀ made ∈ Expr.lambdasIn bodies, u.Holds made) :
    p.Settles bodies := by
  obtain ⟨code, constants, distinct⟩ := build_shortens built plain
  refine ⟨?_, fun made member => ?_, fun made member => (inside made member).2⟩
  · rw [code]
    exact (inner.between distinct (List.prefix_refl _) not_tail).settled
  · rw [constants]
    exact (inside made member).1

theorem Emits.holds {w x : Workshop} {ph : Phrase} (h : Emits w ph x)
    (plain : w.encoder.options.inline = false) : ∀ made ∈ ph.lambdas, x.Holds made := by
  induction h with
  | literal | const | name | through | later | mention | none | loaded | caseNone =>
    intro made member
    cases member
  | seq before after ihBefore ihAfter =>
    intro made member
    rcases List.mem_append.mp member with first | rest
    · exact ((ihBefore plain made first).later (stays_emit _).toExtends).later
        (Emits.leaves after).toExtends
    · exact ihAfter ((Emits.leaves before).options ▸ plain) made rest
  | branch consequent done tests fails holds ihTest ihNo ihYes =>
    have tested := (Emits.leaves tests).options ▸ plain
    have fromNo := ((stays_emit _).trans (stays_emit _)).trans (Emits.leaves holds)
    intro made member
    rcases List.mem_append.mp member with either | yes
    · rcases List.mem_append.mp either with test | no
      · have here := (ihTest plain made test).later (((stays_emit _).trans (Emits.leaves fails)).trans fromNo).toExtends
        exact here.later (stays_emit _).toExtends
      · exact ((ihNo tested made no).later fromNo.toExtends).later (stays_emit _).toExtends
    · exact (ihYes ((Emits.leaves fails).options ▸ tested) made yes).later (stays_emit _).toExtends
  | scope inner ih =>
    intro made member
    exact (ih plain made member).leave
  | define bound h g ih =>
    intro made member
    exact (ih plain made member).later
      (((stays_emitConst _ h).trans (stays_emit _)).trans (stays_emitConst _ g)).toExtends
  | call operands operator calls ihArgs ihHead =>
    intro made member
    rcases List.mem_append.mp member with args | head
    · exact (ihArgs plain made args).later ((Emits.leaves operator).trans (stays_emit _)).toExtends
    · exact (ihHead ((Emits.leaves operands).options ▸ plain) made head).later (stays_emit _).toExtends
  | intrinsic operands ih =>
    intro made member
    exact (ih plain made member).later (stays_emitAll _).toExtends
  | constant inner alone built h ih =>
    intro made member
    obtain rfl := List.mem_singleton.mp member
    obtain ⟨v, inside, same⟩ := holds_emitConst _ _ h
    exact ⟨⟨v, inside, .inr same⟩, lambda_settles inner built plain (ih plain)⟩
  | closure inner some built loads h count ihInner ihLoads =>
    intro made member
    obtain rfl := List.mem_singleton.mp member
    obtain ⟨v, inside, same⟩ := holds_emitConst _ _ h
    exact ⟨⟨v, inside, .inl same⟩, lambda_settles inner built plain (ihInner plain)⟩
  | bind bound admits h after ihValue ihRest =>
    intro made member
    rcases List.mem_append.mp member with value | rest
    · refine (ihValue plain made value).later ?_
      exact ((opens_bindLocal.trans (stays_emit _).opens).trans (Emits.leaves after)).toExtends
    · exact ihRest ((Emits.leaves bound).options ▸ plain) made rest
  | fresh admits h after ih => exact ih plain
  | fill filled found reference loads after ihValue ihRest =>
    intro made member
    rcases List.mem_append.mp member with value | rest
    · refine (ihValue plain made value).later ?_
      exact (((stays_emit _).trans (stays_emit _)).opens.trans (Emits.leaves after)).toExtends
    · exact ihRest ((Emits.leaves filled).options ▸ plain) made rest
  | last inner ih => exact ih plain
  | more others first ihOthers ihFirst =>
    intro made member
    rcases List.mem_append.mp member with one | rest
    · exact ihFirst ((Emits.leaves others).options ▸ plain) made one
    · exact (ihOthers plain made rest).later (Emits.leaves first).toExtends
  | load found loads others ih =>
    intro made member
    cases member
  | clause distinct inner ih =>
    intro made member
    exact ((ih plain made member).later (stays_emit _).toExtends).leave
  | caseMore h first others ihFirst ihOthers =>
    intro made member
    rcases List.mem_append.mp member with one | rest
    · exact (ihFirst plain made one).later (Emits.leaves others).toExtends
    · exact ihOthers ((Emits.leaves first).options ▸ plain) made rest
  | single only ih =>
    intro made member
    rcases List.mem_append.mp member with one | rest
    · exact ih plain made one
    · cases rest
  | several many tests message h arms ih =>
    rename_i w x cs bodies is v
    exact ih ((stays_labels (w := w) cs.length).options ▸ plain)

/-- A tail call starts another closure in place, unless what is called is no closure. -/
theorem Act.tailCall_yields {count : Nat} {a b : Activation} {move : Move}
    (h : Yields (Act.tailCall count) a move b) :
    move = .go ∨ (∃ c args, move = .switch c args) ∨
      ∃ v args, move = .leave v args ∧ v.kind ≠ .closure := by
  obtain ⟨callee, _, _, taking⟩ := Yields.bind_iff.mp h
  obtain ⟨args, _, _, choosing⟩ := Yields.bind_iff.mp taking
  cases callee with
  | closure p captured =>
    obtain ⟨_, _, _, starting⟩ := Yields.bind_iff.mp choosing
    obtain ⟨_, _, _, deciding⟩ := Yields.bind_iff.mp starting
    split at deciding
    · obtain ⟨_, _, _, going⟩ := Yields.bind_iff.mp deciding
      exact .inl (Yields.pure_iff.mp going).1
    · exact .inr (.inl ⟨_, _, (Yields.pure_iff.mp deciding).1⟩)
  | _ => exact .inr (.inr ⟨_, _, (Yields.pure_iff.mp choosing).1, by simp [Value.kind]⟩)

/-- A tail call of a closure leaves the work that waits as it is. -/
theorem Machine.State.step_tailCall {m : Machine} {a : Activation} {pending : List Pending}
    {i : Instruction} (here : a.procedure.code[a.pc]? = some i) (tail : i.op = .tailCall) :
    (step ⟨m, .running a, pending⟩).pending = pending ∨
      ∃ n callee args b, step ⟨m, .running a, pending⟩ = ⟨n, .calling callee args, .finish b :: pending⟩ ∧
        callee.kind ≠ .closure := by
  change (runInstruction m pending a).pending = pending ∨
    ∃ n callee args b, runInstruction m pending a = ⟨n, .calling callee args, .finish b :: pending⟩ ∧
      callee.kind ≠ .closure
  unfold runInstruction
  rw [here]
  dsimp only
  split
  next e b _ =>
    left
    cases e <;> rfl
  next move store b performed =>
    have yields : Yields (Act.perform (traced m a i).store i) { a with pc := a.pc + 1 } (move, store) b :=
      performed
    obtain ⟨_, _, _, inside⟩ := Yields.bind_iff.mp yields
    unfold Act.performIn at inside
    simp only [tail] at inside
    obtain ⟨_, _, called, done⟩ := Yields.bind_iff.mp inside
    obtain ⟨same, rfl⟩ := Yields.pure_iff.mp done
    obtain ⟨rfl, rfl⟩ := Prod.mk.inj same
    rcases Act.tailCall_yields called with rfl | ⟨c, args, rfl⟩ | ⟨v, args, rfl, other⟩
    · exact .inl rfl
    · exact .inl rfl
    · exact .inr ⟨_, v, args, b, rfl, other⟩

/-- The form `(lambda (f x) (if x 1 (if x 2 (f x))))`, whose call stands in two alternatives. -/
def deepCall : Value :=
  .ofList [.symbol "lambda", .ofList [.symbol "f", .symbol "x"],
    .ofList [.symbol "if", .symbol "x", .integer 1,
      .ofList [.symbol "if", .symbol "x", .integer 2, .ofList [.symbol "f", .symbol "x"]]]]

/-- The calls of the closures that a procedure has for constants. -/
def Procedure.innerCalls (p : Procedure Value) : List (List (Nat × Bool)) :=
  p.constants.map fun
    | .closure q _ => q.code.filterMap callShape?
    | _ => []

end StackLisp
