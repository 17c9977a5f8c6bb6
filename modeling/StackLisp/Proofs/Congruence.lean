import StackLisp.Proofs.Inlining
import StackLisp.Proofs.Sharing

/-!
Chunks with the same code and equal constants. Which of equal closures is put in the place of a call makes
no difference but for the slots and labels that it takes up, so inlining keeps equal procedures equal. It
does not keep different ones apart: of a callee nothing is left but its body and its place in the pool.
-/

namespace StackLisp

/-- Both results are related, or both are the same rejection. -/
inductive Concur {α β : Type} (R : α → β → Prop) : Except Rejection α → Except Rejection β → Prop
  | ok {a : α} {b : β} (related : R a b) : Concur R (.ok a) (.ok b)
  | error (e : Rejection) : Concur R (.error e) (.error e)

/-- Builds that concur whatever the stores. -/
def Build.Concurs {α β : Type} (R : α → β → Prop) (x : Build α) (y : Build β) : Prop :=
  ∀ s t : Store, Concur R (x.run s : Except Rejection α × Store).1 (y.run t : Except Rejection β × Store).1

section

variable {α β γ δ : Type} {R : α → β → Prop} {S : γ → δ → Prop}

theorem Concur.bind {x : Except Rejection α} {y : Except Rejection β} {f : α → Except Rejection γ}
    {g : β → Except Rejection δ} (h : Concur R x y) (next : ∀ {a b}, R a b → Concur S (f a) (g b)) :
    Concur S (x >>= f) (y >>= g) := by
  cases h with
  | ok related => exact next related
  | error e => exact .error e

theorem Concur.same (x : Except Rejection α) : Concur Eq x x := by
  cases x with
  | ok a => exact .ok rfl
  | error e => exact .error e

theorem Concur.mono {R' : α → β → Prop} {x : Except Rejection α} {y : Except Rejection β} (h : Concur R x y)
    (wider : ∀ {a b}, R a b → R' a b) : Concur R' x y := by
  cases h with
  | ok related => exact .ok (wider related)
  | error e => exact .error e

namespace Build.Concurs

theorem bind {x : Build α} {y : Build β} {f : α → Build γ} {g : β → Build δ} (h : Concurs R x y)
    (next : ∀ {a b}, R a b → Concurs S (f a) (g b)) : Concurs S (x >>= f) (y >>= g) := by
  intro s t
  have first := h s t
  cases ran : (x.run s : Except Rejection α × Store) with
  | mk r u =>
    cases also : (y.run t : Except Rejection β × Store) with
    | mk q v =>
      rw [ran, also] at first
      cases first with
      | @ok a b related =>
        have left : Ends (x >>= f) s ((f a).run u : Except Rejection γ × Store).1 _ := Ends.bind_ok ran rfl
        have right : Ends (y >>= g) t ((g b).run v : Except Rejection δ × Store).1 _ := Ends.bind_ok also rfl
        rw [left, right]
        exact next related u v
      | error e =>
        rw [Ends.bind_error ran, Ends.bind_error also]
        exact .error e

theorem pure {a : α} {b : β} (related : R a b) : Concurs R (Pure.pure a) (Pure.pure b) :=
  fun _ _ => .ok related

theorem lift {x : Except Rejection α} {y : Except Rejection β} (h : Concur R x y) :
    Concurs R (Build.lift x) (Build.lift y) :=
  fun _ _ => h

theorem report (e e' : Event) : Concurs (fun _ _ => True) (Build.report e) (Build.report e') :=
  fun _ _ => .ok trivial

end Build.Concurs

end

/-- Equal values one by one. -/
abbrev Value.Alike : List Value → List Value → Prop :=
  List.Forall₂ fun v w => (v == w) = true

namespace Chunk

/-- Chunks with equal constants that have used up as many slots and labels. -/
structure Twins (c d : Chunk) : Prop where
  constants : Value.Alike c.constants d.constants
  locals : c.localCount = d.localCount
  labels : c.labelCount = d.labelCount
  globals : c.globals = d.globals

/-- Where they are inlined, if either is, the closures take up as many slots and labels. -/
structure Equisized (f g : Closure) : Prop where
  locals : f.procedure.localCount = g.procedure.localCount
  labels : f.procedure.labelCount = g.procedure.labelCount
  inlinable : f.procedure.inlinable = g.procedure.inlinable

/-- Either of the closures can be inlined for the other. -/
structure Interchangeable (f g : Closure) : Prop extends Equisized f g where
  same : (f.value == g.value) = true

/-- The constants that the code of a chunk pushes are there, and closures among them are of a size with those
that stand in their places in another chunk. -/
structure Parallel (code : List Instruction) (c d : Chunk) : Prop where
  indices : ∀ i ∈ code, i.op = .const → i.operand < c.constants.length
  callees : ∀ i ∈ code, i.op = .const → ∀ {f g : Closure}, c.constants[i.operand]? = some f.value →
    d.constants[i.operand]? = some g.value → Equisized f g

variable {c d : Chunk} {f g : Closure} {code : List Instruction} {count : Nat} {tail : Bool}

theorem poolConstant_alike {vs ws : List Value} (h : Value.Alike vs ws) {v w : Value} (same : (v == w) = true) :
    (poolConstant vs v).1 = (poolConstant ws w).1 ∧
      Value.Alike (poolConstant vs v).2 (poolConstant ws w).2 := by
  have places : vs.findIdx? (· == v) = ws.findIdx? (· == w) := by
    induction h with
    | nil => rfl
    | @cons a b as bs first rest ih =>
      have tests : (a == v) = (b == w) := by
        rw [Bool.eq_iff_iff]
        exact ⟨fun here => Value.same_trans (Value.same_comm first) (Value.same_trans here same), fun there =>
          Value.same_trans first (Value.same_trans there (Value.same_comm same))⟩
      rw [List.findIdx?_cons, List.findIdx?_cons, tests, ih]
  unfold poolConstant
  rw [places]
  split
  · exact ⟨rfl, h⟩
  · exact ⟨h.length_eq, List.rel_append h (.cons same .nil)⟩

theorem concur_fetch {vs ws : List Value} (h : Value.Alike vs ws) (k : Nat) :
    Concur (fun v w => vs[k]? = some v ∧ ws[k]? = some w ∧ (v == w) = true) (fetch vs k) (fetch ws k) := by
  have related := rel_getElem? h k
  unfold fetch
  generalize vs[k]? = v, ws[k]? = w at related
  cases related with
  | none => exact .error _
  | some same => exact .ok ⟨rfl, rfl, same⟩

/-- The same code, and chunks that are twins again with more constants. -/
structure Continues (c d : Chunk) (x y : List Instruction × Chunk) : Prop where
  code : x.1 = y.1
  twins : Twins x.2 y.2
  left : c.constants <+: x.2.constants
  right : d.constants <+: y.2.constants

theorem Twins.continues (twins : Twins c d) (code : List Instruction) : Continues c d (code, c) (code, d) :=
  ⟨rfl, twins, List.prefix_refl _, List.prefix_refl _⟩

theorem concur_constant (twins : Twins c d) {vs ws : List Value} (h : Value.Alike vs ws) (k : Nat) :
    Concur (Continues c d)
      (do
        let (index, c) := c.addConstant (← fetch vs k)
        .ok ([← Opcode.const.withOperand index], c))
      (do
        let (index, d) := d.addConstant (← fetch ws k)
        .ok ([← Opcode.const.withOperand index], d)) := by
  refine (concur_fetch h k).bind ?_
  rintro v w ⟨-, -, same⟩
  obtain ⟨place, pools⟩ := poolConstant_alike twins.constants same
  unfold addConstant
  dsimp only
  rw [place]
  refine (Concur.same _).bind ?_
  rintro i _ rfl
  exact .ok ⟨rfl, ⟨pools, twins.locals, twins.labels, twins.globals⟩, poolConstant_extends _ _, poolConstant_extends _ _⟩

theorem concur_placed (twins : Twins c d) (x : Except Rejection Instruction)
    (place : Instruction → List Instruction) :
    Concur (Continues c d) (x >>= fun i => .ok (place i, c)) (x >>= fun i => .ok (place i, d)) := by
  refine (Concur.same x).bind ?_
  rintro i _ rfl
  exact .ok (twins.continues _)

theorem concur_relocate (s : Site) (h : Interchangeable f g) (twins : Twins c d) (i : Instruction) :
    Concur (Continues c d) (relocate s f c i) (relocate s g d i) := by
  obtain ⟨-, -, constants, -, captured⟩ := Value.closure_same_iff.mp h.same
  obtain ⟨op, operand, small⟩ := i
  unfold relocate
  cases op
  case capture => exact concur_constant twins captured operand
  case const => exact concur_constant twins constants operand
  case ret | retNull | retTrue | retFalse | tailCall =>
    dsimp only
    split
    · exact .ok (twins.continues _)
    · exact concur_placed twins (Opcode.jump.withOperand s.exit) (_ ++ [·])
  case load | store | label | jump | condJump => exact concur_placed twins _ ([·])
  all_goals exact .ok (twins.continues _)

theorem concur_relocateAll (s : Site) (h : Interchangeable f g) (twins : Twins c d) (body : List Instruction) :
    Concur (Continues c d) (relocateAll s f c body) (relocateAll s g d body) := by
  induction body generalizing c d with
  | nil => exact .ok (twins.continues _)
  | cons i body ih =>
    refine (concur_relocate s h twins i).bind ?_
    rintro ⟨code, c'⟩ ⟨_, d'⟩ ⟨rfl, twins, left, right⟩
    refine (ih twins).bind ?_
    rintro ⟨rest, c''⟩ ⟨_, d''⟩ ⟨rfl, twins, further, beyond⟩
    exact .ok ⟨rfl, twins, left.trans further, right.trans beyond⟩

theorem concur_splice (h : Interchangeable f g) (twins : Twins c d) (count : Nat) (tail : Bool) :
    Concur (Continues c d) (splice c f count tail) (splice d g count tail) := by
  obtain ⟨-, code, -⟩ := Value.closure_same_iff.mp h.same
  unfold splice
  dsimp only
  rw [twins.locals, twins.labels, h.locals, h.labels, code]
  refine (Concur.same _).bind ?_
  rintro stage _ rfl
  refine (concur_relocateAll _ h ?_ _).bind ?_
  · exact ⟨twins.constants, rfl, rfl, twins.globals⟩
  rintro ⟨body, c'⟩ ⟨_, d'⟩ ⟨rfl, room, left, right⟩
  dsimp only
  split
  · exact .ok ⟨rfl, room, left, right⟩
  · refine (concur_placed room _ fun exit => stage :: body ++ [exit, Opcode.popArgs.bare]).mono ?_
    exact fun made => ⟨made.code, made.twins, left.trans made.left, right.trans made.right⟩

theorem refusal?_alike (h : Interchangeable f g) (globals : NamespaceId) (count : Nat) :
    (refusal? globals f.procedure count).isSome = (refusal? globals g.procedure count).isSome := by
  obtain ⟨arity, -, -, spaces, -⟩ := Value.closure_same_iff.mp h.same
  unfold refusal?
  rw [arity, spaces, h.inlinable]
  split
  · rfl
  · split
    · rfl
    · split <;> rfl

theorem concurs_keep (i : Instruction) {x y : Build (List Instruction × Chunk)}
    (h : Build.Concurs (Continues c d) x y) : Build.Concurs (Continues c d)
      (do
        let (rest, c) ← x
        pure (i :: rest, c))
      (do
        let (rest, d) ← y
        pure (i :: rest, d)) := by
  refine h.bind ?_
  rintro ⟨rest, c'⟩ ⟨_, d'⟩ ⟨rfl, twins, left, right⟩
  exact .pure ⟨rfl, twins, left, right⟩

theorem Parallel.rest {i : Instruction} (h : Parallel (i :: code) c d) : Parallel code c d :=
  ⟨fun k member => h.indices k (List.mem_cons_of_mem _ member), fun k member =>
    h.callees k (List.mem_cons_of_mem _ member)⟩

/-- What a constant was before bodies came, it is still. -/
theorem Parallel.longer {c' d' : Chunk} (h : Parallel code c d) (twins : Twins c d)
    (left : c.constants <+: c'.constants) (right : d.constants <+: d'.constants) : Parallel code c' d' where
  indices k member op := Nat.lt_of_lt_of_le (h.indices k member op) left.length_le
  callees k member op f g found also := by
    have inside := h.indices k member op
    have same : k.operand < d.constants.length := twins.constants.length_eq ▸ inside
    refine h.callees k member op ?_ ?_
    · rw [← found, List.prefix_iff_getElem?.mp left _ inside, List.getElem?_eq_getElem inside]
    · rw [← also, List.prefix_iff_getElem?.mp right _ same, List.getElem?_eq_getElem same]

theorem concurs_inlineCalls {budget : Nat} (twins : Twins c d) (parallel : Parallel code c d) :
    Build.Concurs (Continues c d) (inlineCalls budget c code) (inlineCalls budget d code) := by
  fun_induction inlineCalls budget c code generalizing d with
  | case1 => exact .pure (twins.continues _)
  | case2 => exact .pure (twins.continues _)
  | case3 =>
    rename_i c i j code keep hold ih
    rw [inlineCalls, if_pos hold]
    exact concurs_keep i (ih twins parallel.rest)
  | case4 =>
    rename_i c i j code keep hold shape ih
    rw [inlineCalls, if_neg hold, shape]
    exact concurs_keep i (ih twins parallel.rest)
  | case5 =>
    rename_i budget c i j code keep hold count tail shape ihKeep ihRest
    rw [inlineCalls, if_neg hold, shape]
    have kept := concurs_keep i (ihKeep twins parallel.rest)
    have const : i.op = .const := not_not.mp (not_or.mp hold).2
    refine (Build.Concurs.lift (concur_fetch twins.constants i.operand)).bind ?_
    rintro v w ⟨found, also, same⟩
    cases v with
    | closure p captured =>
      cases w with
      | closure q others =>
        have h : Interchangeable ⟨p, captured⟩ ⟨q, others⟩ :=
          ⟨parallel.callees i List.mem_cons_self const found also, same⟩
        have refuses := refusal?_alike h c.globals count
        dsimp only at refuses ⊢
        rw [← twins.globals]
        cases first : refusal? c.globals p count with
        | some e =>
          obtain ⟨e', second⟩ := Option.isSome_iff_exists.mp (refuses.symm.trans (by rw [first]; rfl))
          rw [second]
          exact (Build.Concurs.report e e').bind fun _ => kept
        | none =>
          have second : refusal? c.globals q count = none := by
            rw [← Option.not_isSome_iff_eq_none, ← refuses, first]
            nofun
          rw [second]
          refine (Build.Concurs.lift (concur_splice h twins count tail)).bind ?_
          rintro ⟨body, c'⟩ ⟨_, d'⟩ ⟨rfl, room, left, right⟩
          refine (Build.Concurs.report _ _).bind fun _ => ?_
          refine (ihRest c' room (parallel.rest.rest.longer twins left right)).bind ?_
          rintro ⟨rest, c''⟩ ⟨_, d''⟩ ⟨rfl, twins, further, beyond⟩
          exact .pure ⟨rfl, twins, left.trans further, right.trans beyond⟩
      | _ => cases same
    | _ =>
      cases w with
      | closure q others => cases same
      | _ => exact kept

theorem concurs_optimize (twins : Twins c d) (code : shorten c.code = shorten d.code) (o : CompileOptions)
    (parallel : Parallel (shorten c.code) c d) :
    Build.Concurs (fun c d => c.code = d.code ∧ Twins c d) (c.optimize o) (d.optimize o) := by
  unfold optimize
  dsimp only
  rw [← code]
  have alike : Twins { c with code := shorten c.code } { d with code := shorten c.code } :=
    ⟨twins.constants, twins.locals, twins.labels, twins.globals⟩
  split
  · refine (concurs_inlineCalls alike ⟨parallel.indices, parallel.callees⟩).bind ?_
    rintro ⟨longer, c'⟩ ⟨_, d'⟩ ⟨rfl, made, -, -⟩
    exact .pure ⟨rfl, made.constants, made.locals, made.labels, made.globals⟩
  · exact .pure ⟨rfl, alike⟩

/-- The check looks at the code and the count of labels only. -/
theorem verify_congr (code : c.code = d.code) (labels : c.labelCount = d.labelCount) : c.verify = d.verify := by
  unfold verify
  rw [code, labels]

/-- Twins with the same code are built to equal procedures, or rejected alike. -/
theorem concurs_build (twins : Twins c d) (code : shorten c.code = shorten d.code) (arity : Arity) (o : CompileOptions)
    (parallel : Parallel (shorten c.code) c d) :
    Build.Concurs (fun p q => Value.sameProcedure p q = true) (c.build arity o) (d.build arity o) := by
  unfold build
  refine (concurs_optimize twins code o parallel).bind ?_
  rintro c' d' ⟨same, made⟩
  rw [verify_congr same made.labels]
  refine (Build.Concurs.lift (Concur.same _)).bind ?_
  rintro checked _ rfl
  refine (Build.Concurs.report _ _).bind fun _ => ?_
  intro s t
  exact .ok (Value.sameProcedure_iff.mpr ⟨rfl, same, Value.sameEach_iff.mpr made.constants, made.globals⟩)

theorem uninlined_build {plain : CompileOptions} (off : plain.inline = false) {arity : Arity} {s t : Store}
    {p : Procedure Value} (h : Yields (c.build arity plain) s p t) :
    p.arity = arity ∧ p.code = shorten c.code ∧ p.constants = c.constants ∧ p.globals = c.globals := by
  obtain ⟨d, u, checked, optimized, -, chunk, -, -, -, -, arity, -⟩ := build_yields h
  unfold optimize at optimized
  rw [off] at optimized
  obtain ⟨rfl, -⟩ := Yields.pure_iff.mp optimized
  exact ⟨arity, congrArg Chunk.code chunk, congrArg Chunk.constants chunk, congrArg Chunk.globals chunk⟩

/-- Closures that are equal without inlining are equal with it, whatever is inlined, if they take up as many
slots and labels and their callees are of a size. -/
theorem inlined_same {a b : Arity} {plain o : CompileOptions} {s s' t t' : Store} {p q : Procedure Value}
    {captured others : List Value} (off : plain.inline = false) (first : Yields (c.build a plain) s p s')
    (second : Yields (d.build b plain) t q t') (same : (Value.closure p captured == Value.closure q others) = true)
    (locals : c.localCount = d.localCount) (labels : c.labelCount = d.labelCount)
    (parallel : Parallel (shorten c.code) c d) :
    Build.Concurs (fun p q => (Value.closure p captured == Value.closure q others) = true)
      (c.build a o) (d.build b o) := by
  obtain ⟨rfl, code, constants, globals⟩ := uninlined_build off first
  obtain ⟨rfl, code', constants', globals'⟩ := uninlined_build off second
  obtain ⟨arities, codes, pools, spaces, each⟩ := Value.closure_same_iff.mp same
  rw [constants, constants'] at pools
  rw [arities]
  have twins : Twins c d := ⟨pools, locals, labels, globals.symm.trans (spaces.trans globals')⟩
  intro σ τ
  refine (concurs_build twins (code.symm.trans (codes.trans code')) q.arity o parallel σ τ).mono fun {p' q'} built => ?_
  exact Bool.and_eq_true_iff.mpr ⟨built, Value.sameEach_iff.mpr each⟩

/-- A procedure with a name that answers one. -/
def answeringOne (name : String) : Procedure Value where
  serial := 0
  name := some name
  arity := .fixed 1
  code := [⟨.posInt, 1, one_le_maxOperand⟩, Opcode.ret.bare]
  constants := []
  labels := []
  stackSize := 1
  localCount := 0
  labelCount := 0
  globals := 0
  inlinable := true

/-- Calls it. -/
def callingOne (name : String) : Chunk where
  code := [Opcode.trueLit.bare, ⟨.const, 0, Nat.zero_le _⟩, Opcode.call1.bare, Opcode.ret.bare]
  constants := [.closure (answeringOne name) []]
  localCount := 0
  labelCount := 0
  globals := 0
  name := none

/-- The same as it is built without inlining. -/
def calledOne (name : String) : Procedure Value where
  serial := 0
  name := none
  arity := .fixed 0
  code := [Opcode.trueLit.bare, ⟨.const, 0, Nat.zero_le _⟩, ⟨.tailCall, 1, one_le_maxOperand⟩]
  constants := [.closure (answeringOne name) []]
  labels := []
  stackSize := 2
  localCount := 0
  labelCount := 0
  globals := 0
  inlinable := true

theorem built_calledOne (name : String) : Yields ((callingOne name).build (.fixed 0) .withoutInlining) {}
    (calledOne name) { built := 1, events := [.built none 3 2 0 true] } := by
  with_unfolding_all rfl

theorem inlined_same_callingOne : Build.Concurs (fun p q => (Value.closure p [] == Value.closure q []) = true)
    ((callingOne "f").build (.fixed 0) {}) ((callingOne "g").build (.fixed 0) {}) := by
  have known : ∀ i ∈ shorten (callingOne "f").code, i.op = .const → i.operand = 0 := by decide
  refine inlined_same rfl (built_calledOne "f") (built_calledOne "g") (by decide) rfl rfl
    ⟨fun i member op => by rw [known i member op]; decide, fun i member op f g found also => ?_⟩
  rw [known i member op] at found also
  obtain ⟨p, captured⟩ := f
  obtain ⟨q, others⟩ := g
  obtain ⟨rfl, -⟩ := Value.closure.inj (Option.some.inj found)
  obtain ⟨rfl, -⟩ := Value.closure.inj (Option.some.inj also)
  exact ⟨rfl, rfl, rfl⟩

end Chunk

end StackLisp
