import StackLisp.Proofs.Lambdas
import StackLisp.Proofs.Roles

/-!
Neat expressions: their constants are plain, and every reference that they make is filled once, under the
scope that it is made in. Plain forms are read as neat expressions.
-/

namespace StackLisp

mutual

/-- An expression of plain constants that fills the references that it makes. -/
inductive Expr.Neat : Expr → Prop
  | literal {v : Value} (plain : v.Serves .plain) : Neat (.literal v)
  | name (x : String) : Neat (.name x)
  | through (x : String) : Neat (.through x)
  | later (x : String) : Neat (.later x)
  | seq {first rest : Expr} (before : Neat first) (after : Neat rest) : Neat (.seq first rest)
  | branch {test yes no : Expr} (tests : Neat test) (holds : Neat yes) (fails : Neat no) :
    Neat (.branch test yes no)
  | scope {e : Expr} (inside : e.Knits []) : Neat (.scope e)
  | define (x : String) {value : Expr} (bound : Neat value) : Neat (.define x value)
  | mention (hidden : Bool) (x : String) : Neat (.mention hidden x)
  | call {args : List Expr} {head : Expr} (operands : ∀ e ∈ args, Neat e) (operator : Neat head) :
    Neat (.call args head)
  | intrinsic {op : Opcode} {times : Nat} {args : List Expr} (operates : op.operates)
    (operands : ∀ e ∈ args, Neat e) : Neat (.intrinsic op times args)
  | lambda {p : Procedure Value} {captures : List (String × CellKind)} {name : Option String} {cs : Clauses}
    {bodies : List Expr} (each : ∀ e ∈ bodies, Neat e) : Neat (.lambda p captures name cs bodies)

/-- What is under an open scope, where the references of these names are still to be filled, in order. -/
inductive Expr.Knits : List String → Expr → Prop
  | bind {x : String} {value rest : Expr} (bound : Neat value) (after : Knits [] rest) :
    Knits [] (.bind x value rest)
  | fresh {x : String} {xs : List String} {rest : Expr} (after : Knits (xs ++ [x]) rest) :
    Knits xs (.fresh x rest)
  | fill {x : String} {xs : List String} {value rest : Expr} (filled : Neat value) (after : Knits xs rest) :
    Knits (x :: xs) (.fill x value rest)
  | last {e : Expr} (inside : Neat e) : Knits [] e

end

/-- Every form is plain. -/
def Source.Plain : Source → Prop
  | .form v => v.Serves .plain
  | .each vs | .block vs => ∀ v ∈ vs, v.Serves .plain
  | .bindings pairs body | .knot _ pairs body =>
    (∀ pair ∈ pairs, pair.2.Serves .plain) ∧ ∀ v ∈ body, v.Serves .plain
  | .clauses cs => ∀ c ∈ cs, ∀ v ∈ c.body, v.Serves .plain

/-- What the source is read as is neat. The names of a knot that are references by now wait for the values. -/
def Source.Yields : Source → Exprs → Prop
  | .bindings _ _, .one e => e.Knits []
  | .knot names pairs _, .one e => ∀ xs, xs ++ names = pairs.map Prod.fst → e.Knits xs
  | _, .one e => e.Neat
  | _, .many es => ∀ e ∈ es, e.Neat

namespace Value

theorem plain_items {items : List Value} (h : (ofList items).Serves .plain) : ∀ v ∈ items, v.Serves .plain := by
  have spine := hereditary_plain.spine h
  rwa [spine_ofList] at spine

theorem plain_of_cons {v : Value} {vs : List Value} (h : (ofList (v :: vs)).Serves .plain) :
    v.Serves .plain ∧ ∀ w ∈ vs, w.Serves .plain :=
  List.forall_mem_cons.mp (plain_items h)

end Value

theorem lambdaParts_subset {args forms : List Value} {name : Option String}
    (h : lambdaParts args = (name, forms)) : forms ⊆ args := by
  unfold lambdaParts at h
  split at h
  · obtain ⟨-, rfl⟩ := Prod.mk.inj h
    exact List.subset_cons_self _ _
  · obtain ⟨-, rfl⟩ := Prod.mk.inj h
    exact List.Subset.refl _

theorem Parses.of_ok {α : Type} {r : Except CompileError α} {P : α → Prop} {a : α} (h : Parses r P)
    (ok : r = .ok a) : P a := by
  subst ok
  exact h

section

variable {known : String → Option Value} {s : Sight} {src : Source} {es : Exprs}

theorem Sight.static?_plain (plain : ∀ {x v}, known x = some v → v.Serves .plain) {head target : Value}
    (h : s.static? known head = some target) : target.Serves .plain := by
  unfold Sight.static? at h
  split at h
  · split at h
    · cases h
    · exact plain h
  · cases h

theorem Reads.neat (globals : ∀ {x v}, known x = some v → v.Serves .plain) (h : Reads known s src es) :
    src.Plain → src.Yields es := by
  induction h with
  | self constant => exact fun plain => .literal plain
  | name sees => exact fun _ => .name _
  | through sees => exact fun _ => .through _
  | bound free now => exact fun _ => .literal (globals now)
  | later free unbound => exact fun _ => .later _
  | vector parts args ih =>
    exact fun plain => .call (ih (Value.hereditary_plain.vector.mp plain)) (.literal (.builtin nofun))
  | dynamic target operands operator ihArgs ihHead =>
    intro plain
    obtain ⟨head, args⟩ := Value.plain_of_cons plain
    exact .call (ihArgs args) (ihHead head)
  | static bound ordinary whole operands ih =>
    exact fun plain => .call (ih (Value.plain_of_cons plain).2) (.literal (Sight.static?_plain globals bound))
  | expanded bound expands operands ih =>
    exact fun plain => .intrinsic ((Sight.static?_plain globals bound).of_builtin expands)
      (ih (Value.plain_of_cons plain).2)
  | quote bound =>
    exact fun plain => .literal ((Value.plain_of_cons plain).2 _ List.mem_cons_self)
  | block bound body ih => exact fun plain => ih (Value.plain_of_cons plain).2
  | branch bound predicate consequent alternative ihTest ihYes ihNo =>
    intro plain
    have parts := (Value.plain_of_cons plain).2
    exact .branch (ihTest (parts _ (by simp))) (ihYes (parts _ (by simp))) (ihNo (parts _ (by simp)))
  | branchOnly bound predicate consequent ihTest ihYes =>
    intro plain
    have parts := (Value.plain_of_cons plain).2
    exact .branch (ihTest (parts _ (by simp))) (ihYes (parts _ (by simp))) (.literal Value.hereditary_plain.null)
  | bindings bound names body ih =>
    intro plain
    have parts := (Value.plain_of_cons plain).2
    exact .scope (ih ⟨(Compile.parses_bindingPairs Value.hereditary_plain "let" parts).of_ok names,
      fun v member => parts v (List.mem_of_mem_drop member)⟩)
  | knot bound names body ih =>
    intro plain
    have parts := (Value.plain_of_cons plain).2
    exact .scope (ih ⟨(Compile.parses_bindingPairs Value.hereditary_plain "letrec" parts).of_ok names,
      fun v member => parts v (List.mem_of_mem_drop member)⟩ [] rfl)
  | define bound value ih => exact fun plain => .define _ (ih ((Value.plain_of_cons plain).2 _ (by simp)))
  | declare bound => exact fun _ => .mention _ _
  | hide bound => exact fun _ => .mention _ _
  | lambda bound parts parsed sees inner ih =>
    intro plain
    have forms := fun v member => (Value.plain_of_cons plain).2 v (lambdaParts_subset parts member)
    exact .lambda (ih ((Compile.parses_clauses Value.hereditary_plain forms).of_ok parsed))
  | eachNil => exact fun _ _ => nofun
  | eachCons first rest ihFirst ihRest =>
    intro plain
    obtain ⟨v, vs⟩ := List.forall_mem_cons.mp plain
    exact List.forall_mem_cons.mpr ⟨ihFirst v, ihRest vs⟩
  | blockNil => exact fun _ => .literal Value.hereditary_plain.null
  | blockLast last ih => exact fun plain => ih (plain _ List.mem_cons_self)
  | blockCons first others ihFirst ihOthers =>
    intro plain
    obtain ⟨v, vs⟩ := List.forall_mem_cons.mp plain
    exact .seq (ihFirst v) (ihOthers vs)
  | bindingsNil last ih => exact fun plain => .last (ih plain.2)
  | bindingsCons first others ihFirst ihOthers =>
    rintro ⟨pairs, body⟩
    obtain ⟨value, rest⟩ := List.forall_mem_cons.mp pairs
    exact .bind (ihFirst value) (ihOthers ⟨rest, body⟩)
  | knotFresh others ih =>
    intro plain xs names
    exact .fresh (ih plain _ (by rw [List.append_assoc]; exact names))
  | knotFill first others ihFirst ihOthers =>
    rintro ⟨pairs, body⟩ xs names
    obtain ⟨value, rest⟩ := List.forall_mem_cons.mp pairs
    rw [List.append_nil] at names
    subst names
    exact .fill (ihFirst value) (ihOthers ⟨rest, body⟩ _ (List.append_nil _))
  | knotNil last ih =>
    intro plain xs names
    obtain rfl : xs = [] := (List.append_nil xs).symm.trans names
    exact .last (ih plain.2)
  | clausesNil => exact fun _ _ => nofun
  | clausesCons first rest ihFirst ihRest =>
    intro plain
    obtain ⟨c, cs⟩ := List.forall_mem_cons.mp plain
    exact List.forall_mem_cons.mpr ⟨ihFirst c, ihRest cs⟩

end

end StackLisp
