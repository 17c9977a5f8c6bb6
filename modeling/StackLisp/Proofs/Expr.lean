import StackLisp.Compile

/-!
Forms read as expressions. Reading looks at the names that are bound around a form and at the globals
bound by then, and at nothing that the encoder keeps: it settles what each symbol means, which calls are
operations in place, and what the special forms come to.
-/

namespace StackLisp

/-- What a form means. `scope` ends the names that `bind` and `fresh` make; `fill` gives a reference its
value; a lambda stands with the procedure built for it and the names that it captures. -/
inductive Expr where
  | literal (v : Value)
  | name (x : String)
  | through (x : String)
  | later (x : String)
  | seq (first rest : Expr)
  | branch (test yes no : Expr)
  | scope (e : Expr)
  | bind (x : String) (value rest : Expr)
  | fresh (x : String) (rest : Expr)
  | fill (x : String) (value rest : Expr)
  | define (x : String) (value : Expr)
  | mention (hidden : Bool) (x : String)
  | call (args : List Expr) (head : Expr)
  | intrinsic (op : Opcode) (times : Nat) (args : List Expr)
  | lambda (p : Procedure Value) (captures : List (String × CellKind)) (name : Option String)
      (cs : Clauses) (bodies : List Expr)

/-- The names a form may mention: those bound in its own body, those of the bodies around, and which of
the latter its body captures. -/
structure Sight where
  here : String → Option CellKind
  outside : String → Option CellKind
  captures : List (String × CellKind)

namespace Sight

def kind? (s : Sight) (x : String) : Option CellKind :=
  (s.here x).or (s.outside x)

/-- The name is bound here, or is bound around and captured. -/
def Sees (s : Sight) (x : String) (kind : CellKind) : Prop :=
  s.here x = some kind ∨ s.here x = none ∧ s.outside x = some kind ∧ (x, kind) ∈ s.captures

theorem Sees.kind? {s : Sight} {x : String} {kind : CellKind} (h : s.Sees x kind) :
    s.kind? x = some kind := by
  unfold Sight.kind?
  rcases h with here | ⟨free, outside, -⟩
  · rw [here, Option.some_or]
  · rw [free, Option.none_or, outside]

def bind (s : Sight) (x : String) (kind : CellKind) : Sight :=
  { s with here := fun y => if y = x then some kind else s.here y }

/-- Inside a lambda, where it may mention itself by its name. -/
def inside (s : Sight) (name : Option String) (captures : List (String × CellKind)) : Sight :=
  { here := fun x => if name = some x then some .value else none
    outside := s.kind?
    captures }

/-- Inside a clause. -/
def params (s : Sight) (c : Clause) : Sight :=
  { s with here := fun x => if x ∈ c.params ++ c.rest.toList then some .value else s.here x }

end Sight

/-- The parts of forms that are read one after another. -/
inductive Source where
  | form (v : Value)
  | each (vs : List Value)
  | block (vs : List Value)
  | bindings (pairs : List (String × Value)) (body : List Value)
  /-- The names still to be made references, and all of them with their values. -/
  | knot (names : List String) (pairs : List (String × Value)) (body : List Value)
  | clauses (cs : Clauses)

/-- One expression or several. -/
inductive Exprs where
  | one (e : Expr)
  | many (es : List Expr)

/-- What the head of a call is bound to by now, unless it is a lexical name. -/
def Sight.static? (s : Sight) (known : String → Option Value) : Value → Option Value
  | .symbol x => if (s.kind? x).isSome then none else known x
  | _ => none

/-- The name of a lambda, if it has one, and the forms of its clauses. -/
def lambdaParts : List Value → Option String × List Value
  | .symbol name :: rest => (some name, rest)
  | args => (none, args)

/-- How forms are read when the globals `known` are bound. -/
inductive Reads (known : String → Option Value) : Sight → Source → Exprs → Prop
  | self {s : Sight} {v : Value} (constant : v.isConstant = true) :
    Reads known s (.form v) (.one (.literal v))
  | name {s : Sight} {x : String} (sees : s.Sees x .value) :
    Reads known s (.form (.symbol x)) (.one (.name x))
  | through {s : Sight} {x : String} (sees : s.Sees x .reference) :
    Reads known s (.form (.symbol x)) (.one (.through x))
  | bound {s : Sight} {x : String} {v : Value} (free : s.kind? x = none) (now : known x = some v) :
    Reads known s (.form (.symbol x)) (.one (.literal v))
  | later {s : Sight} {x : String} (free : s.kind? x = none) (unbound : known x = none) :
    Reads known s (.form (.symbol x)) (.one (.later x))
  | vector {s : Sight} {items : List Value} {es : List Expr}
      (parts : (Value.vector items).isConstant = false)
      (args : Reads known s (.each items) (.many es)) :
    Reads known s (.form (.vector items)) (.one (.call es (.literal (.builtin .vector))))
  | dynamic {s : Sight} {head : Value} {args : List Value} {e : Expr} {es : List Expr}
      (target : s.static? known head = none) (operands : Reads known s (.each args) (.many es))
      (operator : Reads known s (.form head) (.one e)) :
    Reads known s (.form (.ofList (head :: args))) (.one (.call es e))
  | static {s : Sight} {head target : Value} {args : List Value} {es : List Expr}
      (bound : s.static? known head = some target) (ordinary : ∀ form, target ≠ .special form)
      (whole : ∀ b, target = .builtin b → Compile.expansion? b args.length = none)
      (operands : Reads known s (.each args) (.many es)) :
    Reads known s (.form (.ofList (head :: args))) (.one (.call es (.literal target)))
  | expanded {s : Sight} {head : Value} {b : Builtin} {args : List Value} {es : List Expr}
      {op : Opcode} {times : Nat} (bound : s.static? known head = some (.builtin b))
      (expands : Compile.expansion? b args.length = some (op, times))
      (operands : Reads known s (.each args) (.many es)) :
    Reads known s (.form (.ofList (head :: args))) (.one (.intrinsic op times es))
  | quote {s : Sight} {head v : Value} (bound : s.static? known head = some (.special .quote)) :
    Reads known s (.form (.ofList [head, v])) (.one (.literal v))
  | block {s : Sight} {head : Value} {vs : List Value} {e : Expr}
      (bound : s.static? known head = some (.special .block))
      (body : Reads known s (.block vs) (.one e)) :
    Reads known s (.form (.ofList (head :: vs))) (.one e)
  | branch {s : Sight} {head test yes no : Value} {t y n : Expr}
      (bound : s.static? known head = some (.special .branch))
      (predicate : Reads known s (.form test) (.one t))
      (consequent : Reads known s (.form yes) (.one y))
      (alternative : Reads known s (.form no) (.one n)) :
    Reads known s (.form (.ofList [head, test, yes, no])) (.one (.branch t y n))
  | branchOnly {s : Sight} {head test yes : Value} {t y : Expr}
      (bound : s.static? known head = some (.special .branch))
      (predicate : Reads known s (.form test) (.one t))
      (consequent : Reads known s (.form yes) (.one y)) :
    Reads known s (.form (.ofList [head, test, yes])) (.one (.branch t y (.literal .null)))
  | bindings {s : Sight} {head : Value} {args : List Value} {pairs : List (String × Value)} {e : Expr}
      (bound : s.static? known head = some (.special .bindings))
      (names : Compile.bindingPairs "let" args = .ok pairs)
      (body : Reads known s (.bindings pairs (args.drop 1)) (.one e)) :
    Reads known s (.form (.ofList (head :: args))) (.one (.scope e))
  | knot {s : Sight} {head : Value} {args : List Value} {pairs : List (String × Value)} {e : Expr}
      (bound : s.static? known head = some (.special .knot))
      (names : Compile.bindingPairs "letrec" args = .ok pairs)
      (body : Reads known s (.knot (pairs.map Prod.fst) pairs (args.drop 1)) (.one e)) :
    Reads known s (.form (.ofList (head :: args))) (.one (.scope e))
  | define {s : Sight} {head v : Value} {x : String} {e : Expr}
      (bound : s.static? known head = some (.special .define))
      (value : Reads known s (.form v) (.one e)) :
    Reads known s (.form (.ofList [head, .symbol x, v])) (.one (.define x e))
  | declare {s : Sight} {head : Value} {x : String}
      (bound : s.static? known head = some (.special .declare)) :
    Reads known s (.form (.ofList [head, .symbol x])) (.one (.mention false x))
  | hide {s : Sight} {head : Value} {x : String}
      (bound : s.static? known head = some (.special .hide)) :
    Reads known s (.form (.ofList [head, .symbol x])) (.one (.mention true x))
  | lambda {s : Sight} {head : Value} {args forms : List Value} {name : Option String} {cs : Clauses}
      {p : Procedure Value} {captures : List (String × CellKind)} {bodies : List Expr}
      (bound : s.static? known head = some (.special .lambda))
      (parts : lambdaParts args = (name, forms)) (parsed : Clauses.parse forms = .ok cs)
      (sees : ∀ entry ∈ captures, s.Sees entry.1 entry.2)
      (inner : Reads known (s.inside name captures) (.clauses cs) (.many bodies)) :
    Reads known s (.form (.ofList (head :: args))) (.one (.lambda p captures name cs bodies))
  | eachNil {s : Sight} : Reads known s (.each []) (.many [])
  | eachCons {s : Sight} {v : Value} {vs : List Value} {e : Expr} {es : List Expr}
      (first : Reads known s (.form v) (.one e)) (rest : Reads known s (.each vs) (.many es)) :
    Reads known s (.each (v :: vs)) (.many (e :: es))
  | blockNil {s : Sight} : Reads known s (.block []) (.one (.literal .null))
  | blockLast {s : Sight} {v : Value} {e : Expr} (last : Reads known s (.form v) (.one e)) :
    Reads known s (.block [v]) (.one e)
  | blockCons {s : Sight} {v u : Value} {vs : List Value} {e rest : Expr}
      (first : Reads known s (.form v) (.one e)) (others : Reads known s (.block (u :: vs)) (.one rest)) :
    Reads known s (.block (v :: u :: vs)) (.one (.seq e rest))
  | bindingsNil {s : Sight} {body : List Value} {e : Expr} (last : Reads known s (.block body) (.one e)) :
    Reads known s (.bindings [] body) (.one e)
  | bindingsCons {s : Sight} {x : String} {v : Value} {pairs : List (String × Value)}
      {body : List Value} {value rest : Expr} (first : Reads known s (.form v) (.one value))
      (others : Reads known (s.bind x .value) (.bindings pairs body) (.one rest)) :
    Reads known s (.bindings ((x, v) :: pairs) body) (.one (.bind x value rest))
  | knotFresh {s : Sight} {x : String} {names : List String} {pairs : List (String × Value)}
      {body : List Value} {rest : Expr}
      (others : Reads known (s.bind x .reference) (.knot names pairs body) (.one rest)) :
    Reads known s (.knot (x :: names) pairs body) (.one (.fresh x rest))
  | knotFill {s : Sight} {x : String} {v : Value} {pairs : List (String × Value)}
      {body : List Value} {value rest : Expr} (first : Reads known s (.form v) (.one value))
      (others : Reads known s (.knot [] pairs body) (.one rest)) :
    Reads known s (.knot [] ((x, v) :: pairs) body) (.one (.fill x value rest))
  | knotNil {s : Sight} {body : List Value} {e : Expr} (last : Reads known s (.block body) (.one e)) :
    Reads known s (.knot [] [] body) (.one e)
  | clausesNil {s : Sight} : Reads known s (.clauses []) (.many [])
  | clausesCons {s : Sight} {c : Clause} {cs : Clauses} {e : Expr} {es : List Expr}
      (first : Reads known (s.params c) (.block c.body) (.one e))
      (rest : Reads known s (.clauses cs) (.many es)) :
    Reads known s (.clauses (c :: cs)) (.many (e :: es))

theorem Reads.length {known : String → Option Value} {s : Sight} {src : Source} {es : Exprs} {vs : List Value}
    (h : Reads known s src es) (each : src = .each vs) :
    ∃ es', es = .many es' ∧ es'.length = vs.length := by
  induction h generalizing vs with
  | eachNil =>
    cases each
    exact ⟨[], rfl, rfl⟩
  | eachCons first rest _ ih =>
    cases each
    obtain ⟨es, same, length⟩ := ih rfl
    cases same
    exact ⟨_, rfl, congrArg (· + 1) length⟩
  | _ => cases each

end StackLisp
