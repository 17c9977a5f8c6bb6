import StackLisp.Proofs.Neat
import StackLisp.Proofs.Safety

/-!
Fair expressions: their constants have a property, and what stands in the place of a call is an operation that
takes the arguments to one value. Forms of such values are read as fair expressions.
-/

namespace StackLisp

/-- So many times the operation takes so many operands to one, which is no closure made of them. -/
def Opcode.Combines (op : Opcode) (times count : Nat) : Prop :=
  op.effect.pushes = 1 ∧ (op.effect.pops = 1 ∧ op ≠ .makeClosure ∧ times = 1 ∧ count = 1 ∨
    op.effect.pops = 2 ∧ count = times + 1)

theorem Builtin.Proper.combines {b : Builtin} (proper : b.Proper) {op : Opcode} {times count : Nat}
    (expands : Compile.expansion? b count = some (op, times)) : op.Combines times count := by
  obtain ⟨intrinsic, own, expanded⟩ := Option.bind_eq_some_iff.mp expands
  have computes := proper intrinsic own
  unfold Intrinsic.expand? at expanded
  split at expanded
  · cases expanded
    simp only [Intrinsic.computes, Bool.and_eq_true, decide_eq_true_eq] at computes
    exact ⟨computes.1.2, .inl ⟨computes.1.1, computes.2, rfl, rfl⟩⟩
  · cases expanded
    simp only [Intrinsic.computes, Bool.and_eq_true, decide_eq_true_eq] at computes
    exact ⟨computes.2, .inr ⟨computes.1, rfl⟩⟩
  · cases expanded
    simp only [Intrinsic.computes, Bool.and_eq_true, decide_eq_true_eq] at computes
    exact ⟨computes.2, .inr ⟨computes.1, rfl⟩⟩
  · cases expanded

/-- An expression of such constants, with operations that combine the arguments that they are given. -/
inductive Expr.Fair (S : Value → Prop) : Expr → Prop
  | literal {v : Value} (constant : S v) : Fair S (.literal v)
  | name (x : String) : Fair S (.name x)
  | through (x : String) : Fair S (.through x)
  | later (x : String) : Fair S (.later x)
  | seq {first rest : Expr} (before : Fair S first) (after : Fair S rest) : Fair S (.seq first rest)
  | branch {test yes no : Expr} (tests : Fair S test) (holds : Fair S yes) (fails : Fair S no) :
    Fair S (.branch test yes no)
  | scope {e : Expr} (inside : Fair S e) : Fair S (.scope e)
  | bind (x : String) {value rest : Expr} (bound : Fair S value) (after : Fair S rest) :
    Fair S (.bind x value rest)
  | fresh (x : String) {rest : Expr} (after : Fair S rest) : Fair S (.fresh x rest)
  | fill (x : String) {value rest : Expr} (filled : Fair S value) (after : Fair S rest) :
    Fair S (.fill x value rest)
  | define (x : String) {value : Expr} (bound : Fair S value) : Fair S (.define x value)
  | mention (hidden : Bool) (x : String) : Fair S (.mention hidden x)
  | call {args : List Expr} {head : Expr} (operands : ∀ e ∈ args, Fair S e) (operator : Fair S head) :
    Fair S (.call args head)
  | intrinsic {op : Opcode} {times : Nat} {args : List Expr} (combines : op.Combines times args.length)
    (operands : ∀ e ∈ args, Fair S e) : Fair S (.intrinsic op times args)
  | lambda {p : Procedure Value} {captures : List (String × CellKind)} {name : Option String} {cs : Clauses}
    {bodies : List Expr} (each : ∀ e ∈ bodies, Fair S e) : Fair S (.lambda p captures name cs bodies)

def Exprs.Fair (S : Value → Prop) : Exprs → Prop
  | .one e => e.Fair S
  | .many es => ∀ e ∈ es, e.Fair S

/-- Every form of the source has the property. -/
def Source.Each (S : Value → Prop) : Source → Prop
  | .form v => S v
  | .each vs | .block vs => ∀ v ∈ vs, S v
  | .bindings pairs body | .knot _ pairs body => (∀ pair ∈ pairs, S pair.2) ∧ ∀ v ∈ body, S v
  | .clauses cs => ∀ c ∈ cs, ∀ v ∈ c.body, S v

section

variable {S : Value → Prop} (hereditary : Hereditary S)

include hereditary

theorem Hereditary.of_cons {v : Value} {vs : List Value} (h : S (.ofList (v :: vs))) :
    S v ∧ ∀ w ∈ vs, S w := by
  have spine := hereditary.spine h
  rw [Value.spine_ofList] at spine
  exact List.forall_mem_cons.mp spine

end

section

variable {S : Value → Prop} {known : String → Option Value} {s : Sight} {src : Source} {es : Exprs}

theorem Sight.static?_known (globals : ∀ {x v}, known x = some v → S v) {head target : Value}
    (h : s.static? known head = some target) : S target := by
  unfold Sight.static? at h
  split at h
  · split at h
    · cases h
    · exact globals h
  · cases h

theorem Reads.fair (hereditary : Hereditary S) (vector : S (.builtin .vector))
    (proper : ∀ {b}, S (.builtin b) → b.Proper) (globals : ∀ {x v}, known x = some v → S v)
    (h : Reads known s src es) : src.Each S → es.Fair S := by
  have null : S .null := hereditary.scalar rfl nofun
  induction h with
  | self constant => exact fun form => .literal form
  | name sees => exact fun _ => .name _
  | through sees => exact fun _ => .through _
  | bound free now => exact fun _ => .literal (globals now)
  | later free unbound => exact fun _ => .later _
  | vector parts args ih => exact fun form => .call (ih (hereditary.vector.mp form)) (.literal vector)
  | dynamic target operands operator ihArgs ihHead =>
    intro form
    obtain ⟨head, args⟩ := hereditary.of_cons form
    exact .call (ihArgs args) (ihHead head)
  | static bound ordinary whole operands ih =>
    exact fun form => .call (ih (hereditary.of_cons form).2) (.literal (Sight.static?_known globals bound))
  | expanded bound expands operands ih =>
    intro form
    obtain ⟨_, same, length⟩ := operands.length rfl
    cases same
    refine .intrinsic ?_ (ih (hereditary.of_cons form).2)
    rw [length]
    exact (proper (Sight.static?_known globals bound)).combines expands
  | quote bound => exact fun form => .literal ((hereditary.of_cons form).2 _ List.mem_cons_self)
  | block bound body ih => exact fun form => ih (hereditary.of_cons form).2
  | branch bound predicate consequent alternative ihTest ihYes ihNo =>
    intro form
    have parts := (hereditary.of_cons form).2
    exact .branch (ihTest (parts _ (by simp))) (ihYes (parts _ (by simp))) (ihNo (parts _ (by simp)))
  | branchOnly bound predicate consequent ihTest ihYes =>
    intro form
    have parts := (hereditary.of_cons form).2
    exact .branch (ihTest (parts _ (by simp))) (ihYes (parts _ (by simp))) (.literal null)
  | bindings bound names body ih =>
    intro form
    have parts := (hereditary.of_cons form).2
    exact .scope (ih ⟨(Compile.parses_bindingPairs hereditary "let" parts).of_ok names,
      fun v member => parts v (List.mem_of_mem_drop member)⟩)
  | knot bound names body ih =>
    intro form
    have parts := (hereditary.of_cons form).2
    exact .scope (ih ⟨(Compile.parses_bindingPairs hereditary "letrec" parts).of_ok names,
      fun v member => parts v (List.mem_of_mem_drop member)⟩)
  | define bound value ih => exact fun form => .define _ (ih ((hereditary.of_cons form).2 _ (by simp)))
  | declare bound => exact fun _ => .mention _ _
  | hide bound => exact fun _ => .mention _ _
  | lambda bound parts parsed sees inner ih =>
    intro form
    have forms := fun v member => (hereditary.of_cons form).2 v (lambdaParts_subset parts member)
    exact .lambda (ih ((Compile.parses_clauses hereditary forms).of_ok parsed))
  | eachNil => exact fun _ _ => nofun
  | eachCons first rest ihFirst ihRest =>
    intro forms
    obtain ⟨v, vs⟩ := List.forall_mem_cons.mp forms
    exact List.forall_mem_cons.mpr ⟨ihFirst v, ihRest vs⟩
  | blockNil => exact fun _ => .literal null
  | blockLast last ih => exact fun forms => ih (forms _ List.mem_cons_self)
  | blockCons first others ihFirst ihOthers =>
    intro forms
    obtain ⟨v, vs⟩ := List.forall_mem_cons.mp forms
    exact .seq (ihFirst v) (ihOthers vs)
  | bindingsNil last ih => exact fun forms => ih forms.2
  | bindingsCons first others ihFirst ihOthers =>
    rintro ⟨pairs, body⟩
    obtain ⟨value, rest⟩ := List.forall_mem_cons.mp pairs
    exact .bind _ (ihFirst value) (ihOthers ⟨rest, body⟩)
  | knotFresh others ih => exact fun forms => .fresh _ (ih forms)
  | knotFill first others ihFirst ihOthers =>
    rintro ⟨pairs, body⟩
    obtain ⟨value, rest⟩ := List.forall_mem_cons.mp pairs
    exact .fill _ (ihFirst value) (ihOthers ⟨rest, body⟩)
  | knotNil last ih => exact fun forms => ih forms.2
  | clausesNil => exact fun _ _ => nofun
  | clausesCons first rest ihFirst ihRest =>
    intro forms
    obtain ⟨c, cs⟩ := List.forall_mem_cons.mp forms
    exact List.forall_mem_cons.mpr ⟨ihFirst c, ihRest cs⟩

end

end StackLisp
