import StackLisp.Builtin.Reply
import StackLisp.Proofs.Expr
import StackLisp.Proofs.Gates
import StackLisp.Proofs.Scene

/-!
What expressions mean: an evaluator that looks names up in an environment and runs no code of theirs.
Arguments are evaluated last to first, each once, and then the head. A closure of one of the lambdas that
are evaluated binds its arguments in the first clause that their count fits; any other closure runs its
code.
-/

namespace StackLisp

/-- Names with their values, the latest first. -/
abbrev Environment := List (String × Value)

/-- What ends an evaluation before there is a value. No memory holds the arguments of a `crowd`. -/
inductive Stop where
  | fault (f : Fault)
  | breach (b : Breach)
  | crowd

/-- What comes of an evaluation in a store: a value with the store that it leaves, or what stopped it. There
is nothing if it takes too many steps. -/
abbrev Meaning := ExceptT Stop (StateT Store Option)

namespace Meaning

variable {α β : Type}

/-- Never comes to an end. -/
def stuck : Meaning α := fun _ => none

def fault (f : Fault) : Meaning α :=
  throw (.fault f)

def lift : Except Fault α → Meaning α
  | .ok a => pure a
  | .error f => fault f

/-- What the store has. -/
def read (f : Store → Except Fault α) : Meaning α := fun σ =>
  lift (f σ) σ

/-- A change of the store. -/
def write (f : Store → Except Fault Store) : Meaning Unit := fun σ =>
  match f σ with
  | .ok τ => some (.ok (), τ)
  | .error f => some (.error (.fault f), σ)

/-- A new reference. -/
def cell : Meaning Value := fun σ =>
  some (.ok (.ref σ.newRef.1), σ.newRef.2)

/-- Every name that is looked up is bound, unless a closure has fewer values than its lambda captures. -/
def look (env : Environment) (x : String) : Meaning Value :=
  match env.lookup x with
  | some v => pure v
  | none => throw (.breach .outOfRange)

/-- The values of names, in their order. -/
def gather (env : Environment) (xs : List String) : Meaning (List Value) :=
  match xs.mapM fun x => env.lookup x with
  | some vs => pure vs
  | none => throw (.breach .outOfRange)

def answer (call : Value → List Value → Meaning Value) : Reply → Meaning Value
  | .answer v => pure v
  | .fault f => fault f
  | .call callee args => call callee args
  | .guarded thunk handler =>
    tryCatch (call thunk []) fun
      | .fault f => call handler [f.payload]
      | stop => throw stop
  | .noted _ v => pure v

theorem bind_apply (m : Meaning α) (f : α → Meaning β) (σ : Store) :
    (m >>= f) σ = match m σ with
      | none => none
      | some (.ok a, τ) => f a τ
      | some (.error e, τ) => some (.error e, τ) := by
  change Option.bind (m σ) _ = _
  rcases m σ with _ | ⟨_ | a, τ⟩ <;> rfl

theorem guard_apply (m : Meaning α) (f : Stop → Meaning α) (σ : Store) :
    (tryCatch m f : Meaning α) σ = match m σ with
      | none => none
      | some (.ok a, τ) => some (.ok a, τ)
      | some (.error e, τ) => f e τ := by
  change Option.bind (m σ) _ = _
  rcases m σ with _ | ⟨_ | a, τ⟩ <;> rfl

theorem lift_ok_bind (a : α) (f : α → Meaning β) (σ : Store) : (lift (.ok a) >>= f) σ = f a σ :=
  rfl

end Meaning

section

variable (globals : NamespaceId) (call : Value → List Value → Meaning Value)

/-- What an operation in the place of a call makes of its operands, the topmost first. -/
def Opcode.value (op : Opcode) : List Value → Meaning Value
  | [v] =>
    match op, op.unary? with
    | .deref, _ => .read fun σ => v.ref?.bind σ.deref
    | .resolve, _ => .read fun σ => v.symbol?.bind (σ.resolve globals)
    | .call0, _ | .call, _ => call v []
    | _, some f => .lift (f v)
    | _, none => .stuck
  | [v, w] =>
    match op, op.binary? with
    | .call1, _ => call v [w]
    | _, some f => .lift (f v w)
    | _, none => .stuck
  | _ => .stuck

/-- An operation so many times, each time with what it made before on top. -/
def Opcode.repeated (op : Opcode) : Nat → List Value → Meaning (List Value)
  | 0, vs => pure vs
  | n + 1, vs => do
    let v ← op.value globals call (vs.take op.effect.pops)
    op.repeated n (v :: vs.drop op.effect.pops)

mutual

/-- What an expression means where names have these values. -/
def Expr.meaning : Expr → Environment → Meaning Value
  | .literal v, _ => pure v
  | .name x, env => .look env x
  | .through x, env => do
    let v ← .look env x
    .read fun σ => v.ref?.bind σ.deref
  | .later x, _ => .read (·.resolve globals x)
  | .seq first rest, env => do
    let _ ← first.meaning env
    rest.meaning env
  | .branch test yes no, env => do
    let v ← test.meaning env
    if v.holds then yes.meaning env else no.meaning env
  | .scope e, env => e.meaning env
  | .bind x value rest, env => do
    let v ← value.meaning env
    rest.meaning ((x, v) :: env)
  | .fresh x rest, env => do
    let v ← .cell
    rest.meaning ((x, v) :: env)
  | .fill x value rest, env => do
    let v ← value.meaning env
    let cell ← .look env x
    .write fun σ => cell.ref?.bind fun id => σ.fillRef id v
    rest.meaning env
  | .define x value, env => do
    let v ← value.meaning env
    .write (·.bind globals x v)
    pure (.symbol x)
  | .mention hidden x, _ => do
    .write fun σ => .ok (if hidden then σ.hide globals x else σ.declare globals x)
    pure (.symbol x)
  | .call args head, env => do
    let vs ← Expr.meanings args env
    let callee ← head.meaning env
    call callee vs
  | .intrinsic op times args, env => do
    let vs ← Expr.meanings args env
    match ← op.repeated globals call times vs with
    | v :: _ => pure v
    | [] => .stuck
  | .lambda p captures _ _ _, env => do
    let captured ← .gather env (captures.map Prod.fst)
    pure (.closure p captured)
termination_by structural e => e

/-- The values of expressions, the last one evaluated first. -/
def Expr.meanings : List Expr → Environment → Meaning (List Value)
  | [], _ => pure []
  | e :: es, env => do
    let vs ← Expr.meanings es env
    let v ← e.meaning env
    pure (v :: vs)
termination_by structural es => es

end

end

section

variable {globals : NamespaceId} {call : Value → List Value → Meaning Value} {env : Environment}

theorem Expr.meaning_scope (e : Expr) :
    (Expr.scope e).meaning globals call env = e.meaning globals call env := by
  rw [Expr.meaning]

theorem Expr.length_meanings {es : List Expr} {σ τ : Store} {vs : List Value}
    (h : Expr.meanings globals call es env σ = some (.ok vs, τ)) :
    vs.length = es.length := by
  induction es generalizing vs τ with
  | nil =>
    rw [Expr.meanings] at h
    cases h
    rfl
  | cons e es ih =>
    rw [Expr.meanings, Meaning.bind_apply] at h
    split at h
    · cases h
    next others υ before =>
      rw [Meaning.bind_apply] at h
      split at h
      · cases h
      next v _ _ =>
        cases h
        rw [List.length_cons, List.length_cons, ih before]
      · cases h
    · cases h

end

/-- The parameters with their arguments, and the rest of these as a list. -/
def Clause.binds (c : Clause) (args : List Value) : Environment :=
  c.params.zip args ++ c.rest.toList.map fun x => (x, .ofList (args.drop c.fixedCount))

/-- What a lambda says: the names that its closures capture, its own name, and clauses with their bodies. -/
structure Lambda where
  captures : List String := []
  name : Option String := none
  clauses : Clauses
  bodies : List Expr

namespace Lambda

/-- A form as a lambda without parameters. -/
def ofForm (form : Value) (e : Expr) : Lambda :=
  { clauses := [⟨[], none, [form]⟩], bodies := [e] }

/-- What the bodies see around their parameters: the closure by its name, and what it captured. -/
def outer (l : Lambda) (self : Value) (captured : List Value) : Environment :=
  (l.name.toList.map fun x => (x, self)) ++ l.captures.zip captured

/-- The first clause that so many arguments fit, with its body. -/
def fitting? (l : Lambda) (count : Nat) : Option (Clause × Expr) :=
  (l.clauses.zip l.bodies).find? (·.1.fits count)

/-- What a closure means for arguments. -/
def apply (l : Lambda) (globals : NamespaceId) (call : Value → List Value → Meaning Value) (self : Value)
    (captured args : List Value) : Meaning Value :=
  if args.length < countLimit then
    match l.fitting? args.length with
    | some (c, body) => body.meaning globals call (c.binds args ++ l.outer self captured)
    | none => .fault (.unmatchedArity l.clauses.arity args.length)
  else throw .crowd

end Lambda

/-- The lambdas of a form with the numbers of the procedures built for them, and the namespace of them all. -/
structure Program where
  globals : NamespaceId
  lambdas : List (Nat × Lambda)

namespace Program

/-- The lambda that a procedure was built for, which accepts the same arguments. -/
def lambda? (P : Program) (p : Procedure Value) : Option Lambda :=
  (P.lambdas.lookup p.serial).filter (·.clauses.arity = p.arity)

variable (P : Program)

mutual

/-- What a call comes to in less than so many calls and instructions one inside or after another. -/
def call : Nat → Value → List Value → Meaning Value
  | 0, _, _ => .stuck
  | n + 1, callee, args => do
    .lift (callee.callable?.bind (·.check args.length))
    match callee with
    | .closure p captured =>
      match P.lambda? p with
      | some l => l.apply P.globals (call n) callee captured args
      | none => perform n (.enter p.chunk ⟨p, captured⟩ args)
    | .builtin b => .answer (call n) (b.reply args)
    | v => .fault (.mismatch .callable v)
termination_by structural n => n

/-- What the code of a scene comes to. -/
def perform : Nat → Scene → Meaning Value
  | 0, _ => .stuck
  | n + 1, s => fun σ =>
    match (s.chunk.code[s.pc]?).map (s.turn σ) with
    | some (.go t τ) => perform n t τ
    | some (.answer v) => some (.ok v, σ)
    | some (.call callee args t) =>
      (do
        let v ← call n callee args
        perform n (t.push v) : Meaning Value) σ
    | some (.leave callee args) => call n callee args σ
    | some (.fault f) => some (.error (.fault f), σ)
    | some (.breach b) => some (.error (.breach b), σ)
    | some .stray | none => none
termination_by structural n => n

end

/-- What an expression comes to where no name is bound. -/
def evaluate (e : Expr) (fuel : Nat) : Meaning Value :=
  e.meaning P.globals (P.call fuel) []

end Program

end StackLisp
