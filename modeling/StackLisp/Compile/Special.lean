import StackLisp.Compile.Simple

/-!
The special forms other than `lambda`.
-/

namespace StackLisp.Compile

open Encode

def flaw {α : Type} (form : String) (f : FormFlaw) : Encode α :=
  reject (.badForm form f)

def quote : List Value → Encode Unit
  | [v] => literal v
  | _ => flaw "quote" .notOneForm

/-- The alternative stands before the consequent. -/
def branch (form : FormCompiler) (args : List Value) : Encode Unit := do
  let (predicate, consequent, alternative) ← match args with
    | [p, c] => pure (p, c, none)
    | [p, c, a] => pure (p, c, some a)
    | _ => flaw "if" .notBranches
  let yes ← newLabel
  let done ← newLabel
  form predicate
  emitWith .condJump yes
  match alternative with
  | some a => form a
  | none => emit .nullLit
  emitWith .jump done
  anchor yes
  form consequent
  anchor done

def pairUp (form : String) : List Value → Except CompileError (List (String × Value))
  | .symbol name :: v :: rest => do .ok ((name, v) :: (← pairUp form rest))
  | v :: _ :: _ => badForm form (.notASymbol v)
  | _ => .ok []

/-- The names and values of a binding list. -/
def bindingPairs (form : String) : List Value → Except CompileError (List (String × Value))
  | [] => badForm form .noBindings
  | bindings :: _ => do
    let items ← formItems form bindings
    if items.length % 2 = 0 then pairUp form items else badForm form .oddBindings

/-- Every value sees the names before it. -/
def bindings (form : FormCompiler) (args : List Value) : Encode Unit := do
  let pairs ← liftError (bindingPairs "let" args)
  pushScope .locals
  pairs.forM fun (name, v) => do
    form v
    let cell ← bindLocal name .value
    emitWith .store cell.index
  block form (args.drop 1)
  popScope

/-- Every name is a reference made before any value, so that the values may mention all of them. -/
def knot (form : FormCompiler) (args : List Value) : Encode Unit := do
  let pairs ← liftError (bindingPairs "letrec" args)
  pushScope .locals
  let cells ← pairs.mapM fun (name, _) => do
    let cell ← bindLocal name .reference
    emit .newRef
    emitWith .store cell.index
    pure cell
  (pairs.zip cells).forM fun ((_, v), cell) => do
    form v
    loadRaw cell
    emit .bindRef
  block form (args.drop 1)
  popScope

def globalName (form : String) : List Value → Encode String
  | .symbol name :: _ => pure name
  | v :: _ => flaw form (.notASymbol v)
  | [] => flaw form .noName

/-- Binds a global; the value of the form is the name. -/
def define (form : FormCompiler) (args : List Value) : Encode Unit := do
  let name ← globalName "def" args
  match args with
  | [_, v] =>
    form v
    emitConst (.symbol name)
    emit .bind
    emitConst (.symbol name)
  | _ => flaw "def" .notNameAndValue

/-- Mentions a global by `op`; the value of the form is the name. -/
def mention (form : String) (op : Opcode) (args : List Value) : Encode Unit := do
  let name ← globalName form args
  if args.length = 1 then
    emitConst (.symbol name)
    emit op
    emitConst (.symbol name)
  else flaw form .notOneName

end StackLisp.Compile
