import StackLisp.Chunk.Build
import StackLisp.Compile.Special

/-!
Lambdas: clauses chosen by argument count, bodies of their own, captured names.
-/

namespace StackLisp.Compile

open Encode

/-- The parameters of a clause in a scope of their own, and its body. -/
def clause (form : FormCompiler) (c : Clause) : Encode Unit := do
  pushScope .args
  c.params.zipIdx.forM fun (name, i) => do
    let _ ← bindArg name .value i
  if let some name := c.rest then
    let _ ← bindArg name .rest c.fixedCount
  block form c.body
  emit .ret
  popScope

/-- The test whether the argument count fits a clause. -/
def dispatch (c : Clause) (label : Nat) : Encode Unit := do
  emitWith .posInt c.fixedCount
  emit .argLen
  emit (if c.isVariadic then .numGte else .numEq)
  emitWith .condJump label

/-- The clauses of a body. One clause needs no test; of several the first that fits is run. -/
def clauses (form : FormCompiler) (cs : Clauses) : Encode Unit := do
  match cs with
  | [c] => clause form c
  | _ =>
    let labels ← cs.mapM fun _ => newLabel
    (cs.zip labels).forM fun (c, label) => dispatch c label
    emitConst (.string s!"wrong number of arguments: expected {cs.arity.text}")
    emit .panic
    (cs.zip labels).forM fun (c, label) => do
      anchor label
      clause form c

/-- Encodes the body of a lambda and gives its procedure and the names it captured. -/
def procedure (form : FormCompiler) (name : Option String) (cs : Clauses) :
    Encode (Procedure Value × List String) := do
  let options := (← get).encoder.options
  inner name do
    clauses form cs
    let captured := (← body).captured.map Prod.fst
    let chunk ← finish
    return (← build (chunk.build cs.arity options), captured)

/-- Pushes what a captured name holds in the body around. -/
def loadCaptured (name : String) : Encode Unit := do
  match ← resolve name with
  | some cell => loadRaw cell
  | none => breach (.invisibleCapture name)

/-- A lambda without captured names is a constant; another is made anew whenever it is reached. -/
def lambda (form : FormCompiler) (args : List Value) : Encode Unit := do
  let (name, forms) := match args with
    | .symbol name :: rest => (some name, rest)
    | _ => (none, args)
  let cs ← liftError (Clauses.parse forms)
  let (p, captured) ← procedure form name cs
  if captured = [] then emitConst (.closure p [])
  else
    captured.reverse.forM loadCaptured
    emitConst (.procedure p)
    emitWith .makeClosure captured.length

end StackLisp.Compile
