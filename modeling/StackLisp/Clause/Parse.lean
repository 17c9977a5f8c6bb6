import StackLisp.CompileError
import StackLisp.Value.Access

/-!
Clauses from forms. A parameter list is `(a b)`, `(a . rest)` or `(a & rest)`; a lambda has one list and
its body, or clauses that begin with a list each.
-/

namespace StackLisp

def badForm {α : Type} (form : String) (flaw : FormFlaw) : Except CompileError α :=
  .error (.badForm form flaw)

/-- The parts of a form that must be a list or a vector. -/
def formItems (form : String) (v : Value) : Except CompileError (List Value) :=
  v.items?.mapError fun _ => .badForm form (.notAList v)

namespace Clause

/-- The one name after the rest marker. -/
def restAfterMarker : Value → Except CompileError String
  | .pair (.symbol name) .null => .ok name
  | _ => badForm "lambda" .restName

/-- The names of a parameter list and the name for the remaining arguments. -/
def parseParams : Value → Except CompileError (List String × Option String)
  | .null => .ok ([], none)
  | .symbol tail => .ok ([], some tail)
  | .pair (.symbol name) cdr =>
    if name = "&" then do .ok ([], some (← restAfterMarker cdr))
    else do
      let (params, rest) ← parseParams cdr
      .ok (name :: params, rest)
  | .pair car _ => badForm "lambda" (.notASymbol car)
  | v => badForm "lambda" (.notASymbol v)

def parse (params : Value) (body : List Value) : Except CompileError Clause := do
  let (params, rest) ← parseParams params
  .ok ⟨params, rest, body⟩

end Clause

namespace Clauses

def push (cs : Clauses) (c : Clause) : Except CompileError Clauses :=
  match cs.push? c with
  | some cs => .ok cs
  | none => .error (.unreachableClause c)

/-- Whether the form begins a clause, and not a parameter list. -/
def isClause : Value → Bool
  | .pair (.pair _ _) _ | .pair .null _ | .vector _ => true
  | _ => false

/-- Adds the clause that a form holds. -/
def pushForm (cs : Clauses) (form : Value) : Except CompileError Clauses := do
  match ← formItems "lambda" form with
  | [] => badForm "lambda" .emptyClause
  | params :: body => cs.push (← Clause.parse params body)

/-- The clauses of a lambda without its name. -/
def parse : List Value → Except CompileError Clauses
  | [] => badForm "lambda" .noParameters
  | first :: rest =>
    if isClause first then (first :: rest).foldlM pushForm []
    else do push [] (← Clause.parse first rest)

end Clauses

end StackLisp
