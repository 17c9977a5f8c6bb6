import StackLisp.Store

/-!
The core builtins and the namespaces that every program starts from.
-/

namespace StackLisp

namespace Builtin

/-- Also what a vector form with parts to evaluate calls. -/
def vector : Builtin :=
  { name := "vector", arity := .any, operation := .vector }

def comparison (name : String) (operation : Operation) (op : Opcode) : Builtin :=
  { name, arity := .least 1, operation, intrinsic := some (.binary op) }

def unary (name : String) (operation : Operation) (op : Opcode) : Builtin :=
  { name, arity := .fixed 1, operation, intrinsic := some (.unary op) }

/-- In the order in which they are bound. -/
def core : List Builtin :=
  [{ name := "+", arity := .any, operation := .sum, intrinsic := some (.fold .add) },
   { name := "-", arity := .least 1, operation := .difference, intrinsic := some (.binary .sub) },
   { name := "*", arity := .any, operation := .product, intrinsic := some (.fold .mul) },
   { name := "/", arity := .least 1, operation := .quotient, intrinsic := some (.binary .div) },
   { name := "mod", arity := .fixed 2, operation := .remainder, intrinsic := some (.binary .mod) },
   comparison "=" .same .eq,
   comparison "==" (.ordered .eq) .numEq,
   comparison "<" (.ordered .lt) .numLt,
   comparison "<=" (.ordered .le) .numLte,
   comparison ">" (.ordered .gt) .numGt,
   comparison ">=" (.ordered .ge) .numGte,
   unary "not" .not .not,
   unary "car" .car .car,
   unary "cdr" .cdr .cdr,
   { name := "cons", arity := .fixed 2, operation := .cons, intrinsic := some (.binary .cons) },
   { name := "list", arity := .any, operation := .list },
   vector,
   unary "empty?" .isEmpty .empty,
   { name := "nth", arity := .fixed 2, operation := .nth },
   { name := "count", arity := .fixed 1, operation := .count },
   { name := "apply", arity := .least 2, operation := .apply },
   { name := "recover", arity := .fixed 2, operation := .recover },
   { name := "panic", arity := .fixed 1, operation := .raise }]

def ofName? (name : String) : Option Builtin :=
  core.find? (·.name = name)

end Builtin

def SpecialForm.ofName? (name : String) : Option SpecialForm :=
  (table.find? (·.2 = name)).map Prod.fst

/-- The names of the language and their values. -/
def coreEntries : List (String × Value) :=
  SpecialForm.table.map (fun (form, name) => (name, .special form)) ++
    Builtin.core.map fun b => (b.name, .builtin b)

namespace Store

/-- A namespace that holds the language. -/
def addCore (s : Store) : NamespaceId × Store :=
  let entries := coreEntries.map fun (name, v) => (name, (⟨false, some v⟩ : Entry))
  (s.namespaces.length, { s with namespaces := ⟨"core", none, entries⟩ :: s.namespaces })

/-- An empty namespace above one of its own that holds the language. -/
def addUser (s : Store) : NamespaceId × Store :=
  let (core, s) := s.addCore
  s.addNamespace "user" (some core)

end Store

end StackLisp
