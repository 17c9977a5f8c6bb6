import StackLisp.Compile.Lambda

/-!
The compiler: from a form to a procedure without arguments. It recurses on how deeply forms are nested.
-/

namespace StackLisp

namespace Value

mutual

/-- How deeply pairs and vectors are nested. -/
def nesting : Value → Nat
  | pair car cdr => max car.nesting cdr.nesting + 1
  | vector items => nestingOfAll items + 1
  | _ => 0
termination_by structural v => v

def nestingOfAll : List Value → Nat
  | [] => 0
  | v :: vs => max v.nesting (nestingOfAll vs)
termination_by structural vs => vs

end

end Value

namespace Compile

def special (form : FormCompiler) : SpecialForm → List Value → Encode Unit
  | .branch => branch form
  | .block => block form
  | .quote => quote
  | .lambda => lambda form
  | .bindings => bindings form
  | .knot => knot form
  | .define => define form
  | .declare => mention "declare" .declare
  | .hide => mention "private" .hide

/-- Compiles forms nested at most `n` deep. -/
def formUpTo : Nat → FormCompiler
  | _, .symbol name => symbol name
  | n + 1, .pair car cdr => call (formUpTo n) (special (formUpTo n)) (.pair car cdr)
  | n + 1, .vector items =>
    if (Value.vector items).isConstant then literal (.vector items)
    else vector (formUpTo n) items
  | _, v => literal v

/-- Code that leaves the value of the form on the stack. -/
def form (v : Value) : Encode Unit :=
  formUpTo v.nesting v

def forms (vs : List Value) : Encode Unit :=
  block form vs

end Compile

/-- Compiles a form as the body of a procedure of no arguments. -/
def compile (globals : NamespaceId) (options : CompileOptions) (form : Value) :
    Build (Procedure Value) := do
  let encode : Encode Chunk := do
    Compile.form form
    Encode.emit .ret
    Encode.finish
  let chunk ← show Build Chunk from fun store =>
    let (r, w) := encode.run { encoder := { globals, options }, store }
    (r, w.store)
  chunk.build (.fixed 0) options

end StackLisp
