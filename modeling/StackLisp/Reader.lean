import StackLisp.Decimal.Numeral
import StackLisp.Text.Blank
import StackLisp.Value

/-!
Reading text into forms, one character at a time. The reader is a pushdown automaton: its mode says
what the last characters began, its contexts are the forms still open, innermost first.
-/

namespace StackLisp

inductive ReadError where
  | endOfInput
  | unterminatedList
  | unterminatedVector
  | unterminatedString
  | unexpected (c : Char)
  | expectedClose
  | formCount (n : Nat)
deriving DecidableEq

def ReadError.message : ReadError → String
  | endOfInput => "unexpected end of input"
  | unterminatedList => "unterminated list"
  | unterminatedVector => "unterminated vector"
  | unterminatedString => "unterminated string"
  | unexpected c => s!"unexpected `{c}`"
  | expectedClose => "expected `)` after dotted tail"
  | formCount n => s!"expected one form, found {n}"

namespace Reader

def isDelimiter (c : Char) : Bool :=
  Text.isBlank c || ['(', ')', '[', ']', '"', ';', '\''].contains c

/-- The value of an atom: a word of the language, a number or a symbol. Whole numbers that do not fit
64 bits are read as doubles. -/
def atom (cs : List Char) : Value :=
  if cs = ['t', 'r', 'u', 'e'] then .bool true
  else if cs = ['f', 'a', 'l', 's', 'e'] then .bool false
  else if cs = ['n', 'u', 'l', 'l'] then .null
  else if (cs.dropWhile (· = '-')).head?.any Decimal.isDigit then
    match Decimal.Numeral.parse? cs with
    | some n =>
      match n.integer? with
      | some i => if Number.fits i then .integer (Int64.ofInt i) else .float n.toFloat
      | none => .float n.toFloat
    | none => .symbol (String.ofList cs)
  else .symbol (String.ofList cs)

/-- An open form. Items stand last first; `dotted` waits for the tail, `closing` for the parenthesis
after it. -/
inductive Context where
  | list (items : List Value)
  | dotted (items : List Value)
  | closing (items : List Value) (tail : Value)
  | vector (items : List Value)
  | quote

/-- Characters stand last first. -/
inductive Mode where
  | blank
  | comment
  | atom (cs : List Char)
  | string (cs : List Char)
  | escape (cs : List Char)

structure State where
  mode : Mode := .blank
  contexts : List Context := []
  forms : List Value := []

/-- Hands a finished form to the innermost context, or to the text as a whole. -/
def deliver (v : Value) (forms : List Value) : List Context → Except ReadError State
  | [] => .ok { forms := v :: forms }
  | .list items :: rest =>
    match v with
    | .symbol "." => .ok { contexts := .dotted items :: rest, forms }
    | v => .ok { contexts := .list (v :: items) :: rest, forms }
  | .dotted items :: rest => .ok { contexts := .closing items v :: rest, forms }
  | .vector items :: rest => .ok { contexts := .vector (v :: items) :: rest, forms }
  | .quote :: rest => deliver (.ofList [.symbol "quote", v]) forms rest
  | .closing _ _ :: _ => .error .expectedClose

/-- A character that begins something, or closes what is open. -/
def start (contexts : List Context) (forms : List Value) (c : Char) : Except ReadError State :=
  if Text.isBlank c then .ok { contexts, forms }
  else if c = ';' then .ok { mode := .comment, contexts, forms }
  else match c, contexts with
    | ')', .closing items tail :: rest => deliver (.ofListOnto items.reverse tail) forms rest
    | _, .closing _ _ :: _ => .error .expectedClose
    | ')', .list items :: rest => deliver (.ofList items.reverse) forms rest
    | ']', .vector items :: rest => deliver (.vector items.reverse) forms rest
    | '(', _ => .ok { contexts := .list [] :: contexts, forms }
    | '[', _ => .ok { contexts := .vector [] :: contexts, forms }
    | '\'', _ => .ok { contexts := .quote :: contexts, forms }
    | '"', _ => .ok { mode := .string [], contexts, forms }
    | c, _ =>
      if c = ')' ∨ c = ']' then .error (.unexpected c)
      else .ok { mode := .atom [c], contexts, forms }

/-- The character an escape stands for. -/
def unescape : Char → Char
  | 'n' => '\n'
  | 't' => '\t'
  | c => c

def step (s : State) (c : Char) : Except ReadError State :=
  match s.mode with
  | .blank => start s.contexts s.forms c
  | .comment => .ok { s with mode := if c = '\n' then .blank else .comment }
  | .atom cs =>
    if isDelimiter c then do
      let s ← deliver (atom cs.reverse) s.forms s.contexts
      start s.contexts s.forms c
    else .ok { s with mode := .atom (c :: cs) }
  | .string cs =>
    if c = '"' then deliver (.string (String.ofList cs.reverse)) s.forms s.contexts
    else if c = '\\' then .ok { s with mode := .escape cs }
    else .ok { s with mode := .string (c :: cs) }
  | .escape cs => .ok { s with mode := .string (unescape c :: cs) }

/-- All forms of the text, if none is open. -/
def close (s : State) : Except ReadError (List Value) :=
  match s.contexts with
  | [] => .ok s.forms.reverse
  | .list _ :: _ => .error .unterminatedList
  | .vector _ :: _ => .error .unterminatedVector
  | .closing _ _ :: _ => .error .expectedClose
  | .dotted _ :: _ | .quote :: _ => .error .endOfInput

def finish (s : State) : Except ReadError (List Value) :=
  match s.mode with
  | .blank | .comment => close s
  | .atom cs => do close (← deliver (atom cs.reverse) s.forms s.contexts)
  | .string _ | .escape _ => .error .unterminatedString

end Reader

/-- Every form of a text. -/
def read (text : String) : Except ReadError (List Value) := do
  Reader.finish (← text.toList.foldlM Reader.step {})

/-- The form of a text that holds exactly one. -/
def readOne (text : String) : Except ReadError Value := do
  match ← read text with
  | [v] => .ok v
  | vs => .error (.formCount vs.length)

end StackLisp
