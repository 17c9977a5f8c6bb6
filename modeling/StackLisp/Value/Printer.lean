import StackLisp.Decimal.Printer
import StackLisp.Text.Quoted
import StackLisp.Value

/-!
The printed form of values. Pairs along a spine print as one list, with a dot before a tail that is not
the empty list; callables and references print as unreadable tokens.
-/

namespace StackLisp.Value

/-- Closes a list whose tail is printed as `cs`. -/
def dotted (cs : List Char) : List Char :=
  [' ', '.', ' '] ++ cs ++ [')']

def token (words : String) : List Char :=
  ['#', '<'] ++ words.toList ++ ['>']

def closureToken : Option String → List Char
  | none => token "closure"
  | some name => token s!"closure {name}"

def separated : List (List Char) → List Char
  | [] => []
  | [cs] => cs
  | cs :: rest => cs ++ ' ' :: separated rest

mutual

/-- The text of a value, or of the rest of a list from its tail to the closing parenthesis. -/
def chars (inTail : Bool) : Value → List Char
  | null => if inTail then [')'] else ['n', 'u', 'l', 'l']
  | pair car cdr => (if inTail then ' ' else '(') :: (chars false car ++ chars true cdr)
  | vector items => closed inTail ('[' :: (separated (charsEach items) ++ [']']))
  | bool true => closed inTail ['t', 'r', 'u', 'e']
  | bool false => closed inTail ['f', 'a', 'l', 's', 'e']
  | integer n => closed inTail (Decimal.integerText n.toInt)
  | float x => closed inTail (Decimal.floatText x)
  | string text => closed inTail (Text.quoted text)
  | symbol name => closed inTail name.toList
  | procedure _ => closed inTail (token "procedure")
  | closure p _ => closed inTail (closureToken p.name)
  | builtin b => closed inTail (token s!"builtin {b.name}")
  | special form => closed inTail (token s!"special {form.name}")
  | ref _ => closed inTail (token "ref")
where
  closed (inTail : Bool) (cs : List Char) : List Char :=
    if inTail then dotted cs else cs

def charsEach : List Value → List (List Char)
  | [] => []
  | v :: vs => chars false v :: charsEach vs

end

def text (v : Value) : String :=
  String.ofList (chars false v)

end StackLisp.Value
