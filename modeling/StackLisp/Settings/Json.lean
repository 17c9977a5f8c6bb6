/-!
JSON documents, as strictly as the standard has them. Numbers keep their spelling, objects their order
and repeated names. A string whose escapes leave half a surrogate pair has no text.
-/

namespace StackLisp

inductive Json where
  | null
  | bool (b : Bool)
  | number (spelling : List Char)
  | string (text : Option String)
  | array (items : List Json)
  | object (members : List (Option String × Json))

namespace Json

def isBlank (c : Char) : Bool :=
  c = ' ' || c = '\n' || c = '\t' || c = '\r'

def skipBlank (cs : List Char) : List Char :=
  cs.dropWhile isBlank

def hexValue? (c : Char) : Option Nat :=
  if '0' ≤ c ∧ c ≤ '9' then some (c.toNat - '0'.toNat)
  else if 'a' ≤ c ∧ c ≤ 'f' then some (c.toNat - 'a'.toNat + 10)
  else if 'A' ≤ c ∧ c ≤ 'F' then some (c.toNat - 'A'.toNat + 10)
  else none

def simpleEscape? : Char → Option Char
  | '"' => some '"'
  | '\\' => some '\\'
  | '/' => some '/'
  | 'b' => some '\x08'
  | 'f' => some '\x0c'
  | 'n' => some '\n'
  | 'r' => some '\r'
  | 't' => some '\t'
  | _ => none

/-- The units of a string up to its closing quote, and what follows the quote. -/
def stringUnits : List Char → Option (List Nat × List Char)
  | '"' :: cs => some ([], cs)
  | '\\' :: 'u' :: a :: b :: c :: d :: cs => do
    let unit := ((← hexValue? a) * 16 + (← hexValue? b)) * 256 + (← hexValue? c) * 16 + (← hexValue? d)
    let (units, rest) ← stringUnits cs
    some (unit :: units, rest)
  | '\\' :: c :: cs => do
    let e ← simpleEscape? c
    let (units, rest) ← stringUnits cs
    some (e.toNat :: units, rest)
  | c :: cs =>
    if c.toNat < 0x20 ∨ c = '\\' then none
    else do
      let (units, rest) ← stringUnits cs
      some (c.toNat :: units, rest)
  | [] => none

def isHigh (n : Nat) : Bool :=
  0xd800 ≤ n && n < 0xdc00

def isLow (n : Nat) : Bool :=
  0xdc00 ≤ n && n < 0xe000

/-- Joins surrogate pairs; `none` if a half stands alone. -/
def joinUnits : List Nat → Option (List Char)
  | [] => some []
  | n :: rest =>
    if isHigh n then
      match rest with
      | m :: rest =>
        if isLow m then
          (joinUnits rest).map (Char.ofNat (0x10000 + (n - 0xd800) * 0x400 + (m - 0xdc00)) :: ·)
        else none
      | [] => none
    else if isLow n then none
    else (joinUnits rest).map (Char.ofNat n :: ·)

def isDigit (c : Char) : Bool :=
  '0' ≤ c && c ≤ '9'

def isNumberChar (c : Char) : Bool :=
  isDigit c || c = '-' || c = '+' || c = '.' || c = 'e' || c = 'E'

def isExponent : List Char → Bool
  | '-' :: ds | '+' :: ds | ds => ds ≠ [] && ds.all isDigit

/-- What may follow the whole part of a number. -/
def isFraction : List Char → Bool
  | [] => true
  | '.' :: cs =>
    cs.takeWhile isDigit ≠ [] &&
      match cs.dropWhile isDigit with
      | [] => true
      | c :: ds => (c = 'e' || c = 'E') && isExponent ds
  | c :: ds => (c = 'e' || c = 'E') && isExponent ds

def isUnsigned : List Char → Bool
  | '0' :: cs => isFraction cs
  | c :: cs => isDigit c && isFraction (cs.dropWhile isDigit)
  | [] => false

def isNumber : List Char → Bool
  | '-' :: cs => isUnsigned cs
  | cs => isUnsigned cs

def string? (cs : List Char) : Option (Option String × List Char) :=
  (stringUnits cs).map fun (units, rest) => ((joinUnits units).map String.ofList, rest)

mutual

/-- A value after blanks. The first argument bounds the nesting and the length together. -/
def value? : Nat → List Char → Option (Json × List Char)
  | 0, _ => none
  | n + 1, cs =>
    match skipBlank cs with
    | 'n' :: 'u' :: 'l' :: 'l' :: cs => some (null, cs)
    | 't' :: 'r' :: 'u' :: 'e' :: cs => some (bool true, cs)
    | 'f' :: 'a' :: 'l' :: 's' :: 'e' :: cs => some (bool false, cs)
    | '"' :: cs => (string? cs).map fun (text, rest) => (string text, rest)
    | '[' :: cs =>
      match skipBlank cs with
      | ']' :: cs => some (array [], cs)
      | cs => (items? n cs).map fun (items, rest) => (array items, rest)
    | '\x7b' :: cs =>
      match skipBlank cs with
      | '\x7d' :: cs => some (object [], cs)
      | cs => (members? n cs).map fun (members, rest) => (object members, rest)
    | cs =>
      let spelling := cs.takeWhile isNumberChar
      if isNumber spelling then some (number spelling, cs.dropWhile isNumberChar) else none

/-- One item or more, up to the closing bracket. -/
def items? : Nat → List Char → Option (List Json × List Char)
  | 0, _ => none
  | n + 1, cs => do
    let (item, cs) ← value? n cs
    match skipBlank cs with
    | ',' :: cs =>
      let (items, rest) ← items? n cs
      some (item :: items, rest)
    | ']' :: cs => some ([item], cs)
    | _ => none

/-- One member or more, up to the closing brace. -/
def members? : Nat → List Char → Option (List (Option String × Json) × List Char)
  | 0, _ => none
  | n + 1, cs => do
    let '"' :: cs := skipBlank cs | none
    let (name, cs) ← string? cs
    let ':' :: cs := skipBlank cs | none
    let (item, cs) ← value? n cs
    match skipBlank cs with
    | ',' :: cs =>
      let (members, rest) ← members? n cs
      some ((name, item) :: members, rest)
    | '\x7d' :: cs => some ([(name, item)], cs)
    | _ => none

end

/-- The document a text holds, with blanks around it. -/
def parse? (text : String) : Option Json :=
  let cs := text.toList
  match value? (2 * cs.length + 1) cs with
  | some (v, rest) => if skipBlank rest = [] then some v else none
  | none => none

end Json

end StackLisp
