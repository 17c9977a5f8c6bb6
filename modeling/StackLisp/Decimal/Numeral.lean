import StackLisp.Decimal.Shortest

/-!
Decimal numerals: a sign, digits, and perhaps a fraction and an exponent. A numeral with neither is a
whole number; every numeral has a nearest double.
-/

namespace StackLisp.Decimal

def isDigit (c : Char) : Bool :=
  '0' ≤ c && c ≤ '9'

/-- The number a run of digits stands for. -/
def ofDigits (ds : List Char) : Nat :=
  ds.foldl (fun n c => 10 * n + (c.toNat - '0'.toNat)) 0

structure Numeral where
  negative : Bool
  whole : List Char
  fraction : Option (List Char)
  exponent : Option Int
deriving DecidableEq

namespace Numeral

def sign? : List Char → Bool × List Char
  | '-' :: cs => (true, cs)
  | cs => (false, cs)

def fraction? : List Char → Option (List Char) × List Char
  | '.' :: cs => (some (cs.takeWhile isDigit), cs.dropWhile isDigit)
  | cs => (none, cs)

/-- The whole of `cs` as an exponent; `none` if it is neither empty nor one. -/
def exponent? (cs : List Char) : Option (Option Int) :=
  match cs with
  | [] => some none
  | c :: cs =>
    if c = 'e' ∨ c = 'E' then
      let (negative, ds) := match cs with
        | '-' :: ds => (true, ds)
        | '+' :: ds => (false, ds)
        | ds => (false, ds)
      if ds = [] ∨ !ds.all isDigit then none
      else some (some (if negative then -(ofDigits ds : Int) else ofDigits ds))
    else none

def parse? (cs : List Char) : Option Numeral :=
  let (negative, cs) := sign? cs
  let whole := cs.takeWhile isDigit
  let (fraction, cs) := fraction? (cs.dropWhile isDigit)
  if whole = [] then none
  else (exponent? cs).map fun exponent => ⟨negative, whole, fraction, exponent⟩

def integer? (n : Numeral) : Option Int :=
  match n.fraction, n.exponent with
  | none, none => some (if n.negative then -(ofDigits n.whole : Int) else ofDigits n.whole)
  | _, _ => none

end Numeral

/-- The double nearest to `m · 10 ^ e`. Past the range of doubles the power is not computed. -/
def nearestFloat (m : Nat) (e : Int) : Float :=
  let top := digitCount m + e
  if m = 0 ∨ top < -330 then 0
  else if 310 < top then 1 / 0
  else Float.ofScientific m (e < 0) e.natAbs

def Numeral.toFloat (n : Numeral) : Float :=
  let ds := n.fraction.getD []
  let x := nearestFloat (ofDigits (n.whole ++ ds)) (n.exponent.getD 0 - ds.length)
  if n.negative then -x else x

end StackLisp.Decimal
