import StackLisp.Number.Remainder

/-!
Numbers: 64-bit integers and doubles. A whole result that fits 64 bits stays an integer; any other is
the double computed from the rounded operands.

`Float` has one value that is not a number, where the hardware has many: their signs and payloads are not
modelled. So to negate it changes nothing here, and all of them are equal and have one digest, while on a
machine two that differ in a bit do not compare equal.
-/

namespace StackLisp

inductive Number where
  | integer (n : Int64)
  | float (x : Float)
deriving DecidableEq

namespace Number

def fits (n : Int) : Bool :=
  Int64.minValue.toInt ≤ n && n ≤ Int64.maxValue.toInt

/-- The double nearest to an integer, ties to the even mantissa. -/
def round (n : Int64) : Float :=
  Float.ofInt n.toInt

def toFloat : Number → Float
  | integer n => round n
  | float x => x

def isZero : Number → Bool
  | integer n => n = 0
  | float x => x == 0

/-- The exact result if it fits, and `otherwise` in doubles if not. -/
def exactOr (n : Int) (otherwise : Float) : Number :=
  if fits n then integer (Int64.ofInt n) else float otherwise

def combine (whole : Int → Int → Int) (real : Float → Float → Float) : Number → Number → Number
  | integer l, integer r => exactOr (whole l.toInt r.toInt) (real (round l) (round r))
  | l, r => float (real l.toFloat r.toFloat)

def add : Number → Number → Number :=
  combine (· + ·) (· + ·)

def sub : Number → Number → Number :=
  combine (· - ·) (· - ·)

def mul : Number → Number → Number :=
  combine (· * ·) (· * ·)

/-- `none` for a zero divisor. A whole quotient of integers stays whole. -/
def div? (a b : Number) : Option Number :=
  if b.isZero then none
  else match a, b with
    | integer l, integer r =>
      let real := round l / round r
      some (if l.toInt.tmod r.toInt = 0 then exactOr (l.toInt.tdiv r.toInt) real else float real)
    | l, r => some (float (l.toFloat / r.toFloat))

/-- `none` for a zero divisor. -/
def rem? (a b : Number) : Option Number :=
  if b.isZero then none
  else match a, b with
    | integer l, integer r => some (integer (Int64.ofInt (l.toInt.tmod r.toInt)))
    | l, r => some (float (floatRemainder l.toFloat r.toFloat))

def neg : Number → Number
  | integer n => exactOr (-n.toInt) (-round n)
  | float x => float (-x)

/-- Not a number has no order with anything. -/
def compareFloat (x y : Float) : Option Ordering :=
  if x < y then some .lt else if x == y then some .eq else if y < x then some .gt else none

def compare? : Number → Number → Option Ordering
  | integer l, integer r => some (compare l.toInt r.toInt)
  | l, r => compareFloat l.toFloat r.toFloat

end Number

end StackLisp
