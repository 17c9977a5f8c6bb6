import StackLisp.Decimal.Shortest

/-!
The remainder of two doubles, taken exactly: both are whole multiples of one power of two, so the
remainder of the multiples is the answer, and it always fits a double.
-/

namespace StackLisp

open Decimal (Binary)

/-- The double `m · 2 ^ e`, for `m < 2 ^ 53` and `-1074 ≤ e`, with the given sign bit. -/
def assemble (negative : Bool) (m : Nat) (e : Int) : Float :=
  let shift := 52 - m.log2
  let biased := e + 1075 - shift
  let bits :=
    if m = 0 then 0
    else if 1 ≤ biased then biased.toNat * Nat.pow 2 52 + (m * Nat.pow 2 shift - Nat.pow 2 52)
    else m * Nat.pow 2 (e + 1074).toNat
  Float.ofBits (UInt64.ofNat (if negative then bits + Nat.pow 2 63 else bits))

/-- The remainder of magnitudes, as a multiple of the smaller power of two. -/
def Decimal.Binary.remainder (a b : Binary) : Nat × Int :=
  let e := min a.exponent b.exponent
  let multiple (c : Binary) : Nat := c.mantissa * Nat.pow 2 (c.exponent - e).toNat
  (multiple a % multiple b, e)

/-- The remainder of a quotient cut off toward zero. It has the dividend's sign, also when it is zero. -/
def floatRemainder (x y : Float) : Float :=
  if x.isNaN || y.isNaN || x.isInf then 0 / 0
  else if y.isInf then x
  else
    let a := x.toBits.toNat
    let magnitude (bits : Nat) : Binary := .ofBits (bits % Nat.pow 2 63)
    let (m, e) := (magnitude a).remainder (magnitude y.toBits.toNat)
    assemble (Nat.pow 2 63 ≤ a) m e

end StackLisp
