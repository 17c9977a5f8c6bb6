import StackLisp.Decimal.Shortest

/-!
The text of a double: the shortest digits that read back, positional where the first digit stands
between the two limits of `Layout`, and with a power of ten elsewhere.
-/

namespace StackLisp.Decimal

/-- Positional text is kept for first digits at `10 ^ least` and above, and below `10 ^ limit`. -/
structure Layout where
  least : Int
  limit : Int

def plain : Layout := ⟨-4, 16⟩

def stripZeros (ds : List Char) : List Char :=
  (ds.reverse.dropWhile (· = '0')).reverse

def integerText (n : Int) : List Char :=
  if n < 0 then '-' :: numeral n.natAbs else numeral n.natAbs

/-- `0.ds`, with the point moved `point` places to the right; a whole number keeps one decimal. -/
def positional (ds : List Char) (point : Int) : List Char :=
  if point ≤ 0 then ['0', '.'] ++ List.replicate (-point).toNat '0' ++ ds
  else
    let n := point.toNat
    if ds.length ≤ n then ds ++ List.replicate (n - ds.length) '0' ++ ['.', '0']
    else ds.take n ++ '.' :: ds.drop n

/-- `d.ddd` times a power of ten, without a point if there is one digit. -/
def scientific (ds : List Char) (exponent : Int) : List Char :=
  let tail := ds.drop 1
  ds.take 1 ++ (if tail = [] then [] else '.' :: tail) ++ 'e' :: integerText exponent

def Scaled.text (layout : Layout) (s : Scaled) : List Char :=
  let all := numeral s.digits
  let exponent := s.exponent + all.length - 1
  let ds := stripZeros all
  if layout.least ≤ exponent ∧ exponent < layout.limit then positional ds (exponent + 1)
  else scientific ds exponent

def unsignedText (x : Float) : List Char :=
  if x.isInf then ['i', 'n', 'f']
  else
    let bits := x.toBits.toNat % Nat.pow 2 63
    if bits = 0 then ['0', '.', '0'] else (shortest (Binary.ofBits bits)).text plain

def floatText (x : Float) : List Char :=
  if x.isNaN then ['N', 'a', 'N']
  else if x.toBits.toNat < Nat.pow 2 63 then unsignedText x
  else '-' :: unsignedText x

end StackLisp.Decimal
