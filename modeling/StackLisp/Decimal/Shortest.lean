/-!
Shortest decimals. A finite double is `mantissa · 2 ^ exponent`, and the reals that round to it form an
interval around it. The shortest decimal is a point of the coarsest power-of-ten grid that meets the
interval: one of the two neighbours of the value on that grid, the nearer if both are inside.
-/

namespace StackLisp.Decimal

/-- The positive value `mantissa · 2 ^ exponent` with the gap below it half as wide as the one above
when `narrow` holds. -/
structure Binary where
  mantissa : Nat
  exponent : Int
  narrow : Bool
deriving DecidableEq

/-- Reads the low 63 bits of a finite double. -/
def Binary.ofBits (bits : Nat) : Binary :=
  let fraction := bits % Nat.pow 2 52
  let biased : Nat := bits / Nat.pow 2 52 % Nat.pow 2 11
  if biased = 0 then ⟨fraction, -1074, false⟩
  else ⟨fraction + Nat.pow 2 52, (biased : Int) - 1075, fraction = 0 ∧ 1 < biased⟩

/-- Digits and power of ten: the number `digits · 10 ^ exponent`. -/
structure Scaled where
  digits : Nat
  exponent : Int
deriving DecidableEq

def numeral (n : Nat) : List Char :=
  Nat.toDigits 10 n

def digitCount (n : Nat) : Nat :=
  (numeral n).length

/-- The interval of reals that round to a value, over one denominator; `closed` when its ends do. -/
structure Interval where
  low : Nat
  value : Nat
  high : Nat
  denominator : Nat
  closed : Bool
deriving DecidableEq

def Binary.interval (b : Binary) : Interval :=
  let unit := Nat.pow 2 (b.exponent - 2).toNat
  { low := (if b.narrow then 4 * b.mantissa - 1 else 4 * b.mantissa - 2) * unit
    value := 4 * b.mantissa * unit
    high := (4 * b.mantissa + 2) * unit
    denominator := Nat.pow 2 (2 - b.exponent).toNat
    closed := b.mantissa % 2 = 0 }

/-- The exponent `e` with `10 ^ e ≤ value < 10 ^ (e + 1)`. -/
def Interval.magnitude (i : Interval) : Int :=
  if i.denominator ≤ i.value then (digitCount (i.value / i.denominator) : Int) - 1
  else -(digitCount ((i.denominator + i.value - 1) / i.value - 1) : Int)

namespace Interval

/-- The interval with every end multiplied by `10 ^ -k`. -/
def onGrid (i : Interval) (k : Int) : Interval :=
  let up := Nat.pow 10 (-k).toNat
  { i with
    low := i.low * up, value := i.value * up, high := i.high * up
    denominator := i.denominator * Nat.pow 10 k.toNat }

def contains (i : Interval) (n : Nat) : Bool :=
  let p := n * i.denominator
  if i.closed then i.low ≤ p && p ≤ i.high else i.low < p && p < i.high

/-- The neighbour of the value among the whole numbers of the interval, the upper one on a tie. -/
def nearest? (i : Interval) : Option Nat :=
  let below := i.value / i.denominator
  match i.contains below, i.contains (below + 1) with
  | true, false => some below
  | false, true => some (below + 1)
  | true, true =>
    some (if 2 * (i.value % i.denominator) < i.denominator then below else below + 1)
  | false, false => none

end Interval

/-- Tries the grids `10 ^ k`, `10 ^ (k - 1)`, and so on, `steps` of them. -/
def search (i : Interval) (k : Int) : Nat → Scaled
  | 0 => ⟨(i.onGrid k).value / (i.onGrid k).denominator, k⟩
  | steps + 1 =>
    match (i.onGrid k).nearest? with
    | some digits => ⟨digits, k⟩
    | none => search i (k - 1) steps

/-- Seventeen digits tell any two doubles apart, so the search never runs past its last grid. -/
def shortest (b : Binary) : Scaled :=
  search b.interval b.interval.magnitude 17

end StackLisp.Decimal
