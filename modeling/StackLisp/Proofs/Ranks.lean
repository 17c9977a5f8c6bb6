import Mathlib.Algebra.Group.Int.Defs
import StackLisp.Proofs.Doubles

/-!
The order of doubles and integers rounded to doubles. Doubles are ordered as the integers are that the bits
of their magnitudes spell, with a sign. A larger integer is never rounded to a smaller double, since within
one exponent rounding looks at the bits in their order, and what it carries leads to the next exponent.
-/

namespace StackLisp.Double

open Float.Model (Format UnpackedFloat)
open Float.Model.UnpackedFloat

/-! ### Ranks -/

/-- The integer that the bits of a magnitude spell. -/
def magnitude (m : Nat) (e : Int) : Int :=
  (e + 1074) * 2 ^ 52 + m

def rankOf : UnpackedFloat → Int
  | .notANumber => 0
  | .infinity s => s.apply (magnitude (2 ^ 52) 972)
  | .zero _ => 0
  | .finite s m e _ => s.apply (magnitude m e)

/-- The place of a double among all others. -/
def rank (x : Float) : Int :=
  rankOf (parts x)

/-- What unpacking gives: mantissas and exponents that doubles have. -/
def Regular : UnpackedFloat → Prop
  | .finite _ m e _ => Fits m e ∧ e ≤ 971
  | _ => True

theorem exponent_le_of_unpack {b : BitVec spec.numBits} {s : Sign} {m : Nat} {e : Int} {positive : 0 < m}
    (h : unpack spec b = .finite s m e positive) : e ≤ 971 := by
  have exponent : (unpackExponent b).toNat < 2 ^ 11 := (unpackExponent b).isLt
  rcases unpack_finite h with ⟨rfl, rfl⟩ | ⟨-, special, rfl, rfl⟩
  · decide
  · have below : (unpackExponent b).toNat < 2047 := by
      refine Nat.lt_of_le_of_ne (Nat.le_of_lt_succ exponent) fun all => special ?_
      exact BitVec.eq_of_toNat_eq all
    omega

theorem regular_parts (x : Float) : Regular (parts x) := by
  cases inner : parts x with
  | finite s m e positive => exact ⟨fits_of_unpack inner, exponent_le_of_unpack inner⟩
  | notANumber | infinity | zero => trivial

section

variable {m n : Nat} {e f : Int}

theorem magnitude_pos (positive : 0 < m) (fits : Fits m e) : 0 < magnitude m e := by
  have low := fits.low
  unfold magnitude
  omega

theorem magnitude_lt_infinity (fits : Fits m e) (high : e ≤ 971) :
    magnitude m e < magnitude (2 ^ 52) 972 := by
  have small := fits.small
  unfold magnitude
  omega

theorem magnitude_lt_of_lt (fits : Fits m e) (other : Fits n f) (less : e < f) :
    magnitude m e < magnitude n f := by
  have small := fits.small
  have low := fits.low
  have whole := other.whole
  unfold magnitude
  omega

/-- Exponents decide first, and then mantissas. -/
theorem compare_magnitude (fits : Fits m e) (other : Fits n f) :
    (compare e f).then (compare m n) = compare (magnitude m e) (magnitude n f) := by
  rcases Int.lt_trichotomy e f with less | same | more
  · rw [Int.compare_eq_lt.mpr less, Int.compare_eq_lt.mpr (magnitude_lt_of_lt fits other less)]
    rfl
  · subst same
    have shift : compare (magnitude m e) (magnitude n e) = compare m n := by
      unfold magnitude
      rcases Nat.lt_trichotomy m n with less | same | more
      · rw [Nat.compare_eq_lt.mpr less, Int.compare_eq_lt.mpr (by omega)]
      · rw [Nat.compare_eq_eq.mpr same, Int.compare_eq_eq.mpr (by omega)]
      · rw [Nat.compare_eq_gt.mpr more, Int.compare_eq_gt.mpr (by omega)]
    rw [shift, Int.compare_eq_eq.mpr rfl]
    rfl
  · rw [Int.compare_eq_gt.mpr more, Int.compare_eq_gt.mpr (magnitude_lt_of_lt other fits more)]
    rfl

end

theorem compare_neg (a b : Int) : compare (-a) (-b) = (compare a b).swap := by
  rcases Int.lt_trichotomy a b with less | same | more
  · rw [Int.compare_eq_lt.mpr less, Int.compare_eq_gt.mpr (by omega)]
    rfl
  · rw [Int.compare_eq_eq.mpr same, Int.compare_eq_eq.mpr (by omega)]
    rfl
  · rw [Int.compare_eq_gt.mpr more, Int.compare_eq_lt.mpr (by omega)]
    rfl

/-- Doubles other than not a number are ordered by their ranks. -/
theorem compare_parts {u v : UnpackedFloat} (left : Regular u) (right : Regular v) (number : u ≠ .notANumber)
    (other : v ≠ .notANumber) : u.compare v = some (compare (rankOf u) (rankOf v)) := by
  have infinite : 0 < magnitude (2 ^ 52) 972 := by decide
  have above {a b : Int} (h : b < a) : some Ordering.gt = some (compare a b) :=
    congrArg some (Int.compare_eq_gt.mpr h).symm
  have below {a b : Int} (h : a < b) : some Ordering.lt = some (compare a b) :=
    congrArg some (Int.compare_eq_lt.mpr h).symm
  cases u with
  | notANumber => exact absurd rfl number
  | infinity s =>
    cases v with
    | notANumber => exact absurd rfl other
    | infinity t => cases s <;> cases t <;> rfl
    | zero t => cases s <;> rfl
    | finite t n f present =>
      have bounds := magnitude_pos present right.1
      have less := magnitude_lt_infinity right.1 right.2
      cases s with
      | positive => cases t with
        | positive => exact above less
        | negative => exact above (show -magnitude n f < magnitude (2 ^ 52) 972 by omega)
      | negative => cases t with
        | positive => exact below (show -magnitude (2 ^ 52) 972 < magnitude n f by omega)
        | negative => exact below (Int.neg_lt_neg less)
  | zero s =>
    cases v with
    | notANumber => exact absurd rfl other
    | infinity t => cases t <;> rfl
    | zero t => rfl
    | finite t n f present =>
      have bounds := magnitude_pos present right.1
      cases t with
      | positive => exact below bounds
      | negative => exact above (Int.neg_neg_of_pos bounds)
  | finite s m e positive =>
    have bounds := magnitude_pos positive left.1
    have less := magnitude_lt_infinity left.1 left.2
    cases v with
    | notANumber => exact absurd rfl other
    | infinity t =>
      cases t with
      | positive => cases s with
        | positive => exact below less
        | negative => exact below (show -magnitude m e < magnitude (2 ^ 52) 972 by omega)
      | negative => cases s with
        | positive => exact above (show -magnitude (2 ^ 52) 972 < magnitude m e by omega)
        | negative => exact above (Int.neg_lt_neg less)
    | zero t =>
      cases s with
      | positive => exact above bounds
      | negative => exact below (Int.neg_neg_of_pos bounds)
    | finite t n f present =>
      have others := magnitude_pos present right.1
      cases s with
      | positive => cases t with
        | positive => exact congrArg some (compare_magnitude left.1 right.1)
        | negative => exact above (show -magnitude n f < magnitude m e by omega)
      | negative => cases t with
        | positive => exact below (show -magnitude m e < magnitude n f by omega)
        | negative =>
          refine congrArg some ?_
          rw [compare_magnitude left.1 right.1]
          exact (compare_neg _ _).symm

/-! ### Comparison -/

theorem lt_iff {x y : Float} : x < y ↔ (parts x).compare (parts y) = some .lt := by
  have unfolded : x < y ↔ decide (((parts x).compare (parts y) == some .lt) = true) = true := Iff.rfl
  rw [unfolded, decide_eq_true_eq, beq_iff_eq]

theorem beq_iff {x y : Float} : (x == y) = true ↔ (parts x).compare (parts y) = some .eq := by
  have unfolded : (x == y) = true ↔ ((parts x).compare (parts y) == some .eq) = true := Iff.rfl
  rw [unfolded, beq_iff_eq]

theorem isNaN_iff {x : Float} : x.isNaN = true ↔ parts x = .notANumber := by
  have unfolded : x.isNaN = (parts x).isNaN := rfl
  rw [unfolded]
  cases parts x with
  | notANumber => exact ⟨fun _ => rfl, fun _ => rfl⟩
  | infinity | zero | finite => exact ⟨fun h => (nomatch h), fun h => (nomatch h)⟩

theorem compareFloat_rank {x y : Float} (left : x.isNaN = false) (right : y.isNaN = false) :
    Number.compareFloat x y = some (compare (rank x) (rank y)) := by
  have first : parts x ≠ .notANumber := fun none => Bool.false_ne_true (left.symm.trans (isNaN_iff.mpr none))
  have second : parts y ≠ .notANumber := fun none => Bool.false_ne_true (right.symm.trans (isNaN_iff.mpr none))
  have order := compare_parts (regular_parts x) (regular_parts y) first second
  have back := compare_parts (regular_parts y) (regular_parts x) second first
  have ranks : rankOf (parts x) = rank x ∧ rankOf (parts y) = rank y := ⟨rfl, rfl⟩
  rw [ranks.1, ranks.2] at order back
  unfold Number.compareFloat
  simp only [lt_iff, beq_iff, order, back, Option.some.injEq]
  rcases Int.lt_trichotomy (rank x) (rank y) with less | same | more
  · rw [Int.compare_eq_lt.mpr less]
    rfl
  · rw [Int.compare_eq_eq.mpr same]
    rfl
  · rw [Int.compare_eq_gt.mpr more, Int.compare_eq_lt.mpr more]
    rfl

theorem compareFloat_nan {x y : Float} (h : x.isNaN = true ∨ y.isNaN = true) :
    Number.compareFloat x y = none := by
  have incomparable (v : UnpackedFloat) : v.compare .notANumber = none := by
    cases v <;> rfl
  have order : (parts x).compare (parts y) = none ∧ (parts y).compare (parts x) = none := by
    rcases h with left | right
    · rw [isNaN_iff.mp left]
      exact ⟨rfl, incomparable _⟩
    · rw [isNaN_iff.mp right]
      exact ⟨incomparable _, rfl⟩
  unfold Number.compareFloat
  simp only [lt_iff, beq_iff, order.1, order.2, reduceCtorEq, if_false]

/-! ### Unpacking -/

theorem unpackSign_packComponents {s : Sign} {e : BitVec spec.exponentBits}
    {m : BitVec spec.mantissaBitsWithoutImplicit} :
    unpackSign (packComponents spec s e m) = s.toBitVec := by
  unfold unpackSign packComponents
  apply BitVec.eq_of_getLsbD_eq
  intro i hi
  obtain rfl : i = 0 := by omega
  rw [BitVec.getLsbD_cast, BitVec.getLsbD_extractLsb, BitVec.getLsbD_append, BitVec.getLsbD_append]
  simp

/-- With an ordinary exponent a double has the bit that is not stored. -/
theorem unpack_ordinary {b : BitVec spec.numBits} (special : unpackExponent b ≠ -1#_)
    (some : unpackExponent b ≠ 0#_) :
    ∃ present, unpack spec b = .finite (Sign.ofBitVec (unpackSign b)) (1#1 ++ unpackMantissa b).toNat
      ((unpackExponent b).toNat - (spec.exponentBias + spec.mantissaBitsWithoutImplicit)) present := by
  unfold unpack
  dsimp only
  rw [if_neg special, if_neg some]
  exact ⟨by rw [toNat_leading]; exact Nat.add_pos_left (by decide) _, rfl⟩

theorem unpack_pack {s : Sign} {m : Nat} {e : Int} (positive : 0 < m) (low : 2 ^ 52 ≤ m) (high : m < 2 ^ 53)
    {stored : Nat} (exponent : e + 1075 = stored) (ordinary : stored ≠ 0) (finite : stored < 2047) :
    unpack spec (UnpackedFloat.pack spec (.finite s m e positive)) = .finite s m e positive := by
  have sign : Sign.ofBitVec s.toBitVec = s := by
    cases s <;> rfl
  have word : (BitVec.ofNat 11 stored).toNat = stored := Nat.mod_eq_of_lt (by omega)
  have special : BitVec.ofNat spec.exponentBits stored ≠ -1#_ := fun same => by
    have all : stored = 2047 := word.symm.trans (congrArg BitVec.toNat same)
    omega
  have some : BitVec.ofNat spec.exponentBits stored ≠ 0#_ := fun same => by
    have none : stored = 0 := word.symm.trans (congrArg BitVec.toNat same)
    omega
  have whole : (1#1 ++ BitVec.ofNat 52 m).toNat = m := by
    rw [toNat_leading, BitVec.toNat_ofNat]
    show 2 ^ 52 + m % 2 ^ 52 = m
    omega
  have biased : ((BitVec.ofNat spec.exponentBits stored).toNat : Int) -
      (spec.exponentBias + spec.mantissaBitsWithoutImplicit) = e := by
    show ((BitVec.ofNat 11 stored).toNat : Int) - 1075 = e
    omega
  rw [pack_normal positive low high exponent finite]
  obtain ⟨present, unpacked⟩ := unpack_ordinary (unpackExponent_packComponents.trans_ne special)
    (unpackExponent_packComponents.trans_ne some)
  rw [unpacked]
  refine (UnpackedFloat.finite.injEq ..).mpr ⟨?_, ?_, ?_⟩
  · rw [unpackSign_packComponents, sign]
  · rw [unpackMantissa_packComponents, whole]
  · rw [unpackExponent_packComponents, biased]

/-! ### Rounding -/

/-- A mantissa with what was cut off it as one number. -/
def code (em : ExtendedMantissa) : Nat :=
  4 * em.mantissa + 2 * em.roundBit.toNat + em.stickyBit.toNat

theorem code_shiftRightOne {a b : ExtendedMantissa} (h : code a ≤ code b) :
    code a.shiftRightOne ≤ code b.shiftRightOne := by
  obtain ⟨m, r, s⟩ := a
  obtain ⟨n, t, u⟩ := b
  unfold code at h ⊢
  unfold ExtendedMantissa.shiftRightOne
  dsimp only at h ⊢
  have bits (k : Nat) : (k % 2 != 0).toNat = k % 2 := by
    rcases Nat.mod_two_eq_zero_or_one k with even | odd
    · rw [even]
      rfl
    · rw [odd]
      rfl
  rw [bits, bits]
  revert h
  cases r <;> cases s <;> cases t <;> cases u <;>
    simp only [Bool.toNat_true, Bool.toNat_false, Bool.or_true, Bool.or_false] <;> omega

theorem code_repeat {a b : ExtendedMantissa} (h : code a ≤ code b) (n : Nat) :
    code (n.repeat ExtendedMantissa.shiftRightOne a) ≤ code (n.repeat ExtendedMantissa.shiftRightOne b) := by
  induction n with
  | zero => exact h
  | succ n ih => exact code_shiftRightOne ih

theorem roundedMantissa_mono {a b : ExtendedMantissa} (h : code a ≤ code b) :
    a.roundedMantissa ≤ b.roundedMantissa := by
  obtain ⟨m, r, s⟩ := a
  obtain ⟨n, t, u⟩ := b
  unfold code at h
  revert h
  unfold ExtendedMantissa.roundedMantissa
  cases r <;> cases s <;> cases t <;> cases u <;>
    simp only [ExtendedMantissa.accuracy, Accuracy.roundToNearestEven, Bool.toNat_true, Bool.toNat_false] <;> omega

/-- What a positive integer is rounded to, once it is doubled until it has more than 53 bits. -/
def rounded (n : Nat) : Nat :=
  ((n.log2 + 1).repeat ExtendedMantissa.shiftRightOne ⟨2 ^ 53 * n, false, false⟩).roundedMantissa

theorem roundedMantissa_le (em : ExtendedMantissa) : em.roundedMantissa ≤ em.mantissa + 1 := by
  unfold ExtendedMantissa.roundedMantissa
  cases em.accuracy with
  | exact => exact Nat.le_succ _
  | inexact o =>
    cases o <;> simp only [Accuracy.roundToNearestEven] <;> omega

theorem rounded_bounds {n : Nat} (positive : 0 < n) : 2 ^ 52 ≤ rounded n ∧ rounded n ≤ 2 ^ 53 := by
  have least : 2 ^ n.log2 ≤ n := Nat.log2_self_le (Nat.ne_of_gt positive)
  have most : n < 2 ^ (n.log2 + 1) := Nat.lt_log2_self
  have double : 2 ^ (n.log2 + 1) = 2 * 2 ^ n.log2 := Nat.pow_succ'
  have kept : 2 ^ 52 ≤ 2 ^ 53 * n / 2 ^ (n.log2 + 1) := by
    rw [Nat.le_div_iff_mul_le (Nat.two_pow_pos _)]
    omega
  have short : 2 ^ 53 * n / 2 ^ (n.log2 + 1) < 2 ^ 53 :=
    Nat.div_lt_of_lt_mul (by rw [Nat.mul_comm]; exact Nat.mul_lt_mul_of_pos_right most (by decide))
  unfold rounded
  generalize same : (n.log2 + 1).repeat ExtendedMantissa.shiftRightOne ⟨2 ^ 53 * n, false, false⟩ = em
  have mantissa : em.mantissa = 2 ^ 53 * n / 2 ^ (n.log2 + 1) := by
    rw [← same, mantissa_repeat]
  have up := le_roundedMantissa em
  have down := roundedMantissa_le em
  omega

/-- Rounding in its three steps: cut off, round, and cut off once more. -/
theorem round_eq {s : Sign} {m : Nat} {e f : Int} {a : Accuracy} {r again : Nat}
    (first : ((surplus m e).repeat ExtendedMantissa.shiftRightOne (.ofMantissaAndAccuracy m a)).roundedMantissa = r)
    (exponent : e + surplus m e = f) (second : surplus r f = again) (present : 0 < r / 2 ^ again) :
    roundWithAccuracy spec s m e a = .finite s (r / 2 ^ again) (f + again) present := by
  have cut : ((surplus r f).repeat ExtendedMantissa.shiftRightOne (.ofMantissaAndAccuracy r .exact)).mantissa =
      r / 2 ^ again := by
    rw [second, mantissa_repeat, mantissa_ofMantissaAndAccuracy]
  unfold roundWithAccuracy
  rw [shift_eq]
  dsimp only
  rw [first, exponent, shift_eq]
  dsimp only
  rw [dif_neg (by rw [cut]; exact Nat.ne_of_gt present)]
  exact (UnpackedFloat.finite.injEq ..).mpr ⟨rfl, cut, by rw [second]⟩

/-- What is rounded has a mantissa of 53 bits; if what is carried makes it longer, the exponent grows. -/
theorem round_integer {s : Sign} {n : Nat} (positive : 0 < n) :
    ∃ m e, ∃ present : 0 < m,
      roundWithAccuracy spec s (2 ^ 53 * n) (-53) .exact = .finite s m e present ∧
        (2 ^ 52 ≤ m ∧ m < 2 ^ 53) ∧ (-52 ≤ e ∧ e ≤ n.log2 - 51) ∧
        magnitude m e = (n.log2 + 1022) * 2 ^ 52 + rounded n := by
  obtain ⟨low, high⟩ := rounded_bounds positive
  have bits : surplus (2 ^ 53 * n) (-53) = n.log2 + 1 := by
    unfold surplus
    rw [log2_mul_pow positive]
    omega
  have first : ((surplus (2 ^ 53 * n) (-53)).repeat ExtendedMantissa.shiftRightOne
      (.ofMantissaAndAccuracy (2 ^ 53 * n) .exact)).roundedMantissa = rounded n := by
    rw [bits]
    rfl
  have exponent : -53 + (surplus (2 ^ 53 * n) (-53) : Int) = n.log2 - 52 := by omega
  rcases Nat.lt_or_eq_of_le high with short | long
  · have second : surplus (rounded n) (n.log2 - 52) = 0 := by
      unfold surplus
      rw [log2_of_lt low short]
      omega
    have same : rounded n / 2 ^ 0 = rounded n := Nat.div_one _
    refine ⟨_, _, _, round_eq first exponent second (by omega), by omega, by omega, ?_⟩
    unfold magnitude
    omega
  · have second : surplus (rounded n) (n.log2 - 52) = 1 := by
      have length : (2 ^ 53).log2 = 53 := Nat.log2_two_pow
      unfold surplus
      rw [long, length]
      omega
    have half : rounded n / 2 ^ 1 = 2 ^ 52 := by omega
    refine ⟨_, _, _, round_eq first exponent second (by omega), by omega, by omega, ?_⟩
    unfold magnitude
    omega

/-- The rank of the double that an integer is rounded to. -/
def place (n : Nat) : Int :=
  if n = 0 then 0 else (n.log2 + 1022) * 2 ^ 52 + rounded n

theorem place_nonneg (n : Nat) : 0 ≤ place n := by
  unfold place
  split <;> omega

/-- A larger integer has a larger exponent, or it is cut off at the same bit. -/
theorem place_mono {m n : Nat} (h : m ≤ n) : place m ≤ place n := by
  rcases Nat.eq_zero_or_pos m with rfl | positive
  · exact place_nonneg n
  have high := (rounded_bounds positive).2
  have low := (rounded_bounds (Nat.lt_of_lt_of_le positive h)).1
  have order : m.log2 ≤ n.log2 := by
    refine (Nat.le_log2 (by omega)).mpr (Nat.le_trans ?_ h)
    exact Nat.log2_self_le (Nat.ne_of_gt positive)
  unfold place
  rw [if_neg (by omega), if_neg (by omega)]
  rcases Nat.lt_or_eq_of_le order with less | same
  · omega
  · have codes : code ⟨2 ^ 53 * m, false, false⟩ ≤ code ⟨2 ^ 53 * n, false, false⟩ := by
      unfold code
      dsimp only
      omega
    have within : rounded m ≤ rounded n := by
      unfold rounded
      rw [same]
      exact roundedMantissa_mono (code_repeat codes _)
    omega

/-! ### Integers -/

/-- With no more than 53 bits an integer becomes its own mantissa, which is what rounding would make of it. -/
theorem normalize_eq {n : Nat} (positive : 0 < n) (small : n < 2 ^ 53) :
    UnpackedFloat.normalize spec n 0 .positive = roundWithAccuracy spec .positive (2 ^ 53 * n) (-53) .exact := by
  have order : compare (n : Int) 0 = .gt := Int.compare_eq_gt.mpr (by omega)
  have bits : n.log2 ≤ 52 := Nat.le_of_lt_succ ((Nat.log2_lt (Nat.ne_of_gt positive)).mpr small)
  have filled : (0 - spec.targetExponent (Float.Model.totalExponent n 0)).toNat = 52 - n.log2 := by
    show (0 - max ((n.log2 : Int) + 1 + 0 - 53) (-1074)).toNat = _
    omega
  have least : 2 ^ n.log2 ≤ n := Nat.log2_self_le (Nat.ne_of_gt positive)
  have most : n < 2 ^ (n.log2 + 1) := Nat.lt_log2_self
  have present : 0 < 2 ^ (52 - n.log2) * n := Nat.mul_pos (Nat.two_pow_pos _) positive
  have fits : Fits (2 ^ (52 - n.log2) * n) (n.log2 - 52) := by
    refine ⟨?_, by omega, .inl ?_⟩
    · calc 2 ^ (52 - n.log2) * n < 2 ^ (52 - n.log2) * 2 ^ (n.log2 + 1) :=
            Nat.mul_lt_mul_of_pos_left most (Nat.two_pow_pos _)
        _ = 2 ^ 53 := by rw [← Nat.pow_add]; congr 1; omega
    · calc 2 ^ 52 = 2 ^ (52 - n.log2) * 2 ^ n.log2 := by rw [← Nat.pow_add]; congr 1; omega
        _ ≤ 2 ^ (52 - n.log2) * n := Nat.mul_le_mul_left _ least
  have short := round_exact (s := .positive) present fits 0
  have long := round_exact (s := .positive) present fits (n.log2 + 1)
  have zeros : 2 ^ (n.log2 + 1) * (2 ^ (52 - n.log2) * n) = 2 ^ 53 * n := by
    rw [← Nat.mul_assoc, ← Nat.pow_add]
    congr 2
    omega
  have exponents : -((n.log2 + 1 : Nat) : Int) + (n.log2 - 52) = -53 := by omega
  have shifted : n <<< (52 - n.log2) = 2 ^ 0 * (2 ^ (52 - n.log2) * n) := by
    rw [Nat.shiftLeft_eq, Nat.pow_zero, Nat.one_mul, Nat.mul_comm]
  have lowered : (0 : Int) - (52 - n.log2 : Nat) = -((0 : Nat) : Int) + (n.log2 - 52) := by omega
  rw [zeros, exponents] at long
  unfold UnpackedFloat.normalize
  rw [order]
  dsimp only
  rw [Int.toNat_natCast]
  unfold Float.Model.UnpackedFloat.round
  dsimp only [decreaseExponent]
  rw [filled, shifted, lowered, short, long]

theorem ofNat_eq {n : Nat} (positive : 0 < n) :
    Float.ofNat n = .ofModel (.pack (roundWithAccuracy spec .positive (2 ^ 53 * n) (-53) .exact)) := by
  show Float.ofScientific n false 0 = _
  unfold Float.ofScientific
  by_cases small : n < 2 ^ 53 ∧ 0 ≤ 22
  · rw [dif_pos small]
    have word : n.toUInt64.toNat = n := Nat.mod_eq_of_lt (by omega)
    have normal : n.toUInt64.toFloat =
        .ofModel (.pack (UnpackedFloat.normalize spec n.toUInt64.toNat 0 .positive)) := rfl
    show n.toUInt64.toFloat * 1.0 = _
    rw [mul_one, normal, word, normalize_eq positive small.1]
  · rw [dif_neg small]
    show Float.ofModel (.pack (ofScientific spec n 0)) = _
    have low : ¬((0 : Int) < -((2 ^ spec.exponentBits : Int) + n.log2)) := by
      have power : (0 : Int) ≤ 2 ^ spec.exponentBits := by decide
      omega
    have shifted : n <<< spec.mantissaBits * 10 ^ (0 : Int).toNat = 2 ^ 53 * n := by
      rw [Nat.shiftLeft_eq, Nat.mul_comm n]
      exact Nat.mul_one _
    unfold ofScientific
    rw [dif_neg (Nat.ne_of_gt positive), if_neg (by decide), if_neg low, if_pos (Int.le_refl 0), mul_finite, shifted]
    rfl

theorem parts_ofNat {n : Nat} (positive : 0 < n) (range : n < 2 ^ 64) :
    ∃ m e, ∃ present : 0 < m,
      parts (Float.ofNat n) = .finite .positive m e present ∧
        parts (-Float.ofNat n) = .finite .negative m e present ∧ magnitude m e = place n := by
  obtain ⟨m, e, present, same, ⟨low, high⟩, ⟨least, most⟩, spelled⟩ := round_integer (s := .positive) positive
  have bits : n.log2 < 64 := (Nat.log2_lt (Nat.ne_of_gt positive)).mpr range
  have kept (s : Sign) : unpack spec (UnpackedFloat.pack spec (.finite s m e present)) = .finite s m e present :=
    unpack_pack present low high (show e + 1075 = (e + 1075).toNat by omega) (by omega) (by omega)
  have itself : parts (Float.ofNat n) = .finite .positive m e present := by
    rw [ofNat_eq positive, same]
    exact kept .positive
  have negated : -Float.ofNat n = .ofModel (.pack (parts (Float.ofNat n)).neg) := rfl
  refine ⟨m, e, present, itself, ?_, ?_⟩
  · rw [negated, itself]
    exact kept .negative
  · rw [spelled, place, if_neg (Nat.ne_of_gt positive)]

theorem rank_ofNat {n : Nat} (range : n < 2 ^ 64) :
    rank (Float.ofNat n) = place n ∧ rank (-Float.ofNat n) = -place n := by
  rcases Nat.eq_zero_or_pos n with rfl | positive
  · exact ⟨by decide +kernel, by decide +kernel⟩
  · obtain ⟨m, e, present, itself, negated, spelled⟩ := parts_ofNat positive range
    unfold rank
    rw [itself, negated, ← spelled]
    exact ⟨rfl, rfl⟩

/-- The rank of a rounded integer, whatever its sign. -/
theorem rank_round (n : Int64) :
    rank (Number.round n) = if 0 ≤ n.toInt then place n.toInt.natAbs else -place n.toInt.natAbs := by
  have low := n.le_toInt
  have high := n.toInt_lt
  unfold Number.round
  cases same : n.toInt with
  | ofNat m =>
    rw [Int.ofNat_eq_natCast] at same ⊢
    rw [if_pos (Int.natCast_nonneg m)]
    exact (rank_ofNat (by omega)).1
  | negSucc m =>
    rw [if_neg (by omega)]
    exact (rank_ofNat (by omega)).2

/-- Rounding keeps the order of integers, though it can make distinct ones equal. -/
theorem rank_round_mono {l r : Int64} (h : l.toInt ≤ r.toInt) :
    rank (Number.round l) ≤ rank (Number.round r) := by
  have left := place_nonneg l.toInt.natAbs
  have right := place_nonneg r.toInt.natAbs
  rw [rank_round, rank_round]
  split
  next above =>
    rw [if_pos (by omega)]
    exact place_mono (by omega)
  next below =>
    split
    next above => omega
    next other => exact Int.neg_le_neg (place_mono (by omega))

theorem isNaN_round (n : Int64) : (Number.round n).isNaN = false := by
  have low := n.le_toInt
  have high := n.toInt_lt
  have number {x : Float} {s : Sign} {m : Nat} {e : Int} {present : 0 < m}
      (h : parts x = .finite s m e present) : x.isNaN = false := by
    rw [Bool.eq_false_iff, ne_eq, isNaN_iff, h]
    exact nofun
  unfold Number.round
  cases same : n.toInt with
  | ofNat m =>
    rw [Int.ofNat_eq_natCast] at same
    rcases Nat.eq_zero_or_pos m with rfl | positive
    · decide +kernel
    · obtain ⟨_, _, _, itself, -⟩ := parts_ofNat positive (by omega)
      exact number itself
  | negSucc m =>
    obtain ⟨_, _, _, -, negated, -⟩ := parts_ofNat (Nat.succ_pos m) (by omega)
    exact number negated

end StackLisp.Double
