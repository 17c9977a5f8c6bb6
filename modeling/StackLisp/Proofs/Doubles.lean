import Mathlib.Algebra.GroupWithZero.Nat
import StackLisp.Number

/-!
What sums that start with zero and products that start with one come to in doubles. One is neutral for
every product. Zero is neutral for every sum but that with negative zero, which is itself neutral; and
no integer is rounded to negative zero.

Operations on doubles unpack their operands into sign, mantissa and exponent and pack the result, so the
first thing needed is that packing gives back what was unpacked.
-/

namespace StackLisp.Double

open Float.Model (Format UnpackedFloat)
open Float.Model.UnpackedFloat

abbrev spec : Format :=
  .binary64

/-! ### Packing -/

theorem packComponents_unpack (b : BitVec spec.numBits) :
    packComponents spec (Sign.ofBitVec (unpackSign b)) (unpackExponent b) (unpackMantissa b) = b := by
  have sign : ∀ s : BitVec 1, (Sign.ofBitVec s).toBitVec = s := by decide
  unfold packComponents
  rw [sign]
  show BitVec.extractLsb' 63 1 b ++ BitVec.extractLsb' 52 11 b ++ BitVec.extractLsb' 0 52 b = b
  rw [BitVec.extractLsb'_append_extractLsb'_eq_extractLsb' (show 63 = 52 + 11 from rfl),
    BitVec.extractLsb'_append_extractLsb'_eq_extractLsb' (show 52 = 0 + 52 from rfl)]
  exact BitVec.extractLsb'_eq_self

theorem packComponents_eq {b : BitVec spec.numBits} {e : BitVec spec.exponentBits}
    {m : BitVec spec.mantissaBitsWithoutImplicit} (exponent : unpackExponent b = e)
    (mantissa : unpackMantissa b = m) : packComponents spec (Sign.ofBitVec (unpackSign b)) e m = b := by
  rw [← exponent, ← mantissa, packComponents_unpack]

theorem log2_of_lt {m : Nat} (low : 2 ^ 52 ≤ m) (high : m < 2 ^ 53) : m.log2 = 52 :=
  (Nat.log2_eq_iff (by omega)).mpr ⟨low, high⟩

theorem log2_lt_of_lt {m : Nat} (small : m < 2 ^ 52) : m.log2 < 52 := by
  rcases Nat.eq_zero_or_pos m with rfl | positive
  · decide
  · exact (Nat.log2_lt (Nat.ne_of_gt positive)).mpr small

theorem pack_normal {s : Sign} {m : Nat} {e : Int} (positive : 0 < m) (low : 2 ^ 52 ≤ m) (high : m < 2 ^ 53)
    {stored : Nat} (exponent : e + 1075 = stored) (finite : stored < 2047) :
    UnpackedFloat.pack spec (.finite s m e positive) =
      packComponents spec s (BitVec.ofNat _ stored) (BitVec.ofNat _ m) := by
  have biased : (e + spec.exponentBias + spec.mantissaBitsWithoutImplicit).toNat = stored := by
    show (e + (1023 : Nat) + (52 : Nat)).toNat = stored
    omega
  unfold UnpackedFloat.pack
  simp only [biased]
  have : ¬ 2 ^ spec.exponentBits ≤ stored + 1 := by
    show ¬ 2 ^ 11 ≤ stored + 1
    omega
  rw [if_neg this, if_pos]
  rw [log2_of_lt low high]
  rfl

theorem pack_subnormal {s : Sign} {m : Nat} (positive : 0 < m) (small : m < 2 ^ 52) :
    UnpackedFloat.pack spec (.finite s m (-1074) positive) =
      packComponents spec s 0 (BitVec.ofNat _ m) := by
  have biased : ((-1074 : Int) + spec.exponentBias + spec.mantissaBitsWithoutImplicit).toNat = 1 := rfl
  unfold UnpackedFloat.pack
  simp only [biased]
  have short : ¬m.log2 + 1 = spec.mantissaBits := fun full =>
    Nat.ne_of_lt (log2_lt_of_lt small) (Nat.succ.inj full)
  rw [if_neg (by decide), if_neg short]
  rfl

theorem finite_congr {s : Sign} {m : Nat} {e f : Int} (same : e = f) (positive : 0 < m) :
    UnpackedFloat.finite s m e positive = .finite s m f positive := by
  rw [same]

/-- The first bit of an ordinary mantissa is not stored. -/
theorem toNat_leading (m : BitVec 52) : (1#1 ++ m).toNat = 2 ^ 52 + m.toNat := by
  rw [BitVec.toNat_append, ← Nat.shiftLeft_add_eq_or_of_lt m.isLt]
  rfl

theorem pack_unpack {b : BitVec spec.numBits} (valid : spec.Valid b) :
    UnpackedFloat.pack spec (unpack spec b) = b := by
  have mantissa : (unpackMantissa b).toNat < 2 ^ 52 := (unpackMantissa b).isLt
  have exponent : (unpackExponent b).toNat < 2 ^ 11 := (unpackExponent b).isLt
  unfold unpack
  dsimp only
  by_cases ordinary : unpackExponent b = -1#_
  · rw [if_pos ordinary]
    by_cases none : unpackMantissa b = 0#_
    · rw [if_pos none]
      exact packComponents_eq ordinary none
    · rw [if_neg none]
      exact (valid.eq_packedNaN ordinary none).symm
  · rw [if_neg ordinary]
    by_cases none : unpackExponent b = 0#_
    · rw [if_pos none]
      by_cases zero : unpackMantissa b = 0#_
      · rw [dif_pos zero]
        exact packComponents_eq none zero
      · rw [dif_neg zero]
        have low : (((unpackExponent b).toNat : Int) -
            (spec.exponentBias + spec.mantissaBitsWithoutImplicit) + 1) = -1074 := by rw [none]; rfl
        rw [finite_congr low, pack_subnormal _ mantissa]
        exact packComponents_eq none (by simp)
    · rw [if_neg none]
      have whole := toNat_leading (unpackMantissa b)
      have below : (unpackExponent b).toNat < 2047 := by
        refine Nat.lt_of_le_of_ne (Nat.le_of_lt_succ exponent) fun all => ordinary ?_
        exact BitVec.eq_of_toNat_eq all
      have biased : ((unpackExponent b).toNat : Int) - (spec.exponentBias + spec.mantissaBitsWithoutImplicit) +
          1075 = (unpackExponent b).toNat := Int.sub_add_cancel _ 1075
      rw [pack_normal _ (by omega) (by omega) biased below]
      apply packComponents_eq
      · simp
      · apply BitVec.eq_of_toNat_eq
        rw [BitVec.toNat_ofNat, whole, Nat.add_mod_left]
        exact (Nat.mod_eq_of_lt mantissa).symm

/-- A mantissa and an exponent as a finite double has them: 53 bits, or fewer with the least exponent. -/
structure Fits (m : Nat) (e : Int) : Prop where
  small : m < 2 ^ 53
  low : -1074 ≤ e
  whole : 2 ^ 52 ≤ m ∨ e = -1074

/-- What unpacks to a finite double is subnormal or has an ordinary exponent. -/
theorem unpack_finite {b : BitVec spec.numBits} {s : Sign} {m : Nat} {e : Int} {positive : 0 < m}
    (h : unpack spec b = .finite s m e positive) :
    (m = (unpackMantissa b).toNat ∧ e = -1074) ∨
      (unpackExponent b ≠ 0#_ ∧ unpackExponent b ≠ -1#_ ∧ m = 2 ^ 52 + (unpackMantissa b).toNat ∧
        e = (unpackExponent b).toNat - 1075) := by
  unfold unpack at h
  dsimp only at h
  by_cases special : unpackExponent b = -1#_
  · rw [if_pos special] at h
    by_cases none : unpackMantissa b = 0#_
    · rw [if_pos none] at h
      cases h
    · rw [if_neg none] at h
      cases h
  · rw [if_neg special] at h
    by_cases none : unpackExponent b = 0#_
    · rw [if_pos none] at h
      by_cases zero : unpackMantissa b = 0#_
      · rw [dif_pos zero] at h
        cases h
      · rw [dif_neg zero] at h
        cases h
        exact .inl ⟨rfl, by rw [none]; rfl⟩
    · rw [if_neg none] at h
      cases h
      exact .inr ⟨none, special, toNat_leading _, rfl⟩

theorem fits_of_unpack {b : BitVec spec.numBits} {s : Sign} {m : Nat} {e : Int} {positive : 0 < m}
    (h : unpack spec b = .finite s m e positive) : Fits m e := by
  have mantissa : (unpackMantissa b).toNat < 2 ^ 52 := (unpackMantissa b).isLt
  rcases unpack_finite h with ⟨rfl, rfl⟩ | ⟨some, -, rfl, rfl⟩
  · exact ⟨by omega, Int.le_refl _, .inr rfl⟩
  · have stored : (unpackExponent b).toNat ≠ 0 := fun zero => some (BitVec.eq_of_toNat_eq zero)
    exact ⟨by omega, by omega, .inl (by omega)⟩

/-! ### Rounding -/

theorem mantissa_repeat (em : ExtendedMantissa) (n : Nat) :
    (n.repeat ExtendedMantissa.shiftRightOne em).mantissa = em.mantissa / 2 ^ n := by
  induction n with
  | zero => simp [Nat.repeat]
  | succ n ih =>
    rw [Nat.repeat, ExtendedMantissa.shiftRightOne, ih, Nat.div_div_eq_div_mul, Nat.pow_succ]

theorem repeat_exact (m n k : Nat) :
    n.repeat ExtendedMantissa.shiftRightOne ⟨2 ^ (n + k) * m, false, false⟩ = ⟨2 ^ k * m, false, false⟩ := by
  induction n generalizing k with
  | zero => simp [Nat.repeat]
  | succ n ih =>
    have next := ih (k + 1)
    rw [show n + (k + 1) = n + 1 + k by omega] at next
    rw [Nat.repeat, next, ExtendedMantissa.shiftRightOne, Nat.pow_succ, Nat.mul_right_comm]
    simp

theorem le_roundedMantissa (em : ExtendedMantissa) : em.mantissa ≤ em.roundedMantissa := by
  unfold ExtendedMantissa.roundedMantissa
  cases em.accuracy with
  | exact => exact Nat.le_refl _
  | inexact o => cases o <;> simp [Accuracy.roundToNearestEven]

theorem mantissa_ofMantissaAndAccuracy (m : Nat) (a : Accuracy) :
    (ExtendedMantissa.ofMantissaAndAccuracy m a).mantissa = m := by
  cases a with
  | exact => rfl
  | inexact o => cases o <;> rfl

/-- By how much a mantissa is shortened. -/
def surplus (m : Nat) (e : Int) : Nat :=
  (max (m.log2 + 1 + e - 53) (-1074) - e).toNat

theorem shift_eq (m : Nat) (e : Int) (a : Accuracy) :
    shiftToTargetExponent spec m e a =
      ((surplus m e).repeat ExtendedMantissa.shiftRightOne (.ofMantissaAndAccuracy m a), e + surplus m e) :=
  rfl

/-- Rounding keeps something of a mantissa that is not too small, and it does not keep too much. -/
theorem shortened_bounds {m : Nat} {e : Int} (positive : 0 < m) (large : -1074 ≤ m.log2 + e) :
    0 < m / 2 ^ surplus m e ∧ m / 2 ^ surplus m e < 2 ^ 53 ∧ -1074 ≤ e + surplus m e := by
  have least : 2 ^ m.log2 ≤ m := Nat.log2_self_le (Nat.ne_of_gt positive)
  have most : m < 2 ^ (m.log2 + 1) := Nat.lt_log2_self
  have short : surplus m e ≤ m.log2 := by
    unfold surplus
    omega
  have long : m.log2 + 1 ≤ surplus m e + 53 := by
    unfold surplus
    omega
  refine ⟨?_, ?_, ?_⟩
  · apply Nat.div_pos _ (Nat.two_pow_pos _)
    exact Nat.le_trans (Nat.pow_le_pow_right (by decide) short) least
  · apply Nat.div_lt_of_lt_mul
    rw [← Nat.pow_add]
    exact Nat.lt_of_lt_of_le most (Nat.pow_le_pow_right (by decide) long)
  · unfold surplus
    omega

/-- What is not too small does not become zero. -/
theorem round_finite {s : Sign} {m : Nat} {e : Int} (positive : 0 < m) (large : -1074 ≤ m.log2 + e)
    (a : Accuracy) :
    ∃ n f, ∃ present : 0 < n, roundWithAccuracy spec s m e a = .finite s n f present ∧ n < 2 ^ 53 ∧ -1074 ≤ f := by
  obtain ⟨kept, -, low⟩ := shortened_bounds positive large
  unfold roundWithAccuracy
  rw [shift_eq]
  dsimp only
  generalize first : (surplus m e).repeat ExtendedMantissa.shiftRightOne (.ofMantissaAndAccuracy m a) = em
  have same : em.mantissa = m / 2 ^ surplus m e := by
    rw [← first, mantissa_repeat, mantissa_ofMantissaAndAccuracy]
  have some : 0 < em.roundedMantissa := Nat.lt_of_lt_of_le (same ▸ kept) (le_roundedMantissa em)
  obtain ⟨present, small, lower⟩ := shortened_bounds (e := e + surplus m e) some (by omega)
  rw [shift_eq]
  rw [← mantissa_ofMantissaAndAccuracy em.roundedMantissa .exact, ← mantissa_repeat] at present small
  exact ⟨_, _, present, dif_neg (Nat.ne_of_gt present), small, lower⟩

theorem log2_mul_pow {m : Nat} (positive : 0 < m) (n : Nat) : (2 ^ n * m).log2 = n + m.log2 := by
  have some : 0 < 2 ^ n := Nat.two_pow_pos n
  refine (Nat.log2_eq_iff (Nat.ne_of_gt (Nat.mul_pos some positive))).mpr ⟨?_, ?_⟩
  · rw [Nat.pow_add]
    exact Nat.mul_le_mul_left _ (Nat.log2_self_le (Nat.ne_of_gt positive))
  · rw [Nat.add_assoc, Nat.pow_add]
    exact Nat.mul_lt_mul_of_pos_left Nat.lt_log2_self some

theorem surplus_of_fits {m : Nat} {e : Int} (positive : 0 < m) (fits : Fits m e) : surplus m e = 0 := by
  have short : m.log2 ≤ 52 := Nat.le_of_lt_succ ((Nat.log2_lt (Nat.ne_of_gt positive)).mpr fits.small)
  have low := fits.low
  unfold surplus
  omega

/-- A mantissa that is too long by zeros only loses these. -/
theorem surplus_of_longer {m : Nat} {e : Int} (positive : 0 < m) (fits : Fits m e) (zeros : Nat) :
    surplus (2 ^ zeros * m) (-zeros + e) = zeros := by
  have short : m.log2 ≤ 52 := Nat.le_of_lt_succ ((Nat.log2_lt (Nat.ne_of_gt positive)).mpr fits.small)
  have low := fits.low
  have full : m.log2 = 52 ∨ e = -1074 := fits.whole.imp_left fun large => log2_of_lt large fits.small
  unfold surplus
  rw [log2_mul_pow positive]
  omega

/-- What has zeros for all that it is too long by is rounded to itself. -/
theorem round_exact {s : Sign} {m : Nat} {e : Int} (positive : 0 < m) (fits : Fits m e) (zeros : Nat) :
    roundWithAccuracy spec s (2 ^ zeros * m) (-zeros + e) .exact = .finite s m e positive := by
  unfold roundWithAccuracy
  rw [shift_eq, surplus_of_longer positive fits]
  dsimp only [ExtendedMantissa.ofMantissaAndAccuracy]
  have exact := repeat_exact m zeros 0
  rw [Nat.add_zero, Nat.pow_zero, Nat.one_mul] at exact
  rw [exact]
  have rounded : ExtendedMantissa.roundedMantissa ⟨m, false, false⟩ = m := rfl
  have same : -(zeros : Int) + e + zeros = e := by omega
  rw [rounded, same, shift_eq, surplus_of_fits positive fits]
  dsimp only [Nat.repeat, ExtendedMantissa.ofMantissaAndAccuracy]
  exact (dif_neg (Nat.ne_of_gt positive)).trans (finite_congr (Int.add_zero e) positive)

/-! ### Zero and one -/

/-- The parts of a double. -/
abbrev parts (x : Float) : UnpackedFloat :=
  x.toModel.unpack

theorem pack_parts (x : Float) : Float.ofModel (.pack (parts x)) = x := by
  obtain ⟨⟨bits, valid⟩⟩ := x
  apply congrArg Float.ofModel
  rw [Float.Model.pack, Float.Model.mk.injEq]
  exact congrArg UInt64.ofBitVec (pack_unpack valid)

theorem parts_injective {x y : Float} (h : parts x = parts y) : x = y := by
  rw [← pack_parts x, h, pack_parts]

theorem parts_zero : parts 0.0 = .zero .positive := rfl

theorem parts_negZero : parts (-0.0) = .zero .negative := rfl

theorem parts_one : parts 1.0 = .finite .positive (2 ^ 52) (-52) (by decide) := rfl

theorem add_eq (x y : Float) : x + y = .ofModel (.pack (UnpackedFloat.add spec (parts x) (parts y))) := rfl

theorem mul_eq (x y : Float) : x * y = .ofModel (.pack (UnpackedFloat.mul spec (parts x) (parts y))) := rfl

/-- Negative zero is neutral for sums. -/
theorem negZero_add (x : Float) : -0.0 + x = x := by
  have same : UnpackedFloat.add spec (.zero .negative) (parts x) = parts x := by
    cases parts x with
    | zero s => cases s <;> rfl
    | notANumber | infinity | finite => rfl
  rw [add_eq, parts_negZero, same, pack_parts]

/-- Zero is neutral but for negative zero. -/
theorem zero_add {x : Float} (other : x ≠ -0.0) : 0.0 + x = x := by
  have same : UnpackedFloat.add spec (.zero .positive) (parts x) = parts x := by
    cases inner : parts x with
    | zero s =>
      cases s with
      | positive => rfl
      | negative => exact absurd (parts_injective (inner.trans parts_negZero.symm)) other
    | notANumber | infinity | finite => rfl
  rw [add_eq, parts_zero, same, pack_parts]

theorem mul_finite {s t : Sign} {m n : Nat} {e f : Int} (positive : 0 < m) (positive' : 0 < n) :
    UnpackedFloat.mul spec (.finite s m e positive) (.finite t n f positive') =
      roundWithAccuracy spec (s * t) (m * n) (e + f) .exact := rfl

theorem positive_mul (s : Sign) : Sign.positive * s = s := by
  cases s <;> rfl

/-- One is neutral for products. -/
theorem one_mul (x : Float) : 1.0 * x = x := by
  have same : UnpackedFloat.mul spec (parts 1.0) (parts x) = parts x := by
    rw [parts_one]
    cases inner : parts x with
    | notANumber => rfl
    | infinity s => exact congrArg UnpackedFloat.infinity (positive_mul s)
    | zero s => exact congrArg UnpackedFloat.zero (positive_mul s)
    | finite s m e positive =>
      have fits := fits_of_unpack inner
      rw [mul_finite, positive_mul]
      exact round_exact positive fits 52
  rw [mul_eq, same, pack_parts]

theorem mul_comm_parts (u v : UnpackedFloat) : UnpackedFloat.mul spec u v = UnpackedFloat.mul spec v u := by
  have signs : ∀ s t : Sign, s * t = t * s := by
    intro s t
    cases s <;> cases t <;> rfl
  cases u with
  | notANumber => cases v <;> rfl
  | infinity s =>
    cases v with
    | infinity t | finite t => exact congrArg UnpackedFloat.infinity (signs s t)
    | notANumber | zero => rfl
  | zero s =>
    cases v with
    | zero t | finite t => exact congrArg UnpackedFloat.zero (signs s t)
    | notANumber | infinity => rfl
  | finite s m e positive =>
    cases v with
    | notANumber => rfl
    | infinity t => exact congrArg UnpackedFloat.infinity (signs s t)
    | zero t => exact congrArg UnpackedFloat.zero (signs s t)
    | finite t n f positive' =>
      rw [mul_finite, mul_finite, signs, Nat.mul_comm, Int.add_comm]

theorem mul_one (x : Float) : x * 1.0 = x := by
  rw [mul_eq, mul_comm_parts, ← mul_eq, one_mul]

/-! ### Integers -/

theorem pack_finite_ne_zero {s t : Sign} {m : Nat} {e : Int} (positive : 0 < m) (small : m < 2 ^ 53)
    (low : -1074 ≤ e) : UnpackedFloat.pack spec (.finite s m e positive) ≠ packedZero spec t := by
  intro zero
  have exponent := congrArg unpackExponent zero
  have mantissa := congrArg unpackMantissa zero
  have biased : (e + spec.exponentBias + spec.mantissaBitsWithoutImplicit).toNat = (e + 1075).toNat := by
    show (e + (1023 : Nat) + (52 : Nat)).toNat = _
    omega
  unfold UnpackedFloat.pack at exponent mantissa
  simp only [biased, packedZero, packedInfinity] at exponent mantissa
  split at exponent
  · simp at exponent
  next finite =>
    have below : ¬2 ^ 11 ≤ (e + 1075).toNat + 1 := finite
    split at exponent
    · rw [unpackExponent_packComponents, unpackExponent_packComponents] at exponent
      have none : (e + 1075).toNat % 2 ^ 11 = 0 := congrArg BitVec.toNat exponent
      omega
    next short =>
      have less : m < 2 ^ 52 := by
        refine Nat.lt_of_not_le fun large => short ?_
        rw [log2_of_lt large small]
        rfl
      rw [if_neg finite, if_neg short, unpackMantissa_packComponents, unpackMantissa_packComponents] at mantissa
      have none : m % 2 ^ 52 = 0 := congrArg BitVec.toNat mantissa
      omega

/-- A double that is zero, of either sign. -/
def IsZero (x : Float) : Prop :=
  ∃ s, parts x = .zero s

theorem not_isZero_pack {u : UnpackedFloat} (h : ∀ s, UnpackedFloat.pack spec u ≠ packedZero spec s) :
    ¬IsZero (.ofModel (.pack u)) := by
  rintro ⟨s, zero⟩
  apply h s
  have same := pack_unpack (b := UnpackedFloat.pack spec u) Float.Model.UnpackedFloat.valid_pack
  have unpacked : unpack spec (UnpackedFloat.pack spec u) = .zero s := zero
  rw [unpacked] at same
  exact same.symm

theorem not_isZero_round {s : Sign} {m : Nat} {e : Int} (positive : 0 < m) (large : -1074 ≤ m.log2 + e)
    (a : Accuracy) : ¬IsZero (.ofModel (.pack (roundWithAccuracy spec s m e a))) := by
  obtain ⟨n, f, present, same, small, low⟩ := round_finite (s := s) positive large a
  rw [same]
  exact not_isZero_pack fun t => pack_finite_ne_zero present small low

theorem not_isZero_normalize {n : Nat} (positive : 0 < n) :
    ¬IsZero (.ofModel (.pack (UnpackedFloat.normalize spec n 0 .positive))) := by
  have order : compare (n : Int) 0 = .gt := Int.compare_eq_gt.mpr (by omega)
  unfold UnpackedFloat.normalize
  rw [order]
  dsimp only
  rw [Int.toNat_natCast]
  unfold Float.Model.UnpackedFloat.round
  dsimp only [decreaseExponent]
  have bounded : (0 - spec.targetExponent (Float.Model.totalExponent n 0)).toNat ≤ 1074 := by
    show (0 - max ((n.log2 : Int) + 1 + 0 - 53) (-1074)).toNat ≤ 1074
    omega
  apply not_isZero_round
  · exact Nat.lt_of_lt_of_le positive (Nat.le_shiftLeft ..)
  · omega

theorem not_isZero_ofNat (n : Nat) : ¬IsZero (Float.ofNat (n + 1)) := by
  show ¬IsZero (Float.ofScientific (n + 1) false 0)
  unfold Float.ofScientific
  split
  next small =>
    have word : (n + 1).toUInt64.toNat = n + 1 := Nat.mod_eq_of_lt (by omega)
    show ¬IsZero ((n + 1).toUInt64.toFloat * 1.0)
    rw [mul_one]
    show ¬IsZero (.ofModel (.pack (UnpackedFloat.normalize spec (n + 1).toUInt64.toNat 0 .positive)))
    rw [word]
    exact not_isZero_normalize (Nat.succ_pos n)
  next large =>
    show ¬IsZero (.ofModel (.pack (ofScientific spec (n + 1) 0)))
    unfold ofScientific
    have low : ¬((0 : Int) < -((2 ^ spec.exponentBits : Int) + (n + 1).log2)) := by
      have power : (0 : Int) ≤ 2 ^ spec.exponentBits := by decide
      omega
    rw [dif_neg (Nat.succ_ne_zero n), if_neg (by decide), if_neg low, if_pos (Int.le_refl 0),
      mul_finite]
    refine not_isZero_round (Nat.mul_pos ?_ (by decide)) ?_ _
    · exact Nat.lt_of_lt_of_le (Nat.succ_pos n) (Nat.le_shiftLeft ..)
    · have bits : spec.mantissaBits = 53 := rfl
      rw [bits]
      omega

theorem not_isZero_neg {x : Float} (h : ¬IsZero x) : ¬IsZero (-x) := by
  have negated : -x = .ofModel (.pack (parts x).neg) := rfl
  rw [negated]
  cases inner : parts x with
  | zero s => exact absurd ⟨s, inner⟩ h
  | notANumber => exact not_isZero_pack fun t => by cases t <;> decide
  | infinity s => exact not_isZero_pack fun t => by cases s <;> cases t <;> decide
  | finite s m e positive =>
    have fits := fits_of_unpack inner
    exact not_isZero_pack fun t => pack_finite_ne_zero positive fits.small fits.low

/-- No integer is rounded to negative zero. -/
theorem round_ne_negZero (n : Int64) : Number.round n ≠ -0.0 := by
  have negative : IsZero (-0.0) := ⟨_, parts_negZero⟩
  unfold Number.round
  cases n.toInt with
  | ofNat n =>
    cases n with
    | zero => decide +kernel
    | succ n =>
      rintro (same : Float.ofNat (n + 1) = -0.0)
      rw [← same] at negative
      exact not_isZero_ofNat n negative
  | negSucc n =>
    rintro (same : -Float.ofNat (n + 1) = -0.0)
    rw [← same] at negative
    exact not_isZero_neg (not_isZero_ofNat n) negative

end StackLisp.Double
