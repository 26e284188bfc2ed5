import Elementwise.Proofs.Integer.Exact
import Elementwise.Proofs.Rounding

/-!
# Doubles that are natural numbers

Arithmetic on doubles takes words apart, computes with mantissas and exponents, rounds bit by bit
and puts a word together again. Here all of that is brought down to natural numbers. `Exactly x u`
says that the double `x` is the number `u`; products, sums and conversions are then products and
sums of numbers that are rounded once (`Exactly.mul`, `Exactly.add`, `Exactly.ofNat`), and the
rounding is `nearest`.

`Double.IsNearest` says what the double nearest to a number is, by what words stand for. What
`nearest` gives is that double (`Exactly.isNearest`): no double lies between the two neighbours that
a number of more than 53 bits can be rounded to.
-/

namespace Elementwise

open Float.Model Float.Model.UnpackedFloat

/-- The exponent of the least doubles. -/
theorem minExponent_binary64 : Format.binary64.minExponent = -1074 :=
  rfl

/-- The bits of a mantissa, with the one that is not written. -/
theorem mantissaBits_binary64 : Format.binary64.mantissaBits = 53 :=
  rfl

/-- What is added to an exponent in a word. -/
theorem exponentBias_binary64 : Format.binary64.exponentBias = 1023 :=
  rfl

/-! ## Rounding a mantissa -/

/-- The bits that are shifted out of a mantissa, as far as rounding needs them. -/
theorem shiftRight_exact (m k : ℕ) :
    ExtendedMantissa.ofMantissaAndAccuracy m .exact >>> k =
      ⟨m / 2 ^ k, decide (2 ^ k ≤ 2 * (m % 2 ^ k)),
        decide (m % 2 ^ k ≠ 0 ∧ 2 * (m % 2 ^ k) ≠ 2 ^ k)⟩ := by
  change k.repeat ExtendedMantissa.shiftRightOne _ = _
  induction k with
  | zero => simp [Nat.repeat, ExtendedMantissa.ofMantissaAndAccuracy, Nat.mod_one]
  | succ k ih =>
      have hdiv : m / 2 ^ (k + 1) = m / 2 ^ k / 2 := by
        rw [Nat.pow_succ, Nat.div_div_eq_div_mul]
      have hmod : m % 2 ^ (k + 1) = m % 2 ^ k + 2 ^ k * (m / 2 ^ k % 2) := by
        rw [Nat.pow_succ, Nat.mod_mul]
      have hlt := Nat.mod_lt m (Nat.two_pow_pos k)
      have hpow : 2 ^ (k + 1) = 2 * 2 ^ k := Nat.pow_succ'
      rw [Nat.repeat, ih, ExtendedMantissa.shiftRightOne, hdiv, hmod, hpow]
      rcases Nat.mod_two_eq_zero_or_one (m / 2 ^ k) with hbit | hbit
      · rw [hbit, Nat.mul_zero, Nat.add_zero]
        congr 1
        · exact (decide_eq_false (by omega)).symm
        · rw [← Bool.decide_or]
          exact decide_eq_decide.mpr (by omega)
      · rw [hbit, Nat.mul_one]
        congr 1
        · exact (decide_eq_true (by omega)).symm
        · rw [← Bool.decide_or]
          exact decide_eq_decide.mpr (by omega)

/-- The bits that are shifted out of an exact mantissa round it, from halfway to the even one. -/
theorem roundedMantissa_shiftRight (m k : ℕ) :
    (ExtendedMantissa.ofMantissaAndAccuracy m .exact >>> k).roundedMantissa = halfEven k m := by
  have hlt := Nat.mod_lt m (Nat.two_pow_pos k)
  rw [shiftRight_exact, halfEven]
  unfold carry
  rcases Nat.lt_trichotomy (2 * (m % 2 ^ k)) (2 ^ k) with hbelow | hhalf | habove
  · rw [if_pos (.inl hbelow), decide_eq_false (Nat.not_le.mpr hbelow)]
    cases decide (m % 2 ^ k ≠ 0 ∧ 2 * (m % 2 ^ k) ≠ 2 ^ k) <;> rfl
  · rw [decide_eq_true hhalf.ge, decide_eq_false (by omega)]
    change m / 2 ^ k + m / 2 ^ k % 2 = _
    split <;> omega
  · rw [if_neg (by omega), decide_eq_true habove.le, decide_eq_true (by omega)]
    rfl

/-! ## Natural numbers among unpacked doubles -/

section Value

variable {m n : ℕ} {e : ℤ} (h : (m : ℚ) * 2 ^ e = n)

include h

/-- A mantissa with its exponent is a natural number if zeros are to be added at its end, or if the
bits to be removed from there are zeros. -/
theorem value_cases : (∃ j : ℕ, e = j ∧ n = m * 2 ^ j) ∨ ∃ j : ℕ, e = -j ∧ m = n * 2 ^ j := by
  obtain ⟨j, rfl | rfl⟩ := e.eq_nat_or_neg
  · rw [zpow_natCast] at h
    exact .inl ⟨j, rfl, by exact_mod_cast h.symm⟩
  · rw [zpow_neg, zpow_natCast, ← div_eq_mul_inv, div_eq_iff (by positivity)] at h
    exact .inr ⟨j, rfl, by exact_mod_cast h⟩

/-- A mantissa other than zero does not stand for zero. -/
theorem ne_zero_of_value (hm : m ≠ 0) : n ≠ 0 := by
  rintro rfl
  rw [Nat.cast_zero, mul_eq_zero, Nat.cast_eq_zero] at h
  exact h.elim hm (zpow_ne_zero e two_ne_zero)

/-- The place of the first bit. -/
theorem log2_of_value (hm : m ≠ 0) : (n.log2 : ℤ) = m.log2 + e := by
  obtain ⟨j, rfl, rfl⟩ | ⟨j, rfl, rfl⟩ := value_cases h
  · rw [log2_mul_two_pow hm]
    omega
  · rw [log2_mul_two_pow (left_ne_zero_of_mul hm)]
    omega

/-- A number is rounded as its mantissa. -/
theorem nearest_of_value : (nearest m : ℚ) * 2 ^ e = nearest n := by
  obtain ⟨j, rfl, rfl⟩ | ⟨j, rfl, rfl⟩ := value_cases h
  · rw [nearest_mul_two_pow, zpow_natCast]
    push_cast
    rfl
  · rw [nearest_mul_two_pow, zpow_neg, zpow_natCast]
    push_cast
    field_simp

end Value

/-- The natural numbers of 53 bits among unpacked doubles: zero, and mantissas of exactly 53 bits
with their exponents. -/
inductive Denotes : UnpackedFloat → ℕ → Prop
  | zero : Denotes (.zero .positive) 0
  | finite {m u : ℕ} {e : ℤ} (hpos : 0 < m) (hlow : 2 ^ 52 ≤ m) (hhigh : m < 2 ^ 53)
      (hvalue : (m : ℚ) * 2 ^ e = u) : Denotes (.finite .positive m e hpos) u

/-- Bits beyond 53 are shifted out, if the number is at least one. -/
theorem shiftToTargetExponent_exact {m : ℕ} {e : ℤ} (hm : 2 ^ 52 ≤ m) (he : 0 ≤ m.log2 + e) :
    shiftToTargetExponent Format.binary64 m e .exact =
      (ExtendedMantissa.ofMantissaAndAccuracy m .exact >>> excess m, e + excess m) := by
  have hlog : 52 ≤ m.log2 := (Nat.le_log2 (by omega)).mpr hm
  have hamount : (Format.binary64.targetExponent (totalExponent m e) - e).toNat = excess m := by
    rw [Format.targetExponent, totalExponent, minExponent_binary64, mantissaBits_binary64, excess]
    omega
  rw [shiftToTargetExponent, shiftToExponent, hamount]

/-- A mantissa of at least 53 bits is rounded to the nearest number. -/
theorem roundWithAccuracy_denotes {m n : ℕ} {e : ℤ} (hm : 2 ^ 52 ≤ m) (h : (m : ℚ) * 2 ^ e = n) :
    Denotes (roundWithAccuracy Format.binary64 .positive m e .exact) (nearest n) := by
  have hlog := log2_of_value h (by omega)
  have hvalue := nearest_of_value h
  obtain ⟨hlow, hhigh⟩ := halfEven_excess_mem hm
  have hcut : excess m = m.log2 - 52 := rfl
  rw [nearest, Nat.cast_mul, Nat.cast_pow, Nat.cast_ofNat] at hvalue
  rw [roundWithAccuracy, shiftToTargetExponent_exact hm (by omega)]
  dsimp only
  rw [roundedMantissa_shiftRight]
  generalize halfEven (excess m) m = q at *
  -- the second shift is for a mantissa that was rounded up to 54 bits
  obtain ⟨hlow', hhigh'⟩ := div_excess_mem hlow
  have hlogm : 52 ≤ m.log2 := (Nat.le_log2 (by omega)).mpr hm
  have hlogq : 52 ≤ q.log2 := (Nat.le_log2 (by omega)).mpr hlow
  have hne : q / 2 ^ excess q ≠ 0 := by omega
  have hexact : q / 2 ^ excess q * 2 ^ excess q = q :=
    Nat.div_mul_cancel (nearest_eq_self_iff.mp (nearest_of_le hhigh))
  rw [shiftToTargetExponent_exact hlow (by omega), shiftRight_exact, dif_neg hne]
  refine .finite _ hlow' hhigh' ?_
  rw [← hvalue, zpow_add₀ two_ne_zero, zpow_add₀ two_ne_zero, zpow_natCast, zpow_natCast]
  have hexact' : ((q / 2 ^ excess q : ℕ) : ℚ) * 2 ^ excess q = q := by exact_mod_cast hexact
  linear_combination (2 ^ e * 2 ^ excess m : ℚ) * hexact'

/-- A mantissa of any size is rounded to the nearest number. -/
theorem round_denotes {m n : ℕ} {e : ℤ} (hm : m ≠ 0) (h : (m : ℚ) * 2 ^ e = n) :
    Denotes (UnpackedFloat.round Format.binary64 .positive m e) (nearest n) := by
  have hlog := log2_of_value h hm
  have hamount : (e - Format.binary64.targetExponent (totalExponent m e)).toNat = 52 - m.log2 := by
    rw [Format.targetExponent, totalExponent, minExponent_binary64, mantissaBits_binary64]
    omega
  rw [UnpackedFloat.round, decreaseExponent, hamount, Nat.shiftLeft_eq]
  refine roundWithAccuracy_denotes ?_ ?_
  · rw [← Nat.le_log2 (Nat.mul_ne_zero hm (Nat.two_pow_pos _).ne'), log2_mul_two_pow hm]
    omega
  · rw [← h, Nat.cast_mul, Nat.cast_pow, Nat.cast_ofNat, zpow_sub₀ two_ne_zero, zpow_natCast]
    field_simp

/-- So is a mantissa whose sign is still to be found. -/
theorem normalize_denotes {m n : ℕ} {e : ℤ} (hm : m ≠ 0) (h : (m : ℚ) * 2 ^ e = n) :
    Denotes (UnpackedFloat.normalize Format.binary64 m e .positive) (nearest n) := by
  have hcompare : compare (m : ℤ) 0 = .gt := compare_gt_iff_gt.mpr (by omega)
  rw [UnpackedFloat.normalize, hcompare]
  exact round_denotes hm h

/-- What is denoted has 53 bits. -/
theorem Denotes.nearest_eq {f : UnpackedFloat} {u : ℕ} (h : Denotes f u) : nearest u = u := by
  cases h with
  | zero => rfl
  | finite hpos hlow hhigh hvalue =>
      have hnearest := nearest_of_value hvalue
      rw [nearest_of_lt hhigh, hvalue] at hnearest
      exact_mod_cast hnearest.symm

/-! ## Words -/

/-- The fields of a word side by side. -/
theorem toNat_packComponents (x : BitVec 11) (y : BitVec 52) :
    (packComponents Format.binary64 .positive x y).toNat = x.toNat * 2 ^ 52 + y.toNat := by
  rw [packComponents, Sign.toBitVec, BitVec.toNat_append, ← Nat.shiftLeft_add_eq_or_of_lt y.isLt,
    BitVec.toNat_append, ← Nat.shiftLeft_add_eq_or_of_lt x.isLt, Nat.shiftLeft_eq]
  simp

/-- The sign of a word that is packed without one. -/
theorem unpackSign_packComponents (x : BitVec 11) (y : BitVec 52) :
    unpackSign (packComponents Format.binary64 .positive x y) = 0#1 := by
  have hx := x.isLt
  have hy := y.isLt
  refine BitVec.eq_of_toNat_eq ?_
  rw [unpackSign, BitVec.toNat_cast, BitVec.extractLsb_toNat, toNat_packComponents,
    Nat.shiftRight_eq_div_pow]
  change (x.toNat * 2 ^ 52 + y.toNat) / 2 ^ 63 % 2 ^ 1 = 0
  omega

section Word

variable {m u : ℕ} {e : ℤ} (hlow : 2 ^ 52 ≤ m) (hhigh : m < 2 ^ 53)
  (hvalue : (m : ℚ) * 2 ^ e = u) (hu : u < 2 ^ 1024)

include hlow hhigh hvalue hu

/-- The exponents of natural numbers that are not too large. -/
theorem exponent_bounds : -52 ≤ e ∧ e ≤ 971 := by
  have hm : m.log2 = 52 := (Nat.log2_eq_iff (by omega)).mpr ⟨hlow, hhigh⟩
  have hlog := log2_of_value hvalue (by omega)
  have := (Nat.log2_lt (ne_zero_of_value hvalue (by omega))).mpr hu
  omega

/-- A natural number other than zero is packed with all of its bits. -/
theorem pack_finite (hpos : 0 < m) :
    UnpackedFloat.pack Format.binary64 (.finite .positive m e hpos) =
      packComponents Format.binary64 .positive (BitVec.ofNat 11 (e + 1075).toNat)
        (BitVec.ofNat 52 m) := by
  obtain ⟨hleast, hgreatest⟩ := exponent_bounds hlow hhigh hvalue hu
  have hlog : m.log2 + 1 = Format.binary64.mantissaBits :=
    congrArg (· + 1) ((Nat.log2_eq_iff (by omega)).mpr ⟨hlow, hhigh⟩)
  have hbias : e + Format.binary64.exponentBias + (52 : ℕ) = e + 1075 := by
    rw [exponentBias_binary64]
    omega
  rw [UnpackedFloat.pack]
  dsimp only
  rw [hbias, if_neg (by omega), if_pos hlog]

/-- That word as a number. -/
theorem toNat_pack (hpos : 0 < m) :
    (UnpackedFloat.pack Format.binary64 (.finite .positive m e hpos)).toNat =
      (e + 1075).toNat * 2 ^ 52 + (m - 2 ^ 52) := by
  obtain ⟨hleast, hgreatest⟩ := exponent_bounds hlow hhigh hvalue hu
  rw [pack_finite hlow hhigh hvalue hu, toNat_packComponents, BitVec.toNat_ofNat,
    BitVec.toNat_ofNat]
  omega

/-- What is packed can be unpacked. -/
theorem unpack_pack_finite (hpos : 0 < m) :
    UnpackedFloat.unpack Format.binary64
      (UnpackedFloat.pack Format.binary64 (.finite .positive m e hpos)) =
        .finite .positive m e hpos := by
  obtain ⟨hleast, hgreatest⟩ := exponent_bounds hlow hhigh hvalue hu
  rw [pack_finite hlow hhigh hvalue hu, UnpackedFloat.unpack]
  have hexponent : (BitVec.ofNat 11 (e + 1075).toNat).toNat = (e + 1075).toNat := by
    rw [BitVec.toNat_ofNat]
    omega
  have hones : BitVec.ofNat 11 (e + 1075).toNat ≠ -1#11 := by
    intro h
    have := congrArg BitVec.toNat h
    rw [hexponent, show (-1#11).toNat = 2047 from rfl] at this
    omega
  have hzero : BitVec.ofNat 11 (e + 1075).toNat ≠ 0#11 := by
    intro h
    have := congrArg BitVec.toNat h
    rw [hexponent, show (0#11).toNat = 0 from rfl] at this
    omega
  have hmantissa : (1#1 ++ BitVec.ofNat 52 m).toNat = m := by
    rw [BitVec.toNat_append, ← Nat.shiftLeft_add_eq_or_of_lt (BitVec.isLt _), BitVec.toNat_ofNat]
    simp only [Nat.shiftLeft_eq, BitVec.toNat_ofNat]
    omega
  simp only [unpackMantissa_packComponents, unpackExponent_packComponents,
    unpackSign_packComponents, if_neg hones, if_neg hzero, hexponent, hmantissa]
  congr 1
  rw [exponentBias_binary64]
  omega

/-- What the word of a natural number stands for. -/
theorem reading_of_toNat {w : Double} (hw : w.toNat = (e + 1075).toNat * 2 ^ 52 + (m - 2 ^ 52)) :
    Precision.double.reading w = .finite false m e := by
  obtain ⟨hleast, hgreatest⟩ := exponent_bounds hlow hhigh hvalue hu
  have hfraction : Precision.double.fraction w = m - 2 ^ 52 := by
    change w.toNat % 2 ^ 52 = _
    omega
  have hfield : Precision.double.exponentField w = (e + 1075).toNat := by
    change w.toNat / 2 ^ 52 % 2 ^ 11 = _
    omega
  have hsign : Precision.double.isNegative w = false := by
    change BitVec.msb w = false
    rw [BitVec.msb_eq_false_iff_two_mul_lt]
    change 2 * w.toNat < 2 ^ 64
    omega
  have hfinite : Precision.double.isFinite w = true := by
    rw [Precision.isFinite, hfield, bne_iff_ne]
    change (e + 1075).toNat ≠ 2 ^ 11 - 1
    omega
  have hpow : Nat.pow 2 Precision.double.fractionBits = 2 ^ 52 := rfl
  have hexponent : Precision.double.leastExponent = -1074 := rfl
  have hmantissa : 2 ^ 52 + (m - 2 ^ 52) = m := by omega
  have hshift : -1074 + (((e + 1075).toNat : ℤ) - 1) = e := by omega
  rw [Precision.reading, hfinite, hfield, hfraction, hsign, if_neg (by decide), if_neg (by omega),
    hpow, hexponent, hmantissa, hshift]

end Word

/-! ## Arithmetic -/

/-- A double that is a natural number. -/
structure Exactly (x : Float) (u : ℕ) : Prop where
  lt : u < 2 ^ 1024
  exists_denotes : ∃ f, Denotes f u ∧ x = .ofModel (.pack f)

/-- A natural number that is not too large is unpacked as it was packed. -/
theorem Denotes.unpack_pack {f : UnpackedFloat} {u : ℕ} (h : Denotes f u) (hu : u < 2 ^ 1024) :
    (Float.Model.pack f).unpack = f := by
  cases h with
  | zero => rfl
  | finite hpos hlow hhigh hvalue => exact unpack_pack_finite hlow hhigh hvalue hu hpos

/-- A product is that of the mantissas, with the sum of the exponents. -/
theorem mul_finite {m m' : ℕ} {e e' : ℤ} (hpos : 0 < m) (hpos' : 0 < m') :
    UnpackedFloat.mul Format.binary64 (.finite .positive m e hpos) (.finite .positive m' e' hpos') =
      roundWithAccuracy Format.binary64 .positive (m * m') (e + e') .exact :=
  rfl

/-- Products are exact and then rounded. -/
theorem mul_denotes {f g : UnpackedFloat} {a b : ℕ} (hf : Denotes f a) (hg : Denotes g b) :
    Denotes (UnpackedFloat.mul Format.binary64 f g) (nearest (a * b)) := by
  cases hf with
  | zero =>
      rw [Nat.zero_mul]
      cases hg <;> exact .zero
  | @finite m _ e hpos hlow hhigh hvalue =>
      cases hg with
      | zero =>
          rw [Nat.mul_zero]
          exact .zero
      | @finite m' _ e' hpos' hlow' hhigh' hvalue' =>
          rw [mul_finite]
          refine roundWithAccuracy_denotes (Nat.le_trans hlow (Nat.le_mul_of_pos_right m hpos')) ?_
          rw [Nat.cast_mul, Nat.cast_mul, ← hvalue, ← hvalue', zpow_add₀ two_ne_zero]
          ring

/-- A mantissa with more zeros at its end has a smaller exponent. -/
theorem shiftLeft_value {m : ℕ} {e k : ℤ} (h : k ≤ e) :
    ((m <<< (e - k).toNat : ℕ) : ℚ) * 2 ^ k = m * 2 ^ e := by
  have hsplit : e = ((e - k).toNat : ℤ) + k := by omega
  conv_rhs => rw [hsplit, zpow_add₀ two_ne_zero, zpow_natCast]
  rw [Nat.shiftLeft_eq, Nat.cast_mul, Nat.cast_pow, Nat.cast_ofNat, mul_assoc]

/-- Sums are exact and then rounded. -/
theorem add_denotes {f g : UnpackedFloat} {a b : ℕ} (hf : Denotes f a) (hg : Denotes g b) :
    Denotes (UnpackedFloat.add Format.binary64 f g) (nearest (a + b)) := by
  cases hf with
  | zero =>
      rw [Nat.zero_add, hg.nearest_eq]
      cases hg with
      | zero => exact .zero
      | finite hpos hlow hhigh hvalue => exact .finite hpos hlow hhigh hvalue
  | @finite m _ e hpos hlow hhigh hvalue =>
      cases hg with
      | zero =>
          rw [Nat.add_zero, Denotes.nearest_eq (.finite hpos hlow hhigh hvalue)]
          exact .finite hpos hlow hhigh hvalue
      | @finite m' _ e' hpos' hlow' hhigh' hvalue' =>
          change Denotes (UnpackedFloat.normalize Format.binary64
            (((m <<< (e - min e e').toNat : ℕ) : ℤ) +
            ((m' <<< (e' - min e e').toNat : ℕ) : ℤ)) (min e e') .positive) _
          rw [← Nat.cast_add]
          refine normalize_denotes ?_ ?_
          · rw [Nat.shiftLeft_eq]
            exact (Nat.add_pos_left (Nat.mul_pos hpos (Nat.two_pow_pos _)) _).ne'
          · rw [Nat.cast_add, Nat.cast_add, add_mul, shiftLeft_value (min_le_left e e'),
              shiftLeft_value (min_le_right e e'), hvalue, hvalue']

namespace Exactly

variable {x y : Float} {a b : ℕ}

/-- The product of natural numbers is the nearest double, if it is not too large. -/
theorem mul (hx : Exactly x a) (hy : Exactly y b) (hlt : nearest (a * b) < 2 ^ 1024) :
    Exactly (x * y) (nearest (a * b)) := by
  obtain ⟨ha, f, hf, rfl⟩ := hx
  obtain ⟨hb, g, hg, rfl⟩ := hy
  refine ⟨hlt, _, mul_denotes hf hg, ?_⟩
  change Float.ofModel (.pack (UnpackedFloat.mul _ (Float.Model.pack f).unpack
    (Float.Model.pack g).unpack)) = _
  rw [hf.unpack_pack ha, hg.unpack_pack hb]

/-- So is their sum. -/
theorem add (hx : Exactly x a) (hy : Exactly y b) (hlt : nearest (a + b) < 2 ^ 1024) :
    Exactly (x + y) (nearest (a + b)) := by
  obtain ⟨ha, f, hf, rfl⟩ := hx
  obtain ⟨hb, g, hg, rfl⟩ := hy
  refine ⟨hlt, _, add_denotes hf hg, ?_⟩
  change Float.ofModel (.pack (UnpackedFloat.add _ (Float.Model.pack f).unpack
    (Float.Model.pack g).unpack)) = _
  rw [hf.unpack_pack ha, hg.unpack_pack hb]

/-- Zero is exact. -/
theorem zero : Exactly 0.0 0 :=
  ⟨pow_pos two_pos 1024, _, .zero, by decide +kernel⟩

/-- A natural number that is a double is the nearest one to itself. -/
theorem nearest_eq (hx : Exactly x a) : nearest a = a := by
  obtain ⟨-, f, hf, -⟩ := hx
  exact hf.nearest_eq

/-- One is exact. -/
theorem one : Exactly (Float.ofBits 0x3FF0000000000000) 1 := by
  refine ⟨one_lt_pow₀ one_lt_two (by decide), .finite .positive (2 ^ 52) (-52) (by decide), ?_,
    by decide +kernel⟩
  refine .finite _ (Nat.le_refl _) (by decide) ?_
  norm_num

/-- Words that fit into a mantissa are converted as they are. -/
theorem toFloat {n : ℕ} (hn : n < 2 ^ 53) : Exactly n.toUInt64.toFloat n := by
  have hn' : n.toUInt64.toNat = n := Nat.mod_eq_of_lt (Nat.lt_trans hn (by decide))
  refine ⟨Nat.lt_trans hn (pow_lt_pow_right₀ one_lt_two (by decide)),
    UnpackedFloat.normalize Format.binary64 n 0 .positive, ?_, ?_⟩
  · rcases Nat.eq_zero_or_pos n with rfl | hpos
    · exact .zero
    · have hdenotes := normalize_denotes (m := n) (n := n) (e := 0) hpos.ne' (by simp)
      rwa [nearest_of_lt hn] at hdenotes
  · change Float.ofModel (.pack (UnpackedFloat.normalize Format.binary64 (n.toUInt64.toNat : ℤ) 0
      .positive)) = _
    rw [hn']

/-- Natural numbers are rounded. -/
theorem ofNat {n : ℕ} (hlt : nearest n < 2 ^ 1024) : Exactly (Float.ofNat n) (nearest n) := by
  change Exactly (Float.ofScientific n false 0) _
  rw [Float.ofScientific]
  split
  · rename_i h
    have hmul := (toFloat h.1).mul one (by rwa [Nat.mul_one])
    rwa [Nat.mul_one] at hmul
  · rename_i h
    have hlarge : 2 ^ 53 ≤ n := Nat.le_of_not_lt fun hn => h ⟨hn, by decide⟩
    have hne : n ≠ 0 := by omega
    refine ⟨hlt, UnpackedFloat.ofScientific Format.binary64 n 0, ?_, rfl⟩
    have hbits : (0 : ℤ) < 2 ^ Format.binary64.exponentBits := by decide
    rw [UnpackedFloat.ofScientific, dif_neg hne, if_neg (by omega), if_neg (by omega),
      if_pos (Int.le_refl 0), mul_finite, mantissaBits_binary64]
    refine roundWithAccuracy_denotes ?_ ?_
    · rw [Nat.shiftLeft_eq, Int.toNat_zero, Nat.pow_zero, Nat.mul_one]
      omega
    · rw [Nat.shiftLeft_eq, Int.toNat_zero, Nat.pow_zero, Nat.mul_one]
      push_cast
      norm_num [mul_assoc]

/-- Small natural numbers are converted as they are. -/
theorem ofNat_of_le {n : ℕ} (hn : n ≤ 2 ^ 53) : Exactly (Float.ofNat n) n := by
  have hlt : nearest n < 2 ^ 1024 := by
    rw [nearest_of_le hn]
    exact Nat.lt_of_le_of_lt hn (pow_lt_pow_right₀ one_lt_two (by decide))
  have hexact := ofNat hlt
  rwa [nearest_of_le hn] at hexact

end Exactly

/-! ## The nearest double -/

/-- A mantissa of 53 bits and an exponent can be told from the number. -/
theorem value_unique {m m' : ℕ} {e e' : ℤ} (hlow : 2 ^ 52 ≤ m) (hhigh : m < 2 ^ 53)
    (hlow' : 2 ^ 52 ≤ m') (hhigh' : m' < 2 ^ 53) (h : (m : ℚ) * 2 ^ e = m' * 2 ^ e') :
    m = m' ∧ e = e' := by
  have hratio : (m : ℚ) * 2 ^ (e - e') = m' := by
    rw [zpow_sub₀ two_ne_zero, ← mul_div_assoc, h, mul_div_assoc,
      div_self (zpow_ne_zero e' two_ne_zero), mul_one]
  have hdouble : ∀ {a j : ℕ}, 2 ^ 52 ≤ a → a * 2 ^ j < 2 ^ 53 → j = 0 := by
    intro a j ha hlt
    rcases j with _ | j
    · rfl
    · have := Nat.mul_le_mul ha (Nat.two_pow_pos j)
      rw [Nat.pow_succ, ← Nat.mul_assoc] at hlt
      omega
  obtain ⟨j, he, rfl⟩ | ⟨j, he, rfl⟩ := value_cases hratio
  · obtain rfl := hdouble hlow hhigh'
    exact ⟨by simp, by simpa [sub_eq_zero] using he⟩
  · obtain rfl := hdouble hlow' hhigh
    exact ⟨by simp, by simpa [sub_eq_zero] using he⟩

namespace Exactly

variable {x y : Float} {u : ℕ}

/-- The word of a natural number other than zero, and what it stands for. -/
theorem exists_word (hx : Exactly x u) (hu : u ≠ 0) :
    ∃ (m : ℕ) (e : ℤ), 2 ^ 52 ≤ m ∧ m < 2 ^ 53 ∧ (m : ℚ) * 2 ^ e = u ∧
      (Double.ofFloat x).toNat = (e + 1075).toNat * 2 ^ 52 + (m - 2 ^ 52) ∧
      Precision.double.reading (Double.ofFloat x) = .finite false m e := by
  obtain ⟨hlt, f, hf, rfl⟩ := hx
  cases hf with
  | zero => exact absurd rfl hu
  | @finite m _ e hpos hlow hhigh hvalue =>
      have hword : (Double.ofFloat (.ofModel (.pack (.finite .positive m e hpos)))).toNat =
          (e + 1075).toNat * 2 ^ 52 + (m - 2 ^ 52) := toNat_pack hlow hhigh hvalue hlt hpos
      exact ⟨m, e, hlow, hhigh, hvalue, hword, reading_of_toNat hlow hhigh hvalue hlt hword⟩

/-- The word of 53 bits with zeros behind them. -/
theorem toNat_word {q k : ℕ} (hx : Exactly x (q * 2 ^ k)) (hlow : 2 ^ 52 ≤ q) (hhigh : q < 2 ^ 53) :
    (Double.ofFloat x).toNat = (k + 1075) * 2 ^ 52 + (q - 2 ^ 52) := by
  have hne : q * 2 ^ k ≠ 0 := (Nat.mul_pos (by omega) (Nat.two_pow_pos k)).ne'
  obtain ⟨m, e, hlow', hhigh', hvalue, hword, -⟩ := hx.exists_word hne
  rw [Nat.cast_mul, Nat.cast_pow, Nat.cast_ofNat, ← zpow_natCast] at hvalue
  obtain ⟨rfl, rfl⟩ := value_unique hlow' hhigh' hlow hhigh hvalue
  exact hword

/-- Two doubles that are the same number are the same. -/
theorem unique (hx : Exactly x u) (hy : Exactly y u) : x = y := by
  obtain ⟨-, f, hf, rfl⟩ := hx
  obtain ⟨-, g, hg, rfl⟩ := hy
  cases hf with
  | zero =>
      cases hg with
      | zero => rfl
      | finite hpos _ _ hvalue => exact absurd rfl (ne_zero_of_value hvalue hpos.ne')
  | finite hpos hlow hhigh hvalue =>
      cases hg with
      | zero => exact absurd rfl (ne_zero_of_value hvalue hpos.ne')
      | finite hpos' hlow' hhigh' hvalue' =>
          obtain ⟨rfl, rfl⟩ := value_unique hlow hhigh hlow' hhigh' (hvalue.trans hvalue'.symm)
          rfl

end Exactly

/-- Doubles have mantissas of at most 53 bits. -/
theorem mantissa_lt {w : Double} {negative : Bool} {m : ℕ} {e : ℤ}
    (h : Precision.double.reading w = .finite negative m e) : m < 2 ^ 53 := by
  have hfraction : Precision.double.fraction w < 2 ^ 52 := Nat.mod_lt _ (by decide)
  have hpow : Nat.pow 2 Precision.double.fractionBits = 2 ^ 52 := rfl
  unfold Precision.reading at h
  dsimp only at h
  split at h
  · split at h <;> cases h
  · split at h
    · obtain ⟨-, rfl, -⟩ := Reading.finite.inj h
      omega
    · obtain ⟨-, rfl, -⟩ := Reading.finite.inj h
      omega

/-- No number of 53 bits is between two neighbours of 53 bits with zeros behind them. -/
theorem not_between {m q k : ℕ} {e : ℤ} (hm : m < 2 ^ 53) (hq : 2 ^ 52 ≤ q) :
    (m : ℚ) * 2 ^ e ≤ q * 2 ^ k ∨ ((q : ℚ) + 1) * 2 ^ k ≤ m * 2 ^ e := by
  have hpos : (0 : ℚ) < 2 ^ k := by positivity
  by_cases he : (k : ℤ) ≤ e
  · obtain ⟨j, rfl⟩ := Int.le.dest he
    rw [add_comm, zpow_add₀ two_ne_zero, zpow_natCast, zpow_natCast, ← mul_assoc,
      mul_le_mul_iff_left₀ hpos, mul_le_mul_iff_left₀ hpos]
    have hcases : m * 2 ^ j ≤ q ∨ q + 1 ≤ m * 2 ^ j := by omega
    exact_mod_cast hcases
  · left
    have hexponent : (2 : ℚ) ^ e ≤ 2 ^ ((k : ℤ) - 1) := zpow_le_zpow_right₀ one_le_two (by omega)
    have hhalf : (2 : ℚ) ^ ((k : ℤ) - 1) = 2 ^ k / 2 := by
      rw [zpow_sub_one₀ two_ne_zero, zpow_natCast, div_eq_mul_inv]
    calc (m : ℚ) * 2 ^ e ≤ 2 ^ 53 * (2 ^ k / 2) := by
          rw [← hhalf]
          exact mul_le_mul (by exact_mod_cast hm.le) hexponent (by positivity) (by positivity)
      _ = 2 ^ 52 * 2 ^ k := by ring
      _ ≤ q * 2 ^ k := by
          rw [mul_le_mul_iff_left₀ hpos]
          exact_mod_cast hq

/-- The double nearest to a number: none is nearer, and if another one is as near, the mantissa is
even. -/
def Double.IsNearest (x : Double) (q : ℚ) : Prop :=
  ∃ (negative : Bool) (m : ℕ) (e : ℤ) (v : ℚ), Precision.double.reading x = .finite negative m e ∧
    (Precision.double.reading x).number? = some v ∧
    ∀ y w, (Precision.double.reading y).number? = some w →
      |v - q| ≤ |w - q| ∧ (|w - q| = |v - q| → w = v ∨ m % 2 = 0)

/-- A mantissa is even if the number is an even multiple of a power of two, up to 53 bits. -/
theorem mantissa_even {m q k : ℕ} {e : ℤ} (hlow : 2 ^ 52 ≤ m) (hhigh : m < 2 ^ 53)
    (hlow' : 2 ^ 52 ≤ q)
    (hhigh' : q ≤ 2 ^ 53) (h : (m : ℚ) * 2 ^ e = q * 2 ^ k) (heven : q % 2 = 0) : m % 2 = 0 := by
  rcases Nat.lt_or_eq_of_le hhigh' with hlt | rfl
  · rw [← zpow_natCast] at h
    obtain ⟨rfl, -⟩ := value_unique hlow hhigh hlow' hlt h
    exact heven
  · have hsame : (m : ℚ) * 2 ^ e = (2 ^ 52 : ℕ) * 2 ^ ((k + 1 : ℕ) : ℤ) := by
      rw [h, zpow_natCast]
      push_cast
      ring
    obtain ⟨rfl, -⟩ := value_unique hlow hhigh (Nat.le_refl _) (by decide) hsame
    decide

/-- The nearer end `v` of an interval from `a` to `a + d` around `b` is as near as all that is not
inside. -/
theorem distance_of_neighbour {a d b v w : ℚ} (hlow : a ≤ b) (hhigh : b < a + d)
    (hv : v = a ∨ v = a + d) (hupper : 2 * v ≤ 2 * b + d) (hlower : 2 * b ≤ 2 * v + d)
    (hw : w ≤ a ∨ a + d ≤ w) :
    |v - b| ≤ |w - b| ∧ (|w - b| = |v - b| → w = v ∨ 2 * v = 2 * b + d ∨ 2 * b = 2 * v + d) := by
  rcases hw with hw | hw
  · rw [abs_of_nonpos (by linarith : w - b ≤ 0)]
    rcases hv with rfl | rfl
    · rw [abs_of_nonpos (by linarith : v - b ≤ 0)]
      exact ⟨by linarith, fun h => .inl (by linarith)⟩
    · rw [abs_of_nonneg (by linarith : 0 ≤ a + d - b)]
      exact ⟨by linarith, fun h => .inr (.inl (by linarith))⟩
  · rw [abs_of_nonneg (by linarith : 0 ≤ w - b)]
    rcases hv with rfl | rfl
    · rw [abs_of_nonpos (by linarith : v - b ≤ 0)]
      exact ⟨by linarith, fun h => .inr (.inr (by linarith))⟩
    · rw [abs_of_nonneg (by linarith : 0 ≤ a + d - b)]
      exact ⟨by linarith, fun h => .inl (by linarith)⟩

/-- Rounding goes to the nearer one of the two neighbours, and from halfway to an even one. -/
theorem nearest_distance {n : ℕ} {w : ℚ}
    (hw : w ≤ (n / 2 ^ excess n : ℕ) * 2 ^ excess n ∨
      ((n / 2 ^ excess n : ℕ) + 1) * 2 ^ excess n ≤ w) :
    |(nearest n : ℚ) - n| ≤ |w - n| ∧
      (|w - n| = |(nearest n : ℚ) - n| → w = nearest n ∨ halfEven (excess n) n % 2 = 0) := by
  have hsplit := Nat.div_add_mod' n (2 ^ excess n)
  have hmod := Nat.mod_lt n (Nat.two_pow_pos (excess n))
  have hcarry := carry_le (n / 2 ^ excess n) (n % 2 ^ excess n) (2 ^ excess n)
  obtain ⟨hupper, hlower, hodd⟩ := halfEven_error (excess n) n
  rw [← nearest] at hupper hlower hodd
  have hvalue : nearest n = n / 2 ^ excess n * 2 ^ excess n ∨
      nearest n = n / 2 ^ excess n * 2 ^ excess n + 2 ^ excess n := by
    rw [nearest, halfEven, Nat.add_mul]
    rcases Nat.le_one_iff_eq_zero_or_eq_one.mp hcarry with h | h
    · exact .inl (by rw [h, Nat.zero_mul, Nat.add_zero])
    · exact .inr (by rw [h, Nat.one_mul])
  rw [add_one_mul] at hw
  have hw' : w ≤ ((n / 2 ^ excess n * 2 ^ excess n : ℕ) : ℚ) ∨
      ((n / 2 ^ excess n * 2 ^ excess n : ℕ) : ℚ) + ((2 ^ excess n : ℕ) : ℚ) ≤ w := by
    rw [Nat.cast_mul, Nat.cast_pow, Nat.cast_ofNat]
    exact hw
  generalize n / 2 ^ excess n * 2 ^ excess n = a at hsplit hvalue hw'
  generalize 2 ^ excess n = d at *
  obtain ⟨hle, htie⟩ := distance_of_neighbour (b := (n : ℚ)) (v := (nearest n : ℚ))
    (by exact_mod_cast (by omega : a ≤ n)) (by exact_mod_cast (by omega : n < a + d))
    (by exact_mod_cast hvalue) (by exact_mod_cast hupper) (by exact_mod_cast hlower) hw'
  refine ⟨hle, fun h => (htie h).imp_right fun hhalf => ?_⟩
  have hhalf' : 2 * nearest n = 2 * n + d ∨ 2 * n = 2 * nearest n + d := by exact_mod_cast hhalf
  omega

/-- What a number is rounded to is the nearest double. -/
theorem Exactly.isNearest {x : Float} {n : ℕ} (hn : n ≠ 0) (hx : Exactly x (nearest n)) :
    (Double.ofFloat x).IsNearest n := by
  by_cases hsmall : n < 2 ^ 53
  · rw [nearest_of_lt hsmall] at hx
    obtain ⟨m, e, hlow, hhigh, hvalue, -, hreading⟩ := hx.exists_word hn
    refine ⟨false, m, e, n, hreading, by simp [hreading, Reading.number?, hvalue], fun y w _ => ?_⟩
    rw [sub_self, abs_zero]
    exact ⟨abs_nonneg _, fun h => .inl (sub_eq_zero.mp (abs_eq_zero.mp h))⟩
  · obtain ⟨hlow', hhigh'⟩ := halfEven_excess_mem (n := n) (by omega)
    obtain ⟨hq, -⟩ := div_excess_mem (n := n) (by omega)
    have hpos := Nat.two_pow_pos (excess n)
    have hne : nearest n ≠ 0 := (Nat.mul_pos (by omega) hpos).ne'
    obtain ⟨m, e, hlow, hhigh, hvalue, -, hreading⟩ := hx.exists_word hne
    have hmultiple : (m : ℚ) * 2 ^ e = halfEven (excess n) n * 2 ^ excess n := by
      rw [hvalue, nearest]
      push_cast
      rfl
    refine ⟨false, m, e, nearest n, hreading, by simp [hreading, Reading.number?, hvalue],
      fun y w hw => ?_⟩
    have hoff : w ≤ (n / 2 ^ excess n : ℕ) * 2 ^ excess n ∨
        ((n / 2 ^ excess n : ℕ) + 1) * 2 ^ excess n ≤ w := by
      rcases hy : Precision.double.reading y with _ | _ | ⟨negative, m', e'⟩
      · rw [hy] at hw
        cases hw
      · rw [hy] at hw
        cases hw
      · rw [hy, Reading.number?, Option.some.injEq] at hw
        cases negative with
        | false =>
            rw [← hw, if_neg (by decide), one_mul]
            exact not_between (mantissa_lt hy) hq
        | true =>
            have hnegative : w ≤ 0 := by
              rw [← hw, if_pos rfl, neg_one_mul, neg_mul]
              exact neg_nonpos.mpr (by positivity)
            exact .inl (hnegative.trans (by positivity))
    obtain ⟨hle, htie⟩ := nearest_distance hoff
    exact ⟨hle, fun h => (htie h).imp_right (mantissa_even hlow hhigh hlow' hhigh' hmultiple)⟩

end Elementwise
