import Elementwise.Proofs.Integer.Exact

/-!
# What integer operations return

The results of powers, divisions and shifts, said of the integers that the words stand for. A result
is read through `IntType.toInt`. With checking on it is the exact one or an overflow, and with
checking off it is the exact one reduced into the range of the type (`IntType.reduce`).

* `IntType.power_exact`: the loop of powers never overflows on the way to a power in range.
* `IntType.division_exact`: quotients and remainders agree with each other, and the corrections that
  make floors of truncated quotients stay in range.
* `IntType.shift_exact`: shifts to the left overflow exactly if a bit is lost, and without checking
  every count is taken modulo the width, negative counts too.
-/

namespace Elementwise.IntType

variable (t : IntType)

/-! ## Reduction -/

/-- The integer in range that is congruent to `n` modulo `2 ^ bits`. -/
def reduce (n : ℤ) : ℤ :=
  t.least + (n - t.least) % 2 ^ t.bits

/-- The range has as many integers as there are words. -/
theorem fits_iff_lt {n : ℤ} : t.Fits n ↔ t.least ≤ n ∧ n < t.least + 2 ^ t.bits := by
  obtain ⟨half, -, hpow, hrange⟩ := t.bounds
  unfold Fits
  omega

/-- The reduction is the only integer in range that is congruent. -/
theorem eq_reduce_iff {m n : ℤ} : m = t.reduce n ↔ t.Fits m ∧ m ≡ n [ZMOD 2 ^ t.bits] := by
  have hpos : (0 : ℤ) < 2 ^ t.bits := by positivity
  rw [fits_iff_lt]
  constructor
  · rintro rfl
    have hnonneg := Int.emod_nonneg (n - t.least) hpos.ne'
    have hlt := Int.emod_lt_of_pos (n - t.least) hpos
    refine ⟨⟨by unfold reduce; omega, by unfold reduce; omega⟩, ?_⟩
    have hmod : (n - t.least) % 2 ^ t.bits ≡ n - t.least [ZMOD 2 ^ t.bits] := Int.mod_modEq _ _
    simpa [reduce] using hmod.add_left t.least
  · rintro ⟨⟨hlow, hhigh⟩, hmod⟩
    have hoffset : (n - t.least) % 2 ^ t.bits = m - t.least := by
      rw [← (hmod.sub_right t.least : (m - t.least) % _ = _)]
      exact Int.emod_eq_of_lt (by omega) (by omega)
    rw [reduce, hoffset]
    omega

variable {t}

/-- The word of an integer stands for its reduction. -/
theorem toInt_wrap_eq_reduce (n : ℤ) : t.toInt (t.wrap n) = t.reduce n :=
  t.eq_reduce_iff.mpr ⟨t.fits_toInt _, t.toInt_wrap_emod n⟩

/-- A checked result that settles is exact, and only results out of range overflow. -/
theorem map_settle_true (n : ℤ) :
    (t.settle true n).map t.toInt = if t.Fits n then .ok n else .error .overflow := by
  by_cases h : t.Fits n
  · rw [if_pos h, t.settle_of_fits h, Except.map, t.toInt_wrap h]
  · rw [if_neg h, t.settle_of_not_fits h]
    rfl

/-- An unchecked result is reduced. -/
theorem map_settle_false (n : ℤ) : (t.settle false n).map t.toInt = .ok (t.reduce n) := by
  rw [settle_false, Except.map, toInt_wrap_eq_reduce]

/-! ## Powers -/

/-- **Powers are exact.** A negative exponent is a fault. With checking on, a power is exact if it
is in range, and an overflow otherwise; with checking off it is reduced. -/
theorem power_exact (a b : t.Word) :
    (t.power true a b).map t.toInt =
        (if t.toInt b < 0 then .error .negativeExponent
        else if t.Fits (t.toInt a ^ (t.toInt b).toNat) then .ok (t.toInt a ^ (t.toInt b).toNat)
        else .error .overflow) ∧
      (t.power false a b).map t.toInt =
        if t.toInt b < 0 then .error .negativeExponent
        else .ok (t.reduce (t.toInt a ^ (t.toInt b).toNat)) := by
  by_cases hb : t.toInt b < 0
  · simp only [power, if_pos hb]
    exact ⟨rfl, rfl⟩
  · rw [if_neg hb, if_neg hb, power_eq_settle true a (Int.not_lt.mp hb),
      power_eq_settle false a (Int.not_lt.mp hb)]
    exact ⟨map_settle_true _, map_settle_false _⟩

/-- The least byte is `-2` to the power of 7, though the next square is not in range. -/
example : (power ⟨true, .w8⟩ true (-2#8) 7#8).map (toInt ⟨true, .w8⟩) = .ok (-128) := by decide

/-! ## Division -/

/-- A quotient that is cut toward zero is the truncated quotient of integers. -/
theorem towardZero_div (m n : ℤ) : towardZero (m / n) = m.tdiv n := by
  -- Signs go to the outside on both ways, so that only natural numbers are left to divide.
  have hnat : ∀ i j : ℕ, towardZero ((i : ℤ) / (j : ℤ)) = (i : ℤ).tdiv j := by
    intro i j
    have hnonneg : (0 : ℚ) ≤ ((i : ℤ) : ℚ) / ((j : ℤ) : ℚ) := by positivity
    rw [towardZero, if_pos hnonneg, Int.floor_div_cast_of_nonneg (Int.natCast_nonneg j),
      Int.floor_intCast, Int.tdiv_eq_ediv_of_nonneg (Int.natCast_nonneg i)]
  obtain ⟨i, rfl | rfl⟩ := m.eq_nat_or_neg <;> obtain ⟨j, rfl | rfl⟩ := n.eq_nat_or_neg
  · exact hnat i j
  · rw [Int.cast_neg, div_neg, towardZero_neg, hnat, Int.tdiv_neg]
  · rw [Int.cast_neg, neg_div, towardZero_neg, hnat, Int.neg_tdiv]
  · rw [Int.cast_neg, Int.cast_neg, neg_div_neg_eq, hnat, Int.neg_tdiv, Int.tdiv_neg, Int.neg_neg]

/-- The floor of a quotient is the floored quotient of integers. -/
theorem floor_div (m n : ℤ) : ⌊(m / n : ℚ)⌋ = m.fdiv n := by
  have hpos : ∀ m n : ℤ, 0 ≤ n → ⌊(m / n : ℚ)⌋ = m.fdiv n := by
    intro m n hn
    rw [Int.floor_div_cast_of_nonneg hn, Int.floor_intCast, Int.fdiv_eq_ediv_of_nonneg m hn]
  rcases Int.le_total 0 n with hn | hn
  · exact hpos m n hn
  · rw [← neg_div_neg_eq, ← Int.cast_neg, ← Int.cast_neg, hpos _ _ (by omega), Int.neg_fdiv_neg]

/-- A remainder of the floor is zero or has the sign of the divisor, and is nearer to zero. -/
theorem fmod_bounds (m : ℤ) {n : ℤ} (hn : n ≠ 0) :
    (m.fmod n = 0 ∨ (m.fmod n).sign = n.sign) ∧ |m.fmod n| < |n| := by
  have hpos : ∀ m n : ℤ, 0 < n →
      (m.fmod n = 0 ∨ (m.fmod n).sign = n.sign) ∧ |m.fmod n| < |n| := by
    intro m n hn
    have hnonneg := Int.fmod_nonneg_of_pos m hn
    have hlt := Int.fmod_lt_of_pos m hn
    refine ⟨?_, by rwa [abs_of_nonneg hnonneg, abs_of_pos hn]⟩
    rcases hnonneg.eq_or_lt with hzero | hless
    · exact .inl hzero.symm
    · exact .inr (by rw [Int.sign_eq_one_of_pos hless, Int.sign_eq_one_of_pos hn])
  rcases Int.lt_or_gt_of_ne hn with hneg | hgt
  · have hflip := hpos (-m) (-n) (by omega)
    rw [Int.neg_fmod_neg, abs_neg, abs_neg, Int.sign_neg, Int.sign_neg] at hflip
    simpa using hflip
  · exact hpos m n hgt

/-- Only the least integer divided by minus one has a quotient out of range. -/
theorem fits_tdiv {m n : ℤ} (hm : t.Fits m) (hn : t.Fits n) (hne : n ≠ 0)
    (hleast : ¬(m = t.least ∧ n = -1)) : t.Fits (m.tdiv n) := by
  obtain ⟨half, hhalf, -, hrange⟩ := t.bounds
  by_cases hunit : 2 ≤ n.natAbs
  · have hquotient := two_mul_natAbs_tdiv_le m hunit
    unfold Fits at *
    rcases hrange with ⟨hleast, hgreatest⟩ | ⟨hleast, hgreatest⟩
    · omega
    · have hnonneg : 0 ≤ m.tdiv n := Int.tdiv_nonneg (by omega) (by omega)
      omega
  · obtain rfl | rfl : n = 1 ∨ n = -1 := by omega
    · rwa [Int.tdiv_one]
    · rw [Int.tdiv_neg, Int.tdiv_one]
      unfold Fits at *
      omega

/-- Floors of quotients are in range where the quotients are. -/
theorem fits_fdiv {m n : ℤ} (hm : t.Fits m) (hn : t.Fits n) (hne : n ≠ 0)
    (hleast : ¬(m = t.least ∧ n = -1)) : t.Fits (m.fdiv n) := by
  rw [fdiv_eq_ite hne]
  by_cases hcorrect : m.tmod n ≠ 0 ∧ decide (m < 0) ≠ decide (n < 0)
  · rw [if_pos hcorrect]
    exact (fits_tdiv_of_signs hm hn (two_le_natAbs_of_tmod hne hcorrect.1) hcorrect.2).2
  · rw [if_neg hcorrect]
    exact fits_tdiv hm hn hne hleast

/-- The negative of the least integer overflows; without checking it is the least integer again. -/
theorem settle_neg_least (checked : Bool) {a : t.Word} (ha : t.toInt a = t.least)
    (hsigned : t.Fits (-1)) :
    t.settle checked (-t.least) = if checked then .error .overflow else .ok a := by
  obtain ⟨half, hhalf, hpow, hrange⟩ := t.bounds
  have hleast : t.least = -half ∧ t.greatest = half - 1 := by
    unfold Fits at hsigned
    omega
  have hout : ¬t.Fits (-t.least) := by
    unfold Fits
    omega
  have hwrap : t.wrap (-t.least) = a := by
    rw [← toInt_inj, toInt_wrap_eq_reduce, ha, eq_comm, eq_reduce_iff]
    refine ⟨ha ▸ t.fits_toInt a, Int.modEq_iff_dvd.mpr ⟨1, ?_⟩⟩
    omega
  rw [t.settle_of_not_fits hout, hwrap]

/-- Division by zero is a fault of all three divisions. -/
theorem division_by_zero (checked : Bool) (a : t.Word) {b : t.Word} (hb : t.toInt b = 0) :
    t.truncDiv checked a b = .error .divisionByZero ∧
      t.floorDiv checked a b = .error .divisionByZero ∧
      t.floorMod a b = .error .divisionByZero := by
  refine ⟨if_pos hb, ?_, if_pos hb⟩
  rw [floorDiv, truncDiv, if_pos hb, error_bind]

/-- The least integer divided by minus one. -/
theorem division_of_least (checked : Bool) {a b : t.Word} (ha : t.toInt a = t.least)
    (hb : t.toInt b = -1) :
    t.truncDiv checked a b = (if checked then .error .overflow else .ok a) ∧
      t.floorDiv checked a b = (if checked then .error .overflow else .ok a) ∧
      (t.floorMod a b).map t.toInt = .ok 0 := by
  have hne : t.toInt b ≠ 0 := by omega
  have hsigned : t.Fits (-1) := hb ▸ t.fits_toInt b
  have hremainder : (t.toInt a).fmod (t.toInt b) = 0 := by
    rw [hb, Int.fmod_eq_zero_of_dvd (Int.neg_dvd.mpr (one_dvd _))]
  have hfloor : (t.toInt a).fdiv (t.toInt b) = -t.least := by
    have hsum := Int.mul_fdiv_add_fmod (t.toInt a) (t.toInt b)
    rw [hremainder, hb, ha] at hsum
    rw [hb, ha]
    omega
  refine ⟨?_, ?_, ?_⟩
  · rw [truncDiv_eq_settle checked a hne, hb, Int.tdiv_neg, Int.tdiv_one, ha]
    exact settle_neg_least checked ha hsigned
  · rw [floorDiv_eq_settle checked a hne, hfloor]
    exact settle_neg_least checked ha hsigned
  · rw [floorMod_eq_settle true a hne, hremainder, map_settle_true]
    exact if_pos (t.fits_truth false)

/-- The quotients and the remainder in all other cases. -/
theorem division_of_fits (checked : Bool) {a b : t.Word} (hb : t.toInt b ≠ 0)
    (hleast : ¬(t.toInt a = t.least ∧ t.toInt b = -1)) :
    ∃ q f r, t.truncDiv checked a b = .ok q ∧ t.floorDiv checked a b = .ok f ∧
      t.floorMod a b = .ok r ∧ t.toInt q = (t.toInt a).tdiv (t.toInt b) ∧
      t.toInt f = (t.toInt a).fdiv (t.toInt b) ∧ t.toInt r = (t.toInt a).fmod (t.toInt b) := by
  have hq := fits_tdiv (t.fits_toInt a) (t.fits_toInt b) hb hleast
  have hf := fits_fdiv (t.fits_toInt a) (t.fits_toInt b) hb hleast
  have hr : t.Fits ((t.toInt a).fmod (t.toInt b)) := fits_fmod (t.fits_toInt b) hb
  refine ⟨_, _, _, ?_, ?_, ?_, t.toInt_wrap hq, t.toInt_wrap hf, t.toInt_wrap hr⟩
  · rw [truncDiv_eq_settle checked a hb, t.settle_of_fits hq]
  · rw [floorDiv_eq_settle checked a hb, t.settle_of_fits hf]
  · rw [floorMod_eq_settle checked a hb, t.settle_of_fits hr]

/-- A truncated quotient that is lowered by one stays in range. -/
theorem fits_sub_one_of_truncDiv {checked : Bool} {a b q : t.Word}
    (hq : t.truncDiv checked a b = .ok q) (hr : (t.toInt a).tmod (t.toInt b) ≠ 0)
    (hsigns : decide (t.toInt a < 0) ≠ decide (t.toInt b < 0)) : t.Fits (t.toInt q - 1) := by
  have hb : t.toInt b ≠ 0 := by
    intro hb
    rw [truncDiv, if_pos hb] at hq
    cases hq
  obtain ⟨hbefore, hafter⟩ := fits_tdiv_of_signs (t.fits_toInt a) (t.fits_toInt b)
    (two_le_natAbs_of_tmod hb hr) hsigns
  rw [truncDiv_eq_settle checked a hb, t.settle_of_fits hbefore] at hq
  rwa [← Except.ok.inj hq, t.toInt_wrap hbefore]

/-- A truncated remainder that is raised by the divisor stays in range. -/
theorem fits_tmod_add {a b : t.Word} (hb : t.toInt b ≠ 0)
    (hr : (t.toInt a).tmod (t.toInt b) ≠ 0)
    (hsigns : decide ((t.toInt a).tmod (t.toInt b) < 0) ≠ decide (t.toInt b < 0)) :
    t.Fits ((t.toInt a).tmod (t.toInt b) + t.toInt b) := by
  have hfits : t.Fits ((t.toInt a).fmod (t.toInt b)) := fits_fmod (t.fits_toInt b) hb
  rwa [fmod_eq_ite hb, if_pos ⟨hr, hsigns⟩] at hfits

/-- **Divisions are consistent.** Zero is no divisor. The least integer divided by minus one
overflows, or is itself without checking, and leaves nothing. In all other cases the quotients are
exact in both modes, and the remainder has the sign of the divisor and completes the floor. The
corrections of quotients and remainders never leave the range. -/
theorem division_exact (a b : t.Word) (checked : Bool) :
    (t.toInt b = 0 →
      t.binary .div checked a b = .error .divisionByZero ∧
        t.binary .floorDiv checked a b = .error .divisionByZero ∧
        t.binary .mod checked a b = .error .divisionByZero) ∧
    (t.toInt b ≠ 0 → ¬(t.toInt a = t.least ∧ t.toInt b = -1) →
      ∃ q f r, t.binary .div checked a b = .ok q ∧ t.binary .floorDiv checked a b = .ok f ∧
        t.binary .mod checked a b = .ok r ∧
        t.toInt q = towardZero (t.toInt a / t.toInt b) ∧
        t.toInt f = ⌊(t.toInt a / t.toInt b : ℚ)⌋ ∧
        t.toInt a = t.toInt f * t.toInt b + t.toInt r ∧
        (t.toInt r = 0 ∨ (t.toInt r).sign = (t.toInt b).sign) ∧ |t.toInt r| < |t.toInt b|) ∧
    (t.toInt a = t.least → t.toInt b = -1 →
      t.binary .div checked a b = (if checked then .error .overflow else .ok a) ∧
        t.binary .floorDiv checked a b = (if checked then .error .overflow else .ok a) ∧
        (t.binary .mod checked a b).map t.toInt = .ok 0) ∧
    (∀ q, t.binary .div checked a b = .ok q → (t.toInt a).tmod (t.toInt b) ≠ 0 →
      decide (t.toInt a < 0) ≠ decide (t.toInt b < 0) → t.Fits (t.toInt q - 1)) ∧
    (t.toInt b ≠ 0 → (t.toInt a).tmod (t.toInt b) ≠ 0 →
      decide ((t.toInt a).tmod (t.toInt b) < 0) ≠ decide (t.toInt b < 0) →
      t.Fits ((t.toInt a).tmod (t.toInt b) + t.toInt b)) := by
  refine ⟨division_by_zero checked a, ?_, division_of_least checked,
    fun q => fits_sub_one_of_truncDiv, fits_tmod_add⟩
  intro hb hleast
  obtain ⟨q, f, r, hdiv, hfloorDiv, hmod, hq, hf, hr⟩ := division_of_fits checked hb hleast
  refine ⟨q, f, r, hdiv, hfloorDiv, hmod, ?_, ?_, ?_, ?_⟩
  · rw [hq, towardZero_div]
  · rw [hf, floor_div]
  · rw [hf, hr, Int.mul_comm, Int.mul_fdiv_add_fmod]
  · rw [hr]
    exact fmod_bounds (t.toInt a) hb

/-- Bytes: `-7` divided by `2` needs both corrections, `-128` divided by `-1` is the overflow, and
nothing is divided by zero. -/
theorem division_exact_bytes :
    let t : IntType := ⟨true, .w8⟩
    t.binary .mod false (-7#8) 0#8 = .error .divisionByZero ∧
      (∃ q f r, t.binary .div true (-7#8) 2#8 = .ok q ∧ t.binary .floorDiv true (-7#8) 2#8 = .ok f ∧
        t.binary .mod true (-7#8) 2#8 = .ok r ∧ t.toInt q = towardZero ((-7 : ℤ) / (2 : ℤ)) ∧
        t.toInt f = ⌊((-7 : ℤ) / (2 : ℤ) : ℚ)⌋ ∧ -7 = t.toInt f * 2 + t.toInt r ∧
        |t.toInt r| < |2| ∧ t.Fits (t.toInt q - 1)) ∧
      t.Fits ((-7 : ℤ).tmod 2 + 2) ∧
      t.binary .div true (-128#8) (-1#8) = .error .overflow ∧
      t.binary .floorDiv false (-128#8) (-1#8) = .ok (-128#8) := by
  intro t
  obtain ⟨-, hother, -, hquotient, hremainder⟩ := division_exact (t := t) (-7#8) 2#8 true
  obtain ⟨q, f, r, hdiv, hfloorDiv, hmod, hq, hf, hsum, -, hless⟩ :=
    hother (by decide) (by decide)
  refine ⟨((division_exact (t := t) (-7#8) 0#8 false).1 rfl).2.2, ?_,
    hremainder (by decide) (by decide) (by decide), ?_, ?_⟩
  · exact ⟨q, f, r, hdiv, hfloorDiv, hmod, hq, hf, hsum, hless,
      hquotient q hdiv (by decide) (by decide)⟩
  · exact ((division_exact (t := t) (-128#8) (-1#8) true).2.2.1 rfl rfl).1
  · exact ((division_exact (t := t) (-128#8) (-1#8) false).2.2.1 rfl rfl).2.1

/-! ## Shifts -/

variable (t) in
/-- The widths are powers of two. -/
theorem exists_bits_eq_two_pow : ∃ k ≤ 6, t.bits = 2 ^ k := by
  rcases t with ⟨_, width⟩
  cases width
  · exact ⟨3, by decide, rfl⟩
  · exact ⟨4, by decide, rfl⟩
  · exact ⟨5, by decide, rfl⟩
  · exact ⟨6, by decide, rfl⟩

/-- The low bits of a count are congruent to it. -/
theorem toNat_lowCount (b : t.Word) : ((t.lowCount b).toNat : ℤ) = t.toInt b % 2 ^ 32 := by
  have hbits : t.bits ≤ 64 := by
    obtain ⟨k, hk, hbits⟩ := t.exists_bits_eq_two_pow
    exact hbits ▸ Nat.pow_le_pow_right (by decide) hk
  -- Widening keeps the count modulo `2 ^ 64`, with copies of the sign or with zeros.
  have hwide : (((if t.isSigned then b.signExtend 64 else b.setWidth 64).toNat : ℕ) : ℤ) =
      t.toInt b % 2 ^ 64 := by
    unfold toInt
    by_cases hs : t.isSigned = true
    · rw [if_pos hs, if_pos hs, ← BitVec.toInt_signExtend_of_le hbits (x := b),
        BitVec.toInt_eq_toNat_bmod]
      have hmod := Int.bmod_emod (x := ((b.signExtend 64).toNat : ℤ)) (m := 2 ^ 64)
      push_cast at hmod ⊢
      rw [hmod]
      refine (Int.emod_eq_of_lt (Int.natCast_nonneg _) ?_).symm
      exact_mod_cast (b.signExtend 64).isLt
    · rw [if_neg hs, if_neg hs, BitVec.toNat_setWidth_of_le hbits]
      refine (Int.emod_eq_of_lt (Int.natCast_nonneg _) ?_).symm
      have hlt : b.toNat < 2 ^ 64 := b.isLt.trans_le (Nat.pow_le_pow_right (by decide) hbits)
      exact_mod_cast hlt
  rw [lowCount, BitVec.toNat_setWidth, Int.natCast_mod, hwide]
  exact Int.emod_emod_of_dvd _ (by decide)

/-- **Counts of any size** are taken modulo the width. -/
theorem shiftCount_eq (b : t.Word) : (t.shiftCount b : ℤ) = t.toInt b % t.bits := by
  obtain ⟨k, hk, hbits⟩ := t.exists_bits_eq_two_pow
  have hmask : t.shiftCount b = (t.lowCount b).toNat % t.bits := by
    rw [shiftCount, hbits, Nat.and_two_pow_sub_one_eq_mod]
  have hdvd : ((t.bits : ℕ) : ℤ) ∣ 2 ^ 32 := by
    rw [hbits]
    exact_mod_cast pow_dvd_pow 2 (hk.trans (by decide))
  rw [hmask, Int.natCast_mod, toNat_lowCount, Int.emod_emod_of_dvd _ hdvd]

/-- A count in range is the count that is used. -/
theorem shiftCount_of_some {b : t.Word} {count : ℕ} (h : t.shiftCount? b = some count) :
    t.shiftCount b = count := by
  obtain ⟨⟨hlow, hhigh⟩, rfl⟩ := shiftCount?_eq_some_iff.mp h
  zify
  rw [shiftCount_eq, Int.emod_eq_of_lt hlow hhigh, Int.toNat_of_nonneg hlow]

/-- With checking on, bits are shifted to the left if the count and the product are in range. -/
theorem map_shiftLeft_true (a b : t.Word) :
    (t.shiftLeft true a b).map t.toInt =
      if (0 ≤ t.toInt b ∧ t.toInt b < t.bits) ∧ t.Fits (t.toInt a * 2 ^ (t.toInt b).toNat)
      then .ok (t.toInt a * 2 ^ (t.toInt b).toNat) else .error .overflow := by
  by_cases hrange : 0 ≤ t.toInt b ∧ t.toInt b < t.bits
  · rw [shiftLeft_eq_settle true a (shiftCount?_eq_some_iff.mpr ⟨hrange, rfl⟩), map_settle_true]
    simp only [hrange, true_and]
  · have hnone : t.shiftCount? b = none := if_neg hrange
    rw [shiftLeft, hnone]
    exact (if_neg fun h => hrange h.1).symm

/-- With checking on, bits are shifted to the right if the count is in range. -/
theorem map_shiftRight_true (a b : t.Word) :
    (t.shiftRight true a b).map t.toInt =
      if 0 ≤ t.toInt b ∧ t.toInt b < t.bits then .ok (t.toInt a / 2 ^ (t.toInt b).toNat)
      else .error .overflow := by
  by_cases hrange : 0 ≤ t.toInt b ∧ t.toInt b < t.bits
  · have hcount : t.shiftCount? b = some (t.toInt b).toNat := if_pos hrange
    rw [shiftRight, hcount, if_pos hrange, Except.map, toInt_shiftBitsRight]
  · have hnone : t.shiftCount? b = none := if_neg hrange
    rw [shiftRight, hnone, if_neg hrange]
    rfl

/-- Without checking, bits are shifted to the left by the count modulo the width. -/
theorem shiftLeft_false (a b : t.Word) :
    t.shiftLeft false a b = .ok (t.shiftBitsLeft a (t.shiftCount b)) := by
  rcases h : t.shiftCount? b with _ | count
  · simp [shiftLeft, h]
  · simp [shiftLeft, h, shiftCount_of_some h]

/-- Without checking, bits are shifted to the right by the count modulo the width. -/
theorem shiftRight_false (a b : t.Word) :
    t.shiftRight false a b = .ok (t.shiftBitsRight a (t.shiftCount b)) := by
  rcases h : t.shiftCount? b with _ | count
  · simp [shiftRight, h]
  · simp [shiftRight, h, shiftCount_of_some h]

/-- The floor of a quotient by a power of two. -/
theorem floor_div_two_pow (m : ℤ) (k : ℕ) : ⌊(m / 2 ^ k : ℚ)⌋ = m / 2 ^ k := by
  have hfloor := Int.floor_div_cast_of_nonneg (n := 2 ^ k) (by positivity) (m : ℚ)
  rw [Int.floor_intCast] at hfloor
  exact_mod_cast hfloor

/-- **Shifts are exact.** With checking on, a shift to the left is an overflow exactly if the count
is not in the range of the bits or the product is not in the range of the type; a shift to the right
is one if the count is not. With checking off, the count is taken modulo the width and the product
is reduced. -/
theorem shift_exact (a b : t.Word) :
    (t.binary .shiftLeft true a b).map t.toInt =
        (if (0 ≤ t.toInt b ∧ t.toInt b < t.bits) ∧ t.Fits (t.toInt a * 2 ^ (t.toInt b).toNat)
          then .ok (t.toInt a * 2 ^ (t.toInt b).toNat) else .error .overflow) ∧
      (t.binary .shiftRight true a b).map t.toInt =
        (if 0 ≤ t.toInt b ∧ t.toInt b < t.bits
          then .ok ⌊(t.toInt a / 2 ^ (t.toInt b).toNat : ℚ)⌋ else .error .overflow) ∧
      (t.binary .shiftLeft false a b).map t.toInt =
        .ok (t.reduce (t.toInt a * 2 ^ (t.toInt b % t.bits).toNat)) ∧
      (t.binary .shiftRight false a b).map t.toInt =
        .ok ⌊(t.toInt a / 2 ^ (t.toInt b % t.bits).toNat : ℚ)⌋ := by
  have hcount : (t.toInt b % t.bits).toNat = t.shiftCount b := by
    rw [← shiftCount_eq, Int.toNat_natCast]
  rw [hcount, floor_div_two_pow, floor_div_two_pow]
  refine ⟨map_shiftLeft_true a b, map_shiftRight_true a b, ?_, ?_⟩
  · show (t.shiftLeft false a b).map t.toInt = _
    rw [shiftLeft_false, shiftBitsLeft_eq_wrap, Except.map, toInt_wrap_eq_reduce]
  · show (t.shiftRight false a b).map t.toInt = _
    rw [shiftRight_false, Except.map, toInt_shiftBitsRight]

/-- A negative count is taken modulo the width too: `-7` counts as `1`. -/
example : (shiftLeft ⟨true, .w8⟩ false 3#8 (-7#8)).map (toInt ⟨true, .w8⟩) = .ok 6 := by decide

end Elementwise.IntType
