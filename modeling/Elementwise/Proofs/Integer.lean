import Mathlib
import Elementwise.Element.Integer
import Elementwise.Proofs.Result

/-!
# Integer operations are exact

The operations on words correct quotients, multiply in a loop and shift bits to and fro. Seen from
the integers that the words stand for, each of them does one thing: it takes the exact result and
settles it, so that the result is in range, an overflow, or reduced (`floorDiv_eq_settle`,
`floorMod_eq_settle`, `power_eq_settle`, `shiftLeft_eq_settle`, `shiftRight_eq_settle`). Nothing on
the way to a result in range leaves the range.
-/

namespace Elementwise.IntType

variable (t : IntType)

/-! ## The range -/

/-- The range is that of numbers with a sign, or that of numbers without one, of the same width. -/
theorem bounds : ∃ half : Int, 128 ≤ half ∧ 2 ^ t.bits = 2 * half ∧
    (t.least = -half ∧ t.greatest = half - 1 ∨ t.least = 0 ∧ t.greatest = 2 * half - 1) := by
  rcases t with ⟨sign, width⟩
  refine ⟨2 ^ (width.bits - 1), ?_, ?_, ?_⟩
  · cases width <;> decide
  · cases width <;> rfl
  · cases sign
    · cases width <;> decide
    · cases width <;> decide

variable {t}

/-- What lies between two integers in range is in range. -/
theorem Fits.between {low high n : Int} (hlow : t.Fits low) (hhigh : t.Fits high) (h₁ : low ≤ n)
    (h₂ : n ≤ high) : t.Fits n :=
  ⟨Int.le_trans hlow.1 h₁, Int.le_trans h₂ hhigh.2⟩

variable (t)

/-- The numbers that truth values are, are in range. -/
theorem fits_truth (b : Bool) : t.Fits (if b then 1 else 0) := by
  obtain ⟨half, hhalf, -, hrange⟩ := t.bounds
  unfold Fits
  cases b
  · simp only [Bool.false_eq_true, if_false]
    omega
  · simp only [if_true]
    omega

/-- Reduction keeps an integer modulo `2 ^ bits`. -/
theorem toInt_wrap_emod (n : Int) : t.toInt (t.wrap n) % 2 ^ t.bits = n % 2 ^ t.bits := by
  have hpow : ((2 ^ t.bits : Nat) : Int) = 2 ^ t.bits := by push_cast; rfl
  unfold toInt wrap
  by_cases hs : t.isSigned = true
  · rw [if_pos hs, BitVec.toInt_ofInt, ← hpow, Int.bmod_emod]
  · have hpos : (0 : Int) < 2 ^ t.bits := by positivity
    rw [if_neg hs, BitVec.toNat_ofInt, hpow, Int.toNat_of_nonneg (Int.emod_nonneg n hpos.ne'),
      Int.emod_emod]

variable {t}

/-- A word stands for an integer exactly if that is in range and reduces to the word. -/
theorem toInt_eq_iff {n : Int} {c : t.Word} : t.toInt c = n ↔ t.Fits n ∧ t.wrap n = c := by
  constructor
  · rintro rfl
    exact ⟨t.fits_toInt c, t.wrap_toInt c⟩
  · rintro ⟨hfits, rfl⟩
    exact t.toInt_wrap hfits

/-- Different words stand for different integers. -/
theorem toInt_inj {a b : t.Word} : t.toInt a = t.toInt b ↔ a = b := by
  constructor
  · intro h
    rw [← t.wrap_toInt a, h, wrap_toInt]
  · exact congrArg t.toInt

/-- The word of a negative integer is the negative word. -/
theorem wrap_neg (n : Int) : t.wrap (-n) = -t.wrap n :=
  BitVec.ofInt_neg

/-! ## Settling -/

@[simp] theorem settle_false (n : Int) : t.settle false n = .ok (t.wrap n) := by
  by_cases h : t.Fits n
  · exact t.settle_of_fits h false
  · simp [t.settle_of_not_fits h]

/-- With checking on there is a word exactly for results in range, and it stands for the result. -/
theorem settle_true_eq_ok_iff {n : Int} {c : t.Word} :
    t.settle true n = .ok c ↔ t.toInt c = n := by
  rw [toInt_eq_iff]
  by_cases h : t.Fits n
  · simp [t.settle_of_fits h, h]
  · simp [t.settle_of_not_fits h, h]

/-- A word that stands for a result settles it. -/
theorem settle_toInt (checked : Bool) (a : t.Word) : t.settle checked (t.toInt a) = .ok a := by
  rw [t.settle_of_fits (t.fits_toInt a), wrap_toInt]

/-- What settles a result is the word it is reduced to. -/
theorem eq_wrap_of_settle {checked : Bool} {n : Int} {c : t.Word}
    (h : t.settle checked n = .ok c) : c = t.wrap n := by
  by_cases hfits : t.Fits n
  · rw [t.settle_of_fits hfits] at h
    exact (Except.ok.inj h).symm
  · rw [t.settle_of_not_fits hfits] at h
    cases checked <;> cases h
    rfl

/-- A result in range settles, and without checking every result does. -/
theorem settle_eq_ok {checked : Bool} {n : Int} (h : checked = true → t.Fits n) :
    t.settle checked n = .ok (t.wrap n) := by
  cases checked with
  | false => exact settle_false n
  | true => exact t.settle_of_fits (h rfl) true

/-- Products can be taken of reduced factors, if nothing is checked or the factors are in range. -/
theorem settle_mul_wrap {checked : Bool} {m n : Int} (hm : checked = true → t.Fits m)
    (hn : checked = true → t.Fits n) :
    t.settle checked (t.toInt (t.wrap m) * t.toInt (t.wrap n)) = t.settle checked (m * n) := by
  cases checked with
  | false =>
      simp only [settle_false, wrap, BitVec.ofInt_mul]
      rw [← wrap, ← wrap, ← wrap, ← wrap, wrap_toInt, wrap_toInt]
  | true => rw [t.toInt_wrap (hm rfl), t.toInt_wrap (hn rfl)]

/-- Truth values settle. -/
theorem settle_truth (checked b : Bool) :
    t.settle checked (if b then 1 else 0) = .ok (t.truth b) :=
  t.settle_of_fits (t.fits_truth b) checked

/-! ## Quotients -/

/-- A quotient by anything but a unit is at most half as far from zero as the dividend. -/
theorem two_mul_natAbs_tdiv_le (a : Int) {b : Int} (hb : 2 ≤ b.natAbs) :
    2 * (a.tdiv b).natAbs ≤ a.natAbs := by
  rw [Int.natAbs_tdiv]
  calc 2 * (a.natAbs / b.natAbs) ≤ b.natAbs * (a.natAbs / b.natAbs) := Nat.mul_le_mul_right _ hb
    _ ≤ a.natAbs := Nat.mul_div_le _ _

/-- A remainder is not zero only if the divisor is not a unit. -/
theorem two_le_natAbs_of_tmod {a b : Int} (hb : b ≠ 0) (hr : a.tmod b ≠ 0) : 2 ≤ b.natAbs := by
  by_contra hsmall
  have hunit : b = 1 ∨ b = -1 := by omega
  rcases hunit with rfl | rfl
  · exact hr (Int.tmod_one a)
  · exact hr (by rw [Int.tmod_neg, Int.tmod_one])

/-- The floor of a quotient is one less than the truncated quotient if there is a remainder and the
signs differ. -/
theorem fdiv_eq_ite {a b : Int} (hb : b ≠ 0) :
    a.fdiv b = if a.tmod b ≠ 0 ∧ decide (a < 0) ≠ decide (b < 0) then a.tdiv b - 1
      else a.tdiv b := by
  have hdvd : b ∣ a ↔ a.tmod b = 0 := Int.dvd_iff_tmod_eq_zero
  rw [Int.fdiv_eq_tdiv]
  by_cases hr : a.tmod b = 0
  · simp [hr, hdvd.mpr hr]
  · have hndvd : ¬b ∣ a := fun h => hr (hdvd.mp h)
    rcases Int.lt_or_gt_of_ne hb with hneg | hpos
    · by_cases ha : 0 ≤ a
      · simp [hr, hndvd, hneg, ha, Int.not_le.mpr hneg]
      · simp [hr, hndvd, hneg, ha, Int.not_le.mpr hneg, Int.sign_eq_neg_one_of_neg hneg,
          Int.not_le.mp ha]
    · by_cases ha : 0 ≤ a
      · simp [hr, hndvd, ha, hpos.le, Int.not_lt.mpr hpos.le, Int.not_lt.mpr ha]
      · simp [hr, hndvd, ha, hpos.le, Int.not_lt.mpr hpos.le, Int.sign_eq_one_of_pos hpos,
          Int.not_le.mp ha]

/-- A remainder that is not zero has the sign of the dividend. -/
theorem tmod_neg_iff {a b : Int} (hr : a.tmod b ≠ 0) : a.tmod b < 0 ↔ a < 0 := by
  constructor
  · intro h
    by_contra ha
    have := Int.tmod_nonneg b (Int.not_lt.mp ha)
    omega
  · intro ha
    have hneg : (-a).tmod b = -a.tmod b := Int.neg_tmod ..
    have := Int.tmod_nonneg b (a := -a) (by omega)
    omega

/-- The remainder of the floor is one divisor more than that of the truncated quotient if it is not
zero and does not have the sign of the divisor. -/
theorem fmod_eq_ite {a b : Int} (hb : b ≠ 0) :
    a.fmod b = if a.tmod b ≠ 0 ∧ decide (a.tmod b < 0) ≠ decide (b < 0) then a.tmod b + b
      else a.tmod b := by
  have hdvd : b ∣ a ↔ a.tmod b = 0 := Int.dvd_iff_tmod_eq_zero
  rw [Int.fmod_eq_tmod]
  by_cases hr : a.tmod b = 0
  · simp [hr, hdvd.mpr hr]
  · have hndvd : ¬b ∣ a := fun h => hr (hdvd.mp h)
    have hsign := tmod_neg_iff hr
    rcases Int.lt_or_gt_of_ne hb with hneg | hpos
    · by_cases ha : 0 ≤ a
      · simp [hr, hndvd, hneg, ha, hsign, Int.not_le.mpr hneg]
      · simp [hr, hndvd, hneg, ha, hsign, Int.not_le.mpr hneg, Int.not_le.mp ha]
        omega
    · by_cases ha : 0 ≤ a
      · simp [hr, hndvd, ha, hsign, hpos.le, Int.not_lt.mpr hpos.le, Int.not_lt.mpr ha]
      · simp [hr, hndvd, ha, hsign, hpos.le, Int.not_lt.mpr hpos.le, Int.not_le.mp ha]

/-- Where a quotient is corrected, it is in range, before and after. -/
theorem fits_tdiv_of_signs {a b : Int} (ha : t.Fits a) (hb : t.Fits b) (hunit : 2 ≤ b.natAbs)
    (hsigns : decide (a < 0) ≠ decide (b < 0)) : t.Fits (a.tdiv b) ∧ t.Fits (a.tdiv b - 1) := by
  obtain ⟨half, hhalf, -, hrange⟩ := t.bounds
  have hquotient := two_mul_natAbs_tdiv_le a hunit
  rw [ne_eq, decide_eq_decide] at hsigns
  unfold Fits at *
  rcases hrange with ⟨hleast, hgreatest⟩ | ⟨hleast, hgreatest⟩
  · omega
  · exact absurd (show a < 0 ↔ b < 0 by omega) hsigns

/-- A remainder with the sign of the divisor is in range. -/
theorem fits_fmod {a b : Int} (hb : t.Fits b) (hne : b ≠ 0) : t.Fits (a.fmod b) := by
  have hzero : t.Fits 0 := t.fits_truth false
  have hless : (a.tmod b).natAbs < b.natAbs := by
    rw [Int.natAbs_tmod]
    exact Nat.mod_lt _ (by omega)
  have hbetween : 0 ≤ a.fmod b ∧ a.fmod b ≤ b ∨ b ≤ a.fmod b ∧ a.fmod b ≤ 0 := by
    rw [fmod_eq_ite hne]
    simp only [ne_eq, decide_eq_decide]
    split
    · omega
    · omega
  rcases hbetween with ⟨h₁, h₂⟩ | ⟨h₁, h₂⟩
  · exact hzero.between hb h₁ h₂
  · exact hb.between hzero h₁ h₂

/-- A quotient toward zero settles the exact one. -/
theorem truncDiv_eq_settle (checked : Bool) (a : t.Word) {b : t.Word} (hb : t.toInt b ≠ 0) :
    t.truncDiv checked a b = t.settle checked ((t.toInt a).tdiv (t.toInt b)) := by
  rw [truncDiv, if_neg hb]

/-- **Floors of quotients.** The corrected quotient settles the exact one. -/
theorem floorDiv_eq_settle (checked : Bool) (a : t.Word) {b : t.Word} (hb : t.toInt b ≠ 0) :
    t.floorDiv checked a b = t.settle checked ((t.toInt a).fdiv (t.toInt b)) := by
  rw [floorDiv, truncDiv_eq_settle checked a hb, fdiv_eq_ite hb]
  by_cases hcorrect : (t.toInt a).tmod (t.toInt b) ≠ 0 ∧
      decide (t.toInt a < 0) ≠ decide (t.toInt b < 0)
  · obtain ⟨hbefore, hafter⟩ := fits_tdiv_of_signs (t.fits_toInt a) (t.fits_toInt b)
      (two_le_natAbs_of_tmod hb hcorrect.1) hcorrect.2
    rw [if_pos hcorrect, t.settle_of_fits hbefore, t.settle_of_fits hafter, ok_bind,
      t.toInt_wrap hbefore]
    exact if_pos hcorrect
  · rw [if_neg hcorrect]
    rcases t.settle checked ((t.toInt a).tdiv (t.toInt b)) with fault | q
    · rfl
    · rw [ok_bind]
      exact if_neg hcorrect

/-- **Remainders.** The corrected remainder settles the exact one. -/
theorem floorMod_eq_settle (checked : Bool) (a : t.Word) {b : t.Word} (hb : t.toInt b ≠ 0) :
    t.floorMod a b = t.settle checked ((t.toInt a).fmod (t.toInt b)) := by
  rw [t.settle_of_fits (fits_fmod (t.fits_toInt b) hb), fmod_eq_ite hb, floorMod, if_neg hb]
  dsimp only
  split
  · rfl
  · rfl

/-! ## Powers -/

/-- Powers with smaller exponents are in range where a power is. -/
theorem fits_pow_of_le {a : Int} {m n : Nat} (ha : t.Fits a) (h : t.Fits (a ^ n)) (hle : m ≤ n) :
    t.Fits (a ^ m) := by
  rcases Nat.eq_or_lt_of_le hle with rfl | hlt
  · exact h
  obtain ⟨half, hhalf, -, hrange⟩ := t.bounds
  -- Below the last power the distance from zero is smaller, so that the sign does not matter.
  have hsmaller : (a ^ m).natAbs < (a ^ n).natAbs ∨ (a ^ m).natAbs ≤ 1 := by
    rw [Int.natAbs_pow, Int.natAbs_pow]
    by_cases hunit : 2 ≤ a.natAbs
    · exact .inl (Nat.pow_lt_pow_right hunit hlt)
    · exact .inr (pow_le_one₀ (Nat.zero_le _) (by omega))
  unfold Fits at *
  rcases hrange with ⟨hleast, hgreatest⟩ | ⟨hleast, hgreatest⟩
  · omega
  · have hnonneg : 0 ≤ a ^ m := Int.pow_nonneg (by omega)
    omega

/-- A power on the way to another settles, or neither does. -/
theorem settle_pow_cases (checked : Bool) {a : Int} (ha : t.Fits a) {m n : Nat} (hle : m ≤ n) :
    (checked = true → t.Fits (a ^ m)) ∧ t.settle checked (a ^ m) = .ok (t.wrap (a ^ m)) ∨
      t.settle checked (a ^ m) = .error .overflow ∧
        t.settle checked (a ^ n) = .error .overflow := by
  by_cases hsettles : checked = true → t.Fits (a ^ m)
  · exact .inl ⟨hsettles, settle_eq_ok hsettles⟩
  · obtain ⟨rfl, hm⟩ := Classical.not_imp.mp hsettles
    have hn : ¬t.Fits (a ^ n) := fun hn => hm (fits_pow_of_le ha hn hle)
    exact .inr ⟨by simp [t.settle_of_not_fits hm], by simp [t.settle_of_not_fits hn]⟩

/-- One round of the loop: the product if the exponent is odd, and then the square if more is left.
-/
theorem powerLoop_succ (checked : Bool) (rounds exponent : Nat) (base result : t.Word) :
    t.powerLoop checked (rounds + 1) exponent base result =
      if exponent = 0 then .ok result
      else
        (if exponent % 2 = 1 then t.settle checked (t.toInt result * t.toInt base)
          else .ok result) >>= fun product =>
        if exponent / 2 = 0 then .ok product
        else
          t.settle checked (t.toInt base * t.toInt base) >>= fun square =>
          t.powerLoop checked rounds (exponent / 2) square product := by
  rw [powerLoop]
  refine if_congr Iff.rfl rfl ?_
  by_cases hodd : exponent % 2 = 1
  · simp only [if_pos hodd]
  · simp only [if_neg hodd]

/-- **The loop of powers.** From powers of `a` in the base and in the result, the loop settles the
power of `a` that is left to reach. Every product that it takes is a power on the way there, so none
leaves the range unless the last one does. -/
theorem powerLoop_eq_settle (checked : Bool) {a : Int} (ha : t.Fits a) {rounds exponent i j : Nat}
    (hrounds : exponent < 2 ^ rounds) (hbase : checked = true → t.Fits (a ^ j))
    (hresult : checked = true → t.Fits (a ^ i)) :
    t.powerLoop checked rounds exponent (t.wrap (a ^ j)) (t.wrap (a ^ i)) =
      t.settle checked (a ^ (i + j * exponent)) := by
  induction rounds generalizing exponent i j with
  | zero =>
      obtain rfl : exponent = 0 := by simpa using hrounds
      rw [powerLoop, Nat.mul_zero, Nat.add_zero, settle_eq_ok hresult]
  | succ rounds ih =>
      rw [powerLoop_succ]
      by_cases hzero : exponent = 0
      · rw [if_pos hzero, hzero, Nat.mul_zero, Nat.add_zero, settle_eq_ok hresult]
      rw [if_neg hzero]
      have hhalves : i + j * (exponent % 2) + (j + j) * (exponent / 2) = i + j * exponent := by
        conv_rhs => rw [← Nat.mod_add_div exponent 2]
        ring
      -- The product is taken if the exponent is odd, and then it is the next power.
      have hproduct : (if exponent % 2 = 1 then
            t.settle checked (t.toInt (t.wrap (a ^ i)) * t.toInt (t.wrap (a ^ j)))
          else .ok (t.wrap (a ^ i))) = t.settle checked (a ^ (i + j * (exponent % 2))) := by
        by_cases hodd : exponent % 2 = 1
        · rw [if_pos hodd, settle_mul_wrap hresult hbase, hodd, Nat.mul_one, pow_add]
        · have heven : exponent % 2 = 0 := by omega
          rw [if_neg hodd, heven, Nat.mul_zero, Nat.add_zero, settle_eq_ok hresult]
      rw [hproduct]
      rcases settle_pow_cases checked ha (Nat.le.intro hhalves) with
        ⟨hproduct, hok⟩ | ⟨herror, htotal⟩
      · rw [hok, ok_bind]
        by_cases hlast : exponent / 2 = 0
        · rw [hlast, Nat.mul_zero, Nat.add_zero] at hhalves
          rw [if_pos hlast, ← hhalves, hok]
        · have hless : j + j ≤ i + j * exponent := by
            have : (j + j) * 1 ≤ (j + j) * (exponent / 2) := Nat.mul_le_mul_left _ (by omega)
            omega
          rw [if_neg hlast, settle_mul_wrap hbase hbase, ← pow_add]
          rcases settle_pow_cases checked ha hless with ⟨hsquare, hok⟩ | ⟨herror, htotal⟩
          · rw [hok, ok_bind, ih (by omega) hsquare hproduct, hhalves]
          · rw [herror, htotal, error_bind]
      · rw [herror, htotal, error_bind]

/-- **Powers.** Square and multiply settles the exact power. -/
theorem power_eq_settle (checked : Bool) (a : t.Word) {b : t.Word} (hb : 0 ≤ t.toInt b) :
    t.power checked a b = t.settle checked (t.toInt a ^ (t.toInt b).toNat) := by
  have hrounds : (t.toInt b).toNat < 2 ^ t.bits := by
    obtain ⟨half, hhalf, hpow, hrange⟩ := t.bounds
    obtain ⟨-, hgreatest⟩ := t.fits_toInt b
    zify
    rw [Int.toNat_of_nonneg hb]
    omega
  have hloop := powerLoop_eq_settle checked (t.fits_toInt a) (i := 0) (j := 1) hrounds
    (fun _ => by simpa using t.fits_toInt a) (fun _ => by simpa using t.fits_truth true)
  rw [power, if_neg (Int.not_lt.mpr hb)]
  simpa using hloop

/-! ## Shifts -/

/-- A shift to the left multiplies and reduces. -/
theorem shiftBitsLeft_eq_wrap (a : t.Word) (count : Nat) :
    t.shiftBitsLeft a count = t.wrap (t.toInt a * 2 ^ count) := by
  have hpower : BitVec.ofInt t.bits (2 ^ count) = BitVec.twoPow t.bits count := by
    have hcast : (2 ^ count : Int) = ((2 ^ count : Nat) : Int) := by push_cast; rfl
    rw [hcast, BitVec.ofInt_natCast]
    apply BitVec.eq_of_toNat_eq
    rw [BitVec.toNat_ofNat, BitVec.toNat_twoPow]
  rw [shiftBitsLeft, BitVec.shiftLeft_eq_mul_twoPow, wrap, BitVec.ofInt_mul, hpower, ← wrap,
    wrap_toInt]

/-- A shift to the right divides and rounds down. -/
theorem toInt_shiftBitsRight (a : t.Word) (count : Nat) :
    t.toInt (t.shiftBitsRight a count) = t.toInt a / 2 ^ count := by
  unfold toInt shiftBitsRight
  by_cases hs : t.isSigned = true
  · simp [hs, BitVec.toInt_sshiftRight, Int.shiftRight_eq_div_pow]
  · simp [hs, Nat.shiftRight_eq_div_pow]

/-- **Lost bits.** A shift to the left comes back exactly if the exact product is in range. -/
theorem shiftBitsRight_shiftBitsLeft_iff (a : t.Word) {count : Nat} (hcount : count < t.bits) :
    t.shiftBitsRight (t.shiftBitsLeft a count) count = a ↔ t.Fits (t.toInt a * 2 ^ count) := by
  have hpos : (0 : Int) < 2 ^ count := by positivity
  rw [shiftBitsLeft_eq_wrap]
  constructor
  · intro hback
    have hquotient : t.toInt (t.wrap (t.toInt a * 2 ^ count)) / 2 ^ count = t.toInt a := by
      rw [← toInt_shiftBitsRight, hback]
    -- The bits that come in from the right are zeros, so the quotient is exact.
    have hremainder : t.toInt (t.wrap (t.toInt a * 2 ^ count)) % 2 ^ count = 0 := by
      have hdvd : (2 : Int) ^ count ∣ 2 ^ t.bits := pow_dvd_pow 2 hcount.le
      rw [← Int.emod_emod_of_dvd _ hdvd, toInt_wrap_emod, Int.emod_emod_of_dvd _ hdvd,
        Int.mul_emod_left]
    have hexact := Int.mul_ediv_add_emod (t.toInt (t.wrap (t.toInt a * 2 ^ count))) (2 ^ count)
    rw [hquotient, hremainder, Int.add_zero, Int.mul_comm] at hexact
    rw [hexact]
    exact t.fits_toInt _
  · intro hfits
    rw [← toInt_inj, toInt_shiftBitsRight, t.toInt_wrap hfits, Int.mul_ediv_cancel _ hpos.ne']

/-- The counts that shifts take. -/
theorem shiftCount?_eq_some_iff {b : t.Word} {count : Nat} :
    t.shiftCount? b = some count ↔
      (0 ≤ t.toInt b ∧ t.toInt b < t.bits) ∧ (t.toInt b).toNat = count := by
  unfold shiftCount?
  simp

/-- **Shifts to the left.** A shift by a count in range settles the exact product. -/
theorem shiftLeft_eq_settle (checked : Bool) (a : t.Word) {b : t.Word} {count : Nat}
    (h : t.shiftCount? b = some count) :
    t.shiftLeft checked a b = t.settle checked (t.toInt a * 2 ^ count) := by
  have hcount : count < t.bits := by
    obtain ⟨hrange, rfl⟩ := shiftCount?_eq_some_iff.mp h
    omega
  rw [shiftLeft, h]
  dsimp only
  by_cases hfits : t.Fits (t.toInt a * 2 ^ count)
  · have hback := (shiftBitsRight_shiftBitsLeft_iff a hcount).mpr hfits
    rw [if_neg fun hlost => hlost.2 hback, shiftBitsLeft_eq_wrap, t.settle_of_fits hfits]
  · have hlost := mt (shiftBitsRight_shiftBitsLeft_iff a hcount).mp hfits
    rw [t.settle_of_not_fits hfits]
    refine if_congr (and_iff_left hlost) rfl ?_
    rw [shiftBitsLeft_eq_wrap]

/-- **Shifts to the right.** A shift by a count in range settles the exact floor of the quotient. -/
theorem shiftRight_eq_settle (checked : Bool) (a : t.Word) {b : t.Word} {count : Nat}
    (h : t.shiftCount? b = some count) :
    t.shiftRight checked a b = t.settle checked (t.toInt a / 2 ^ count) := by
  rw [shiftRight, h, ← toInt_shiftBitsRight, settle_toInt]

end Elementwise.IntType
