import Mathlib.Algebra.Order.Field.Power
import Mathlib.Tactic.Ring
import Mathlib.Tactic.Linarith

/-!
# Natural numbers of 53 bits

A double has 53 significant bits. `nearest n` is the natural number of so many bits that is nearest
to `n`; of two that are equally near it is the one whose last bit is even.

Appending bits to a number is where rounding twice goes wrong. `nearest_append` compares the
rounding of a number with the rounding of its front part, one that does not fit either: the two
agree unless the front part is halfway between two numbers of 53 bits, is rounded down, and has
something behind it.
-/

namespace Elementwise

/-! ## Rounding at a place -/

/-- What is added to a quotient `q` that leaves `r` of `w`: one for more than half of `w`, and for
half of it if that makes the quotient even. -/
def carry (q r w : ℕ) : ℕ :=
  if 2 * r < w ∨ 2 * r = w ∧ q % 2 = 0 then 0 else 1

/-- At most one is added. -/
theorem carry_le (q r w : ℕ) : carry q r w ≤ 1 := by
  unfold carry
  split <;> decide

/-- What is added depends on the ratio only. -/
theorem carry_mul {p : ℕ} (hp : 0 < p) (q r w : ℕ) : carry q (r * p) (w * p) = carry q r w := by
  simp only [carry, ← Nat.mul_assoc, Nat.mul_lt_mul_right hp, Nat.mul_left_inj hp.ne']

/-- Less than a unit behind the remainder matters only if the remainder is half of an even `w`. -/
theorem carry_append {half p t : ℕ} (ht : t < p) {q r : ℕ}
    (h : ¬(2 * r = 2 * half ∧ q % 2 = 0 ∧ 0 < t)) :
    carry q (r * p + t) (2 * half * p) = carry q r (2 * half) := by
  rw [← carry_mul (Nat.zero_lt_of_lt ht) q r, Nat.mul_assoc]
  unfold carry
  rcases Nat.lt_trichotomy r half with hlt | heq | hgt
  · have hbelow := Nat.mul_le_mul_right p (Nat.succ_le_of_lt hlt)
    rw [Nat.succ_mul] at hbelow
    rw [if_pos (by omega), if_pos (by omega)]
  · subst heq
    by_cases heven : q % 2 = 0
    · rw [if_pos (by omega), if_pos (by omega)]
    · rw [if_neg (by omega), if_neg (by omega)]
  · have habove := Nat.mul_le_mul_right p (Nat.succ_le_of_lt hgt)
    rw [Nat.succ_mul] at habove
    rw [if_neg (by omega), if_neg (by omega)]

/-- `n / 2 ^ k`, rounded to the nearest natural number, and from halfway to an even one. -/
def halfEven (k n : ℕ) : ℕ :=
  n / 2 ^ k + carry (n / 2 ^ k) (n % 2 ^ k) (2 ^ k)

/-- Halfway between two multiples of `2 ^ k`, of which the lower one is even. -/
def EvenHalf (k n : ℕ) : Prop :=
  2 * (n % 2 ^ k) = 2 ^ k ∧ n / 2 ^ k % 2 = 0

/-- The error is at most a half, and a half only if the result is even. -/
theorem halfEven_error (k n : ℕ) :
    2 * (halfEven k n * 2 ^ k) ≤ 2 * n + 2 ^ k ∧ 2 * n ≤ 2 * (halfEven k n * 2 ^ k) + 2 ^ k ∧
      (halfEven k n % 2 = 1 → 2 * (halfEven k n * 2 ^ k) < 2 * n + 2 ^ k ∧
        2 * n < 2 * (halfEven k n * 2 ^ k) + 2 ^ k) := by
  have hsplit := Nat.div_add_mod' n (2 ^ k)
  have hlt := Nat.mod_lt n (Nat.two_pow_pos k)
  rw [halfEven, Nat.add_mul]
  unfold carry
  split <;> omega

/-- Zeros at the end of a number are not rounded. -/
theorem halfEven_mul_two_pow (k j n : ℕ) : halfEven (k + j) (n * 2 ^ j) = halfEven k n := by
  have hpos := Nat.two_pow_pos j
  rw [halfEven, Nat.pow_add, Nat.mul_div_mul_right _ _ hpos, Nat.mul_mod_mul_right, carry_mul hpos,
    halfEven]

/-- The quotient and the remainder of a number with bits appended. -/
theorem append_div_mod {k v c t : ℕ} (ht : t < 2 ^ c) :
    (v * 2 ^ c + t) / 2 ^ (k + c) = v / 2 ^ k ∧
      (v * 2 ^ c + t) % 2 ^ (k + c) = v % 2 ^ k * 2 ^ c + t := by
  have hpos := Nat.two_pow_pos c
  rw [Nat.add_comm k, Nat.pow_add, ← Nat.div_div_eq_div_mul, Nat.mod_mul, Nat.mul_comm v,
    Nat.mul_add_div hpos, Nat.div_eq_of_lt ht, Nat.mul_add_mod, Nat.mod_eq_of_lt ht, Nat.add_zero,
    Nat.add_comm, Nat.mul_comm]
  exact ⟨rfl, rfl⟩

/-! ## Rounding to 53 bits -/

/-- How many bits of a number are more than 53. -/
def excess (n : ℕ) : ℕ :=
  n.log2 - 52

/-- A number of at most 53 bits has none to spare. -/
theorem excess_of_lt {n : ℕ} (hn : n < 2 ^ 53) : excess n = 0 := by
  rcases Nat.eq_zero_or_pos n with rfl | hpos
  · rfl
  · have := (Nat.log2_lt hpos.ne').mpr hn
    rw [excess]
    omega

/-- The place of the first bit of a number of 53 bits or more. -/
theorem log2_eq_excess {n : ℕ} (hn : 2 ^ 52 ≤ n) : n.log2 = 52 + excess n := by
  have := (Nat.le_log2 (by omega)).mpr hn
  rw [excess]
  omega

/-- The nearest number of 53 bits, or any number if it has no more than that. -/
def nearest (n : ℕ) : ℕ :=
  halfEven (excess n) n * 2 ^ excess n

/-- Zero is not rounded. -/
@[simp] theorem nearest_zero : nearest 0 = 0 :=
  rfl

/-- Zeros at the end move the first bit. -/
theorem log2_mul_two_pow {n : ℕ} (hn : n ≠ 0) (j : ℕ) : (n * 2 ^ j).log2 = n.log2 + j := by
  have hpos := Nat.two_pow_pos j
  rw [Nat.log2_eq_iff (Nat.mul_ne_zero hn hpos.ne')]
  have hlow := Nat.log2_self_le hn
  have hhigh := @Nat.lt_log2_self n
  rw [Nat.pow_add, Nat.add_right_comm, Nat.pow_add]
  exact ⟨Nat.mul_le_mul_right _ hlow, Nat.mul_lt_mul_of_pos_right hhigh hpos⟩

/-- Numbers of 53 bits are what rounding leaves as it is. -/
theorem nearest_eq_self_iff {n : ℕ} : nearest n = n ↔ 2 ^ excess n ∣ n := by
  constructor
  · intro h
    exact Dvd.intro_left _ h
  · rintro ⟨q, hq⟩
    have hround : halfEven (0 + excess n) (q * 2 ^ excess n) = halfEven 0 q :=
      halfEven_mul_two_pow 0 (excess n) q
    rw [Nat.zero_add, Nat.mul_comm q, ← hq] at hround
    rw [nearest, hround]
    conv_rhs => rw [hq]
    simp [halfEven, carry, Nat.mod_one, Nat.mul_comm]

/-- A number of at most 53 bits is not rounded. -/
theorem nearest_of_lt {n : ℕ} (hn : n < 2 ^ 53) : nearest n = n := by
  rw [nearest_eq_self_iff, excess_of_lt hn]
  exact one_dvd n

/-- Rounding does not depend on the place of the point. -/
theorem nearest_mul_two_pow (n j : ℕ) : nearest (n * 2 ^ j) = nearest n * 2 ^ j := by
  rcases Nat.eq_zero_or_pos n with rfl | hpos
  · simp
  · have hlog := log2_mul_two_pow hpos.ne' j
    by_cases hn : n < 2 ^ 53
    · rw [nearest_of_lt hn, nearest_eq_self_iff]
      have hlt := (Nat.log2_lt hpos.ne').mpr hn
      refine Nat.dvd_trans (Nat.pow_dvd_pow 2 ?_) (Nat.dvd_mul_left (2 ^ j) n)
      rw [excess]
      omega
    · have hexcess : excess (n * 2 ^ j) = excess n + j := by
        rw [excess, hlog, log2_eq_excess (by omega)]
        omega
      rw [nearest, hexcess, halfEven_mul_two_pow, nearest, Nat.pow_add, Nat.mul_assoc]

/-- Neither is the next power of two. -/
theorem nearest_of_le {n : ℕ} (hn : n ≤ 2 ^ 53) : nearest n = n := by
  rcases Nat.lt_or_eq_of_le hn with hlt | rfl
  · exact nearest_of_lt hlt
  · rw [← Nat.one_mul (2 ^ 53), nearest_mul_two_pow, nearest_of_lt (by decide)]

/-- A number with 53 bits or more is cut to 53 bits. -/
theorem div_excess_mem {n : ℕ} (hn : 2 ^ 52 ≤ n) :
    2 ^ 52 ≤ n / 2 ^ excess n ∧ n / 2 ^ excess n < 2 ^ 53 := by
  have hlow := Nat.log2_self_le (show n ≠ 0 by omega)
  have hhigh := @Nat.lt_log2_self n
  rw [log2_eq_excess hn, Nat.pow_add] at hlow
  rw [log2_eq_excess hn, Nat.add_right_comm, Nat.pow_add] at hhigh
  exact ⟨(Nat.le_div_iff_mul_le (Nat.two_pow_pos _)).mpr hlow,
    Nat.div_lt_of_lt_mul (Nat.mul_comm _ _ ▸ hhigh)⟩

/-- The mantissa has 53 bits again, or is the next power of two. -/
theorem halfEven_excess_mem {n : ℕ} (hn : 2 ^ 52 ≤ n) :
    2 ^ 52 ≤ halfEven (excess n) n ∧ halfEven (excess n) n ≤ 2 ^ 53 := by
  have hdiv := div_excess_mem hn
  have hcarry := carry_le (n / 2 ^ excess n) (n % 2 ^ excess n) (2 ^ excess n)
  rw [halfEven]
  omega

/-- Numbers are rounded within a range if they are half a unit of the last place below its end. -/
theorem nearest_lt {n p top : ℕ} (hn : n + 2 ^ p < 2 ^ top) (htop : top = p + 54) :
    nearest n < 2 ^ top := by
  have herror := (halfEven_error (excess n) n).1
  have hexcess : excess n ≤ p + 1 := by
    rcases Nat.eq_zero_or_pos n with rfl | hpos
    · exact Nat.zero_le _
    · have := (Nat.log2_lt hpos.ne').mpr (Nat.lt_of_le_of_lt (Nat.le_add_right _ _) hn)
      rw [excess]
      omega
  have hpow : 2 ^ excess n ≤ 2 ^ p * 2 := by
    rw [← Nat.pow_succ]
    exact Nat.pow_le_pow_right (by decide) hexcess
  rw [nearest]
  omega

/-! ## Rounding a part and the whole -/

/-- With more than 53 bits there is a half to round. -/
theorem exists_two_pow_excess {v : ℕ} (hv : 2 ^ 53 ≤ v) : ∃ half, 2 ^ excess v = 2 * half := by
  have hpos : excess v ≠ 0 := by
    have := (Nat.le_log2 (by omega)).mpr hv
    rw [excess]
    omega
  exact ⟨2 ^ (excess v - 1), (mul_pow_sub_one hpos 2).symm⟩

/-- Bits that are appended add to the length. -/
theorem excess_append {v c t : ℕ} (hv : 2 ^ 52 ≤ v) (ht : t < 2 ^ c) :
    excess (v * 2 ^ c + t) = excess v + c := by
  have hne : v ≠ 0 := by omega
  have hlog : (v * 2 ^ c + t).log2 = v.log2 + c := by
    have hlow := Nat.log2_self_le hne
    have hhigh : (v + 1) * 2 ^ c ≤ 2 ^ (v.log2 + 1) * 2 ^ c :=
      Nat.mul_le_mul_right _ Nat.lt_log2_self
    have hpos := Nat.mul_le_mul_right (2 ^ c) (Nat.pos_of_ne_zero hne)
    rw [Nat.log2_eq_iff (by omega), Nat.pow_add, Nat.add_right_comm, Nat.pow_add]
    rw [Nat.succ_mul] at hhigh
    exact ⟨Nat.le_add_right_of_le (Nat.mul_le_mul_right _ hlow), by omega⟩
  rw [excess, hlog, log2_eq_excess hv]
  omega

/-- **A part and the whole.** A number with more than 53 bits is rounded together with the bits
behind it as it is rounded alone, unless it is halfway and rounded down, and something is behind it.
-/
theorem nearest_append {v c t : ℕ} (hv : 2 ^ 53 ≤ v) (ht : t < 2 ^ c)
    (h : ¬(EvenHalf (excess v) v ∧ 0 < t)) : nearest (v * 2 ^ c + t) = nearest v * 2 ^ c := by
  obtain ⟨half, hhalf⟩ := exists_two_pow_excess hv
  obtain ⟨hdiv, hmod⟩ := append_div_mod ht
  have hcarry : carry (v / 2 ^ excess v) (v % 2 ^ excess v * 2 ^ c + t) (2 ^ excess v * 2 ^ c) =
      carry (v / 2 ^ excess v) (v % 2 ^ excess v) (2 ^ excess v) := by
    rw [EvenHalf, and_assoc] at h
    rw [hhalf] at h ⊢
    exact carry_append ht h
  rw [nearest, excess_append (by omega) ht, halfEven, hdiv, hmod, Nat.pow_add, hcarry, nearest,
    halfEven, Nat.mul_assoc]

/-- Then it is rounded up, by a unit of its last place. -/
theorem nearest_append_of_evenHalf {v c t : ℕ} (hv : 2 ^ 53 ≤ v) (ht : t < 2 ^ c) (hpos : 0 < t)
    (h : EvenHalf (excess v) v) :
    nearest v = v / 2 ^ excess v * 2 ^ excess v ∧
      nearest (v * 2 ^ c + t) = (nearest v + 2 ^ excess v) * 2 ^ c := by
  obtain ⟨hdiv, hmod⟩ := append_div_mod ht
  have hdown : carry (v / 2 ^ excess v) (v % 2 ^ excess v) (2 ^ excess v) = 0 := if_pos (.inr h)
  have hpart : nearest v = v / 2 ^ excess v * 2 ^ excess v := by
    rw [nearest, halfEven, hdown, Nat.add_zero]
  have hup :
      carry (v / 2 ^ excess v) (v % 2 ^ excess v * 2 ^ c + t) (2 ^ excess v * 2 ^ c) = 1 := by
    have hr : 2 * (v % 2 ^ excess v) * 2 ^ c = 2 ^ excess v * 2 ^ c := by rw [h.1]
    rw [Nat.mul_assoc] at hr
    exact if_neg (by omega)
  refine ⟨hpart, ?_⟩
  rw [hpart, nearest, excess_append (by omega) ht, halfEven, hdiv, hmod, Nat.pow_add, hup]
  ring

/-- To a number of 53 bits that has zeros behind them, fewer bits may be appended. -/
theorem nearest_append_of_nearest {u c t : ℕ} (hu : 2 ^ 53 ≤ u) (hfits : nearest u = u)
    (ht : t < 2 ^ c) : nearest (u * 2 ^ c + t) = u * 2 ^ c := by
  rw [nearest_append hu ht, hfits]
  rintro ⟨⟨hhalf, -⟩, -⟩
  rw [Nat.mod_eq_zero_of_dvd (nearest_eq_self_iff.mp hfits)] at hhalf
  exact absurd hhalf (Nat.two_pow_pos _).ne

/-- Rounding a part first never gives more. -/
theorem nearest_mul_le_append {v c t : ℕ} (hv : 2 ^ 53 ≤ v) (ht : t < 2 ^ c) :
    nearest v * 2 ^ c ≤ nearest (v * 2 ^ c + t) := by
  by_cases h : EvenHalf (excess v) v ∧ 0 < t
  · rw [(nearest_append_of_evenHalf hv ht h.2 h.1).2]
    exact Nat.mul_le_mul_right _ (Nat.le_add_right _ _)
  · exact (nearest_append hv ht h).ge

/-- A number of more than 53 bits is rounded to one of more than 53 bits. -/
theorem le_nearest {v : ℕ} (hv : 2 ^ 53 ≤ v) : 2 ^ 53 ≤ nearest v := by
  obtain ⟨hlow, -⟩ := halfEven_excess_mem (n := v) (by omega)
  obtain ⟨half, hhalf⟩ := exists_two_pow_excess hv
  have hpos := Nat.two_pow_pos (excess v)
  have hmul := Nat.mul_le_mul hlow (show 2 ≤ 2 ^ excess v by omega)
  rw [nearest]
  omega

end Elementwise
