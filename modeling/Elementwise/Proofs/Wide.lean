import Elementwise.Proofs.Numerals
import Elementwise.Proofs.Doubles

/-!
# Integers too wide to stay exact

Integers of 128 bits and more are read as doubles. Decimal digits are rounded once, all together.
Behind a radix mark every digit is added to a double and the sum is rounded, so the digits in front
are rounded as soon as they have more than 53 bits, and those behind them are too small to change
the result (`Numeral.Read`). This is the same unless the digits in front are halfway between two
doubles: then they go to the even one, and a digit behind them that is not zero would have decided
otherwise (`Numeral.LostTie`).

`Token.all_wide` says that decimal digits give the nearest double, and that digits behind a radix
mark give it too, or the one below it if a tie is lost. `Token.wide_literals_differ` is a number
that is lost so.
-/

namespace Elementwise

open Text

namespace Numeral

/-! ## Digit by digit -/

/-- The value with one digit more. -/
theorem value_concat (radix : ℕ) (digits : List Char) (c : Char) :
    value radix (digits ++ [c]) = value radix digits * radix + digitValue c := by
  rw [value, List.foldl_append]
  rfl

/-- The double with one digit more. -/
theorem wideValue_concat (radix : ℕ) (digits : List Char) (c : Char) :
    wideValue radix (digits ++ [c]) =
      wideValue radix digits * Float.ofNat radix + Float.ofNat (digitValue c) := by
  rw [wideValue, List.foldl_append]
  rfl

/-- One digit more: a product that is exact, and a sum that is rounded. -/
theorem exactly_step {x : Float} {a b d : ℕ} (hx : Exactly x a) (hb : b ≤ 4) (hd : d < 2 ^ b)
    (hproduct : a * 2 ^ b < 2 ^ 1024) (hsum : nearest (a * 2 ^ b + d) < 2 ^ 1024) :
    Exactly (x * Float.ofNat (2 ^ b) + Float.ofNat d) (nearest (a * 2 ^ b + d)) := by
  have hradix : 2 ^ b ≤ 2 ^ 53 := pow_le_pow_right₀ one_le_two (by omega)
  have hexact : nearest (a * 2 ^ b) = a * 2 ^ b := by rw [nearest_mul_two_pow, hx.nearest_eq]
  have hmul := hx.mul (.ofNat_of_le hradix) (by rwa [hexact])
  rw [hexact] at hmul
  exact hmul.add (.ofNat_of_le (by omega)) hsum

/-- What reading digit by digit has come to. Numbers of 53 bits are exact; from the first digit on
that makes the number longer, what was read then is rounded, and has zeros for all later digits. -/
inductive Read (b n : ℕ) (x : Float) : Prop
  | exact (hlt : n < 2 ^ 53) (hx : Exactly x n)
  | rounded {v j t : ℕ} (hv : 2 ^ 53 ≤ v) (hv' : v < 2 ^ 53 * 2 ^ b) (ht : t < 2 ^ (b * j))
      (hn : n = v * 2 ^ (b * j) + t) (hx : Exactly x (nearest v * 2 ^ (b * j)))

/-- A digit more keeps this so. -/
theorem Read.step {b n d : ℕ} {x : Float} (h : Read b n x) (hb : b ≤ 4) (hd : d < 2 ^ b)
    (hfinite : n * 2 ^ b + d + 2 ^ 970 < 2 ^ 1024) :
    Read b (n * 2 ^ b + d) (x * Float.ofNat (2 ^ b) + Float.ofNat d) := by
  have hlt : nearest (n * 2 ^ b + d) < 2 ^ 1024 := nearest_lt hfinite rfl
  cases h with
  | exact hsmall hx =>
      have hx' := exactly_step hx hb hd (by omega) hlt
      by_cases hsmall' : n * 2 ^ b + d < 2 ^ 53
      · rw [nearest_of_lt hsmall'] at hx'
        exact .exact hsmall' hx'
      · have hle := Nat.mul_le_mul_right (2 ^ b) (Nat.succ_le_of_lt hsmall)
        rw [Nat.succ_mul] at hle
        refine .rounded (v := n * 2 ^ b + d) (j := 0) (t := 0) (by omega) (by omega)
          (by simp) (by simp) ?_
        simpa using hx'
  | @rounded v j t hv hv' ht hn hx =>
      have hpow : 2 ^ (b * (j + 1)) = 2 ^ (b * j) * 2 ^ b := by rw [Nat.mul_succ, Nat.pow_add]
      have hle : 2 ^ 53 ≤ nearest v * 2 ^ (b * j) :=
        Nat.le_trans (le_nearest hv) (Nat.le_mul_of_pos_right _ (Nat.two_pow_pos _))
      have ht' : t * 2 ^ b + d < 2 ^ (b * (j + 1)) := by
        have := Nat.mul_le_mul_right (2 ^ b) (Nat.succ_le_of_lt ht)
        rw [Nat.succ_mul] at this
        rw [hpow]
        omega
      have hn' : n * 2 ^ b + d = v * 2 ^ (b * (j + 1)) + (t * 2 ^ b + d) := by
        rw [hn, hpow]
        ring
      have hproduct : nearest v * 2 ^ (b * j) * 2 ^ b < 2 ^ 1024 := by
        rw [Nat.mul_assoc, ← hpow]
        exact Nat.lt_of_le_of_lt (nearest_mul_le_append hv ht') (hn' ▸ hlt)
      have hsum := nearest_append_of_nearest hle hx.nearest_eq hd
      have hx' := exactly_step hx hb hd hproduct (by rwa [hsum])
      rw [hsum, Nat.mul_assoc, ← hpow] at hx'
      exact .rounded hv hv' ht' hn' hx'

/-- **All digits.** So it is after the last one. -/
theorem read_wideValue {b : ℕ} (hb : b ≤ 4) {digits : List Char}
    (hdigits : ∀ c ∈ digits, digitValue c < 2 ^ b)
    (hfinite : value (2 ^ b) digits + 2 ^ 970 < 2 ^ 1024) :
    Read b (value (2 ^ b) digits) (wideValue (2 ^ b) digits) := by
  induction digits using List.reverseRecOn with
  | nil => exact .exact (pow_pos two_pos 53) .zero
  | append_singleton digits c ih =>
      rw [value_concat] at hfinite ⊢
      rw [wideValue_concat]
      have hle := Nat.le_mul_of_pos_right (value (2 ^ b) digits) (Nat.two_pow_pos b)
      have hread := ih (fun d hd => hdigits d (List.mem_append_left _ hd)) (by omega)
      exact hread.step hb (hdigits c (by simp)) hfinite

/-! ## Ties that are lost -/

/-- The numbers that are rounded too early when they are read in a radix: the digits in front, up to
the first one that makes more than 53 bits of them, are halfway between two numbers of 53 bits, the
lower one of them even, and not all digits behind them are zero. -/
def LostTie (radix n : ℕ) : Prop :=
  ∃ q s j t, 2 ^ 51 ≤ q ∧ q < 2 ^ 52 ∧ 2 ^ s < radix ∧ 0 < t ∧ t < radix ^ j ∧
    n = (4 * q + 1) * 2 ^ s * radix ^ j + t

/-- The halves that are rounded down. -/
theorem evenHalf_iff {v b : ℕ} (hv : 2 ^ 53 ≤ v) (hv' : v < 2 ^ 53 * 2 ^ b) :
    EvenHalf (excess v) v ↔ ∃ q s, 2 ^ 51 ≤ q ∧ q < 2 ^ 52 ∧ s < b ∧ v = (4 * q + 1) * 2 ^ s := by
  have hne : v ≠ 0 := by omega
  constructor
  · rintro ⟨hhalf, heven⟩
    obtain ⟨hlow, hhigh⟩ := div_excess_mem (n := v) (by omega)
    have hsplit := Nat.div_add_mod' v (2 ^ excess v)
    have hlog := (Nat.le_log2 hne).mpr hv
    have hlog' := (Nat.log2_lt hne).mpr (Nat.pow_add .. ▸ hv')
    obtain ⟨s, hs⟩ : ∃ s, excess v = s + 1 := ⟨v.log2 - 53, by rw [excess]; omega⟩
    obtain ⟨q, hq⟩ : ∃ q, v / 2 ^ excess v = 2 * q := Nat.dvd_of_mod_eq_zero heven
    have hs' : s < b := by
      rw [excess] at hs
      omega
    rw [hq] at hlow hhigh hsplit
    rw [hs, Nat.pow_succ] at hhalf hsplit
    have hmod : v % (2 ^ s * 2) = 2 ^ s := by omega
    rw [hmod] at hsplit
    refine ⟨q, s, by omega, by omega, hs', ?_⟩
    rw [← hsplit]
    ring
  · rintro ⟨q, s, hlow, hhigh, -, rfl⟩
    have hpos := Nat.two_pow_pos s
    have hlog : (4 * q + 1).log2 = 53 := (Nat.log2_eq_iff (by omega)).mpr ⟨by omega, by omega⟩
    have hexcess : excess ((4 * q + 1) * 2 ^ s) = s + 1 := by
      rw [excess, log2_mul_two_pow (by omega), hlog]
      omega
    have hsplit : (4 * q + 1) * 2 ^ s = 2 ^ (s + 1) * (2 * q) + 2 ^ s := by ring
    have hlt : 2 ^ s < 2 ^ (s + 1) := Nat.pow_lt_pow_succ (by decide)
    rw [EvenHalf, hexcess, hsplit, Nat.mul_add_mod, Nat.mod_eq_of_lt hlt,
      Nat.mul_add_div (Nat.two_pow_pos _), Nat.div_eq_of_lt hlt, Nat.pow_succ]
    omega

/-- The digits in front are the same however they are found. -/
theorem front_unique {b j j' v v' t t' : ℕ} (hv : 2 ^ 53 ≤ v) (hbound : v < 2 ^ 53 * 2 ^ b)
    (hv' : 2 ^ 53 ≤ v') (hbound' : v' < 2 ^ 53 * 2 ^ b) (ht : t < 2 ^ (b * j))
    (ht' : t' < 2 ^ (b * j'))
    (h : v * 2 ^ (b * j) + t = v' * 2 ^ (b * j') + t') : v = v' ∧ t = t' := by
  have hle : ∀ {i i' u u' r r' : ℕ}, u < 2 ^ 53 * 2 ^ b → r < 2 ^ (b * i) → 2 ^ 53 ≤ u' →
      u * 2 ^ (b * i) + r = u' * 2 ^ (b * i') + r' → i' ≤ i := by
    intro i i' u u' r r' hu hr hu' hsame
    by_contra hlt
    have hnext : 2 ^ (b * i) * 2 ^ b ≤ 2 ^ (b * i') := by
      rw [← Nat.pow_add, ← Nat.mul_succ]
      exact Nat.pow_le_pow_right (by decide) (Nat.mul_le_mul_left b (by omega))
    have hfront := Nat.mul_le_mul hu' hnext
    have hrest := Nat.mul_le_mul_right (2 ^ (b * i)) (Nat.succ_le_of_lt hu)
    rw [Nat.succ_mul, Nat.mul_right_comm, Nat.mul_assoc] at hrest
    omega
  obtain rfl : j = j' := Nat.le_antisymm (hle hbound' ht' hv h.symm) (hle hbound ht hv' h)
  have hpos := Nat.two_pow_pos (b * j)
  constructor
  · have hdiv := congrArg (· / 2 ^ (b * j)) h
    simpa [Nat.add_div_of_dvd_right, Nat.mul_div_cancel _ hpos, Nat.div_eq_of_lt ht,
      Nat.div_eq_of_lt ht'] using hdiv
  · have hmod := congrArg (· % 2 ^ (b * j)) h
    simpa [Nat.mod_eq_of_lt ht, Nat.mod_eq_of_lt ht'] using hmod

/-- The ties that are lost, by the digits in front and those behind them. -/
theorem lostTie_iff {b n v j t : ℕ} (hv : 2 ^ 53 ≤ v) (hbound : v < 2 ^ 53 * 2 ^ b)
    (ht : t < 2 ^ (b * j)) (hn : n = v * 2 ^ (b * j) + t) :
    LostTie (2 ^ b) n ↔ EvenHalf (excess v) v ∧ 0 < t := by
  rw [evenHalf_iff hv hbound]
  constructor
  · rintro ⟨q, s, j', t', hlow, hhigh, hs, hpos, ht', hn'⟩
    rw [← Nat.pow_mul] at ht' hn'
    have hs' : s < b := (Nat.pow_lt_pow_iff_right (by decide)).mp hs
    have hpow : 2 ^ s * 2 ≤ 2 ^ b := Nat.pow_succ .. ▸ Nat.pow_le_pow_right (by decide) hs'
    have hfront : 2 ^ 53 ≤ (4 * q + 1) * 2 ^ s :=
      Nat.le_trans (by omega) (Nat.le_mul_of_pos_right _ (Nat.two_pow_pos s))
    have hfront' : (4 * q + 1) * 2 ^ s < 2 ^ 53 * 2 ^ b := by
      have := Nat.mul_lt_mul_of_pos_right (show 4 * q + 1 < 2 ^ 54 by omega) (Nat.two_pow_pos s)
      omega
    obtain ⟨rfl, rfl⟩ := front_unique hv hbound hfront hfront' ht ht' (hn.symm.trans hn')
    exact ⟨⟨q, s, hlow, hhigh, hs', rfl⟩, hpos⟩
  · rintro ⟨⟨q, s, hlow, hhigh, hs, rfl⟩, hpos⟩
    refine ⟨q, s, j, t, hlow, hhigh, Nat.pow_lt_pow_right (by decide) hs, hpos, ?_, ?_⟩
    · rwa [← Nat.pow_mul]
    · rwa [← Nat.pow_mul]

/-- A number that is read digit by digit is the nearest double unless a tie is lost, and then it is
the double before that. -/
theorem Read.compare {b n : ℕ} {x y : Float} (h : Read b n x) (hn : 2 ^ 53 ≤ n)
    (hy : Exactly y (nearest n)) :
    (¬LostTie (2 ^ b) n → x = y) ∧
      (LostTie (2 ^ b) n → (Double.ofFloat x).toNat + 1 = (Double.ofFloat y).toNat) := by
  cases h with
  | exact hlt hx => omega
  | @rounded v j t hv hv' ht hsplit hx =>
      rw [lostTie_iff hv hv' ht hsplit]
      rw [hsplit] at hy
      constructor
      · intro hkept
        rw [nearest_append hv ht hkept] at hy
        exact hx.unique hy
      · rintro ⟨hhalf, hpos⟩
        obtain ⟨hdown, hup⟩ := nearest_append_of_evenHalf hv ht hpos hhalf
        obtain ⟨hlow, hhigh⟩ := div_excess_mem (n := v) (by omega)
        have heven := hhalf.2
        rw [hup, hdown, ← Nat.succ_mul, Nat.mul_assoc, ← Nat.pow_add] at hy
        rw [hdown, Nat.mul_assoc, ← Nat.pow_add] at hx
        rw [hx.toNat_word hlow hhigh, hy.toNat_word (by omega) (by omega)]
        omega

/-! ## Texts -/

/-- The texts of an integer behind the mark of a radix. -/
def WritesMarked (radix : ℕ) (cs : List Char) (n : ℕ) : Prop :=
  ∃ mark lead groups, (mark, radix) ∈ radixMarks ∧ (lead = [] ∨ lead = ['_']) ∧
    IsGroups radix groups ∧ cs = '0' :: mark :: (lead ++ joined groups) ∧
      groupsValue radix groups = n

/-- The texts of an integer in decimal digits. -/
def WritesDecimal (cs : List Char) (n : ℕ) : Prop :=
  ∃ groups, IsGroups 10 groups ∧ cs = joined groups ∧ groupsValue 10 groups = n

/-- Digits without underscores are one group. -/
theorem isGroups_singleton {radix : ℕ} {digits : List Char} (hne : digits ≠ [])
    (h : (digits.all fun c => (digitSigns.take radix).contains c.toLower) = true) :
    IsGroups radix [digits] := by
  refine isGroups_cons hne (fun c hc => ?_) (.inl rfl)
  simpa [IsDigit] using List.all_eq_true.mp h c hc

/-- The radices of marks are powers of two. -/
theorem exists_two_pow_of_mem_radixMarks {mark : Char} {radix : ℕ}
    (h : (mark, radix) ∈ radixMarks) :
    ∃ b ≤ 4, radix = 2 ^ b := by
  rcases mem_radixMarks_iff.mp h with ⟨-, rfl⟩ | ⟨-, rfl⟩ | ⟨-, rfl⟩
  · exact ⟨4, by decide, rfl⟩
  · exact ⟨3, by decide, rfl⟩
  · exact ⟨1, by decide, rfl⟩

/-- A wide integer in decimal digits is read as the double of all of them. -/
theorem WritesDecimal.isLexeme {cs : List Char} {n : ℕ} (h : WritesDecimal cs n)
    (hn : 2 ^ 127 ≤ n) :
    Token.IsLexeme (.number (.float (Double.ofFloat (Float.ofNat n)))) cs := by
  obtain ⟨groups, hgroups, rfl, rfl⟩ := h
  have hlexeme := Token.isLexeme_joined hgroups
  have hbound : ¬groupsValue 10 groups < Literal.intBound := Nat.not_lt.mpr hn
  rwa [Literal.ofNat, if_neg hbound] at hlexeme

/-- A wide integer behind a radix mark is read digit by digit. -/
theorem WritesMarked.exists_isLexeme {radix n : ℕ} {cs : List Char} (h : WritesMarked radix cs n)
    (hn : 2 ^ 127 ≤ n) (hfinite : n + 2 ^ 970 < 2 ^ 1024) :
    ∃ b x, radix = 2 ^ b ∧ Read b n x ∧
      Token.IsLexeme (.number (.float (Double.ofFloat x))) cs := by
  obtain ⟨mark, lead, groups, hmark, hlead, hgroups, rfl, hvalue⟩ := h
  have hlexeme := Token.isLexeme_marked hmark hlead hgroups
  have hradix := le_of_mem_radixMarks hmark
  rw [← value_digitsOf_joined hgroups, digitsOf_joined hgroups.isDigit] at hvalue
  have hbound : ¬n < Literal.intBound := Nat.not_lt.mpr hn
  rw [radixLiteral, hvalue, if_neg hbound] at hlexeme
  obtain ⟨b, hb, rfl⟩ := exists_two_pow_of_mem_radixMarks hmark
  refine ⟨b, _, rfl, ?_, hlexeme⟩
  rw [← hvalue] at hfinite ⊢
  refine read_wideValue hb (fun c hc => ?_) hfinite
  obtain ⟨group, hgroup, hc⟩ := List.mem_flatten.mp hc
  have hdigit := ((isDigit_iff hradix).mp (hgroups.isDigit group hgroup c hc)).2.2
  rwa [isDigitOf, decide_eq_true_eq] at hdigit

end Numeral

namespace Token

open Numeral

/-- **Wide integers.** An integer from `2 ^ 127` on that is nearer to the greatest double than to `2
^ 1024`, or less than that double, has a nearest double. Written in decimal digits it is read as
that double. Written in hexadecimal, octal or binary digits it is read as that double exactly if no
tie is lost, and else as the double before it. -/
theorem all_wide {n : ℕ} (hwide : 2 ^ 127 ≤ n) (hfinite : n + 2 ^ 970 < 2 ^ 1024) :
    ∃ x : Double, x.IsNearest n ∧ ∀ text : String,
      (WritesDecimal text.toList n →
        all text.toList = .ok [⟨.number (.float x), ⟨0, text.utf8ByteSize⟩⟩]) ∧
      ∀ radix, WritesMarked radix text.toList n →
        ∃ y : Double, all text.toList = .ok [⟨.number (.float y), ⟨0, text.utf8ByteSize⟩⟩] ∧
          (y = x ↔ ¬LostTie radix n) ∧ (LostTie radix n → y.toNat + 1 = x.toNat) := by
  have hlarge : 2 ^ 53 ≤ n := Nat.le_trans (by decide) hwide
  have hexact : Exactly (Float.ofNat n) (nearest n) := .ofNat (nearest_lt hfinite rfl)
  refine ⟨_, hexact.isNearest (by omega), fun text => ?_⟩
  rw [utf8ByteSize_eq]
  simp only [all_eq_singleton_iff]
  refine ⟨fun h => h.isLexeme hwide, fun radix h => ?_⟩
  obtain ⟨b, x, rfl, hread, hlexeme⟩ := h.exists_isLexeme hwide hfinite
  obtain ⟨hkept, hlost⟩ := hread.compare hlarge hexact
  refine ⟨_, hlexeme, ⟨fun hsame htie => ?_, fun htie => congrArg _ (hkept htie)⟩, hlost⟩
  have := hlost htie
  rw [hsame] at this
  omega

/-- One more than halfway between the doubles `2 ^ 127` and `2 ^ 127 + 2 ^ 75`. -/
def pastHalfway : ℕ :=
  2 ^ 127 + 2 ^ 74 + 1

/-- The number in hexadecimal digits. -/
theorem writesMarked_pastHalfway :
    WritesMarked 16 "0x80000000000004000000000000000001".toList pastHalfway :=
  ⟨'x', [], ["80000000000004000000000000000001".toList], by decide +kernel, .inl rfl,
    isGroups_singleton (by decide) (by decide +kernel), by decide +kernel, by decide +kernel⟩

/-- The number in decimal digits. -/
theorem writesDecimal_pastHalfway :
    WritesDecimal "170141183460469250621153235194464960513".toList pastHalfway :=
  ⟨["170141183460469250621153235194464960513".toList],
    isGroups_singleton (by decide) (by decide +kernel), by decide +kernel, by decide +kernel⟩

/-- Behind the hexadecimal digits that are halfway there is one that is not zero, and it is lost. -/
theorem all_wide_pastHalfway :
    2 ^ 127 ≤ pastHalfway ∧ pastHalfway + 2 ^ 970 < 2 ^ 1024 ∧ LostTie 16 pastHalfway ∧
      ∃ x y : Double, x.IsNearest pastHalfway ∧
        all "170141183460469250621153235194464960513".toList =
          .ok [⟨.number (.float x), ⟨0, 39⟩⟩] ∧
        all "0x80000000000004000000000000000001".toList = .ok [⟨.number (.float y), ⟨0, 34⟩⟩] ∧
        y.toNat + 1 = x.toNat := by
  have hwide : 2 ^ 127 ≤ pastHalfway := by decide +kernel
  have hfinite : pastHalfway + 2 ^ 970 < 2 ^ 1024 := by decide +kernel
  have htie : LostTie 16 pastHalfway := ⟨2 ^ 51, 2, 18, 1, by decide +kernel⟩
  obtain ⟨x, hx, hread⟩ := all_wide hwide hfinite
  obtain ⟨y, hy, -, hlost⟩ := (hread _).2 16 writesMarked_pastHalfway
  exact ⟨hwide, hfinite, htie, x, y, hx, (hread _).1 writesDecimal_pastHalfway, hy, hlost htie⟩

/-- Wide integers do not mean the same in every radix: the hexadecimal digits of this one are read
as `2 ^ 127`, and the decimal ones as the double after that, which is nearer. -/
theorem wide_literals_differ :
    ∃ n, 2 ^ 127 ≤ n ∧ n + 2 ^ 970 < 2 ^ 1024 ∧
      WritesDecimal "170141183460469250621153235194464960513".toList n ∧
      WritesMarked 16 "0x80000000000004000000000000000001".toList n ∧
      all "170141183460469250621153235194464960513".toList =
        .ok [⟨.number (.float 0x47e0000000000001#64), ⟨0, 39⟩⟩] ∧
      all "0x80000000000004000000000000000001".toList =
        .ok [⟨.number (.float 0x47e0000000000000#64), ⟨0, 34⟩⟩] :=
  ⟨pastHalfway, by decide +kernel, by decide +kernel, writesDecimal_pastHalfway,
    writesMarked_pastHalfway, by decide +kernel, by decide +kernel⟩

end Token

end Elementwise
