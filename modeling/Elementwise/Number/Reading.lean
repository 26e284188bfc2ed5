/-!
# Reading binary floating-point words

A floating-point word has a sign bit, an exponent field and a fraction field. A `Precision` says how
wide the fields are, and a `Reading` is what a word stands for: the exact number `±m · 2^e`, an
infinity, or no number at all. Everything the library prints, truncates or compares exactly goes
through readings.
-/

namespace Elementwise

/-- The two floating-point precisions. -/
inductive Precision where
  | single
  | double
deriving DecidableEq

namespace Precision

/-- The width of the fraction field. -/
def fractionBits : Precision → Nat
  | .single => 23
  | .double => 52

/-- The width of the exponent field. -/
def exponentBits : Precision → Nat
  | .single => 8
  | .double => 11

/-- The width of a word. -/
def bits : Precision → Nat
  | .single => 32
  | .double => 64

/-- A word has a sign, an exponent and a fraction. -/
theorem bits_eq (p : Precision) : p.bits = 1 + p.exponentBits + p.fractionBits := by
  cases p <;> rfl

/-- The exponent of the last fraction bit of the smallest numbers. -/
def leastExponent (p : Precision) : Int :=
  2 - Nat.pow 2 (p.exponentBits - 1) - p.fractionBits

end Precision

/-- What a floating-point word stands for. -/
inductive Reading where
  /-- Not a number. -/
  | nan
  | infinite (negative : Bool)
  /-- The number `mantissa · 2 ^ exponent`, or its negative; the mantissa may be zero. -/
  | finite (negative : Bool) (mantissa : Nat) (exponent : Int)
deriving DecidableEq

/-- The reading with the other sign. -/
def Reading.negate : Reading → Reading
  | .nan => .nan
  | .infinite negative => .infinite !negative
  | .finite negative m e => .finite (!negative) m e

/-- A word of some precision. -/
abbrev Precision.Word (p : Precision) : Type :=
  BitVec p.bits

/-- A number in double precision, by its word. -/
abbrev Double : Type :=
  Precision.double.Word

namespace Precision

variable (p : Precision)

/-- The fraction field of a word. -/
def fraction (w : p.Word) : Nat :=
  w.toNat % Nat.pow 2 p.fractionBits

/-- The exponent field of a word. -/
def exponentField (w : p.Word) : Nat :=
  w.toNat / Nat.pow 2 p.fractionBits % Nat.pow 2 p.exponentBits

/-- The word that has only the sign bit set. -/
def signMask : p.Word :=
  BitVec.ofNat p.bits (Nat.pow 2 (p.bits - 1))

/-- Whether the sign bit of a word is set. -/
def isNegative (w : p.Word) : Bool :=
  w.msb

/-- The word with the other sign. -/
def negate (w : p.Word) : p.Word :=
  w ^^^ p.signMask

/-- The word without its sign. -/
def magnitude (w : p.Word) : p.Word :=
  w &&& ~~~p.signMask

/-- The magnitude of `a` with the sign of `b`. -/
def copySign (a b : p.Word) : p.Word :=
  p.magnitude a ||| (b &&& p.signMask)

/-- A word is finite unless its exponent field is all ones. -/
def isFinite (w : p.Word) : Bool :=
  p.exponentField w != Nat.pow 2 p.exponentBits - 1

/-- What a word stands for. A zero exponent field has no leading one and shares the exponent of the
field one. -/
def reading (w : p.Word) : Reading :=
  let field := p.exponentField w
  if !p.isFinite w then
    if p.fraction w = 0 then .infinite (p.isNegative w) else .nan
  else if field = 0 then
    .finite (p.isNegative w) (p.fraction w) p.leastExponent
  else
    .finite (p.isNegative w) (Nat.pow 2 p.fractionBits + p.fraction w)
      (p.leastExponent + (field - 1))

/-! ## The sign bit

Changing the sign bit leaves the other two fields alone, for words that are not numbers as well. -/

/-- The mask of the sign is the greatest power of two in a word. -/
theorem toNat_signMask : p.signMask.toNat = Nat.pow 2 (p.bits - 1) := by
  cases p <;> rfl

/-- Two signs cancel each other. -/
@[simp] theorem negate_negate (w : p.Word) : p.negate (p.negate w) = w := by
  unfold negate
  rw [BitVec.xor_assoc, BitVec.xor_self, BitVec.xor_zero]

/-- A sign is turned round. -/
@[simp] theorem isNegative_negate (w : p.Word) : p.isNegative (p.negate w) = !p.isNegative w := by
  have hmask : p.signMask.msb = true := by cases p <;> rfl
  unfold isNegative negate
  rw [BitVec.msb_xor, hmask, Bool.xor_true]

/-- The sign is no part of the fraction. -/
@[simp] theorem fraction_negate (w : p.Word) : p.fraction (p.negate w) = p.fraction w := by
  have hmask : 2 ^ (p.bits - 1) % 2 ^ p.fractionBits = 0 := by cases p <;> rfl
  unfold fraction negate
  simp only [Nat.pow_eq, BitVec.toNat_xor, toNat_signMask, Nat.xor_mod_two_pow, hmask,
    Nat.xor_zero]

/-- The sign is no part of the exponent. -/
@[simp] theorem exponentField_negate (w : p.Word) :
    p.exponentField (p.negate w) = p.exponentField w := by
  have hmask : 2 ^ (p.bits - 1) / 2 ^ p.fractionBits % 2 ^ p.exponentBits = 0 := by
    cases p <;> rfl
  unfold exponentField negate
  simp only [Nat.pow_eq, BitVec.toNat_xor, toNat_signMask, Nat.xor_div_two_pow,
    Nat.xor_mod_two_pow, hmask, Nat.xor_zero]

/-- Numbers stay finite under a sign. -/
@[simp] theorem isFinite_negate (w : p.Word) : p.isFinite (p.negate w) = p.isFinite w := by
  unfold isFinite
  rw [exponentField_negate]

/-- Changing the sign bit changes the sign of what the word stands for, and nothing else. -/
theorem reading_negate (w : p.Word) : p.reading (p.negate w) = (p.reading w).negate := by
  unfold reading
  simp only [exponentField_negate, isFinite_negate, isNegative_negate, fraction_negate]
  split
  · split <;> rfl
  · split <;> rfl

end Precision

namespace Reading

/-- The number cut toward zero to an integer, if there is a number. -/
def truncate? : Reading → Option Int
  | .finite negative m e =>
    let whole : Nat := if 0 ≤ e then m * Nat.pow 2 e.toNat else m / Nat.pow 2 (-e).toNat
    some (if negative then -(whole : Int) else whole)
  | _ => none

end Reading

end Elementwise
