import Elementwise.Fault
import Elementwise.Operation

/-!
# Integer elements

An integer element is a word of 8, 16, 32 or 64 bits, read with or without a sign. Arithmetic is
done on the integers the words stand for; `settle` brings a result back into a word. With checking
on, a result outside the type's range is an overflow; with checking off it is reduced modulo `2 ^
bits`. Division by zero and negative powers have no value in either mode.
-/

namespace Elementwise

/-- The widths of integer elements. -/
inductive Width where
  | w8 | w16 | w32 | w64
deriving DecidableEq

/-- The count of bits. -/
def Width.bits : Width → Nat
  | .w8 => 8
  | .w16 => 16
  | .w32 => 32
  | .w64 => 64

/-- An integer element type. -/
structure IntType where
  isSigned : Bool
  width : Width
deriving DecidableEq

namespace IntType

/-- The count of bits of an element. -/
def bits (t : IntType) : Nat :=
  t.width.bits

/-- An element of the type. -/
abbrev Word (t : IntType) : Type :=
  BitVec t.bits

variable (t : IntType)

/-! ## Words and integers -/

/-- The least integer of the type. -/
def least : Int :=
  if t.isSigned then -(Nat.pow 2 (t.bits - 1) : Int) else 0

/-- The greatest integer of the type. -/
def greatest : Int :=
  if t.isSigned then (Nat.pow 2 (t.bits - 1) : Int) - 1 else (Nat.pow 2 t.bits : Int) - 1

/-- Whether the type can represent an integer. -/
def Fits (n : Int) : Prop :=
  t.least ≤ n ∧ n ≤ t.greatest

instance (n : Int) : Decidable (t.Fits n) :=
  inferInstanceAs (Decidable (_ ∧ _))

/-- The integer a word stands for. -/
def toInt (a : t.Word) : Int :=
  if t.isSigned then BitVec.toInt a else (BitVec.toNat a : Int)

/-- The word an integer is reduced to, modulo `2 ^ bits`. -/
def wrap (n : Int) : t.Word :=
  BitVec.ofInt t.bits n

/-- The word of an integer in range. -/
def ofInt? (n : Int) : Option t.Word :=
  if t.Fits n then some (t.wrap n) else none

/-- The word of an exact result: in range it is the result, and out of range an overflow or the
reduced result. -/
def settle (checked : Bool) (n : Int) : Except Fault t.Word :=
  match t.ofInt? n with
  | some a => .ok a
  | none => if checked then .error .overflow else .ok (t.wrap n)

/-- Every type has a bit. -/
theorem bits_pos : 0 < t.bits := by
  rcases t with ⟨_, w⟩
  cases w <;> exact Nat.succ_pos _

/-- Every word stands for an integer in range. -/
theorem fits_toInt (a : t.Word) : t.Fits (t.toInt a) := by
  have hpos := t.bits_pos
  unfold Fits least greatest toInt
  cases t.isSigned
  · have h : (a.toNat : Int) < ((2 ^ t.bits : Nat) : Int) := Int.ofNat_lt.mpr a.isLt
    have hp : ((2 ^ t.bits : Nat) : Int) = 2 ^ t.bits := Int.natCast_pow 2 t.bits
    simp only [Bool.false_eq_true, if_false, Nat.pow_eq]
    omega
  · have h1 := BitVec.le_toInt a
    have h2 := BitVec.toInt_lt (x := a)
    have hp : ((2 ^ (t.bits - 1) : Nat) : Int) = 2 ^ (t.bits - 1) := Int.natCast_pow 2 _
    simp only [if_true, Nat.pow_eq, hp]
    omega

/-- A word is the reduction of the integer it stands for. -/
@[simp] theorem wrap_toInt (a : t.Word) : t.wrap (t.toInt a) = a := by
  unfold wrap toInt
  cases t.isSigned <;> simp

/-- Reduction does not change an integer in range. -/
theorem toInt_wrap {n : Int} (h : t.Fits n) : t.toInt (t.wrap n) = n := by
  have hpos := t.bits_pos
  have hp (k : Nat) : ((2 ^ k : Nat) : Int) = 2 ^ k := Int.natCast_pow 2 k
  unfold Fits least greatest at h
  unfold toInt wrap
  cases hs : t.isSigned <;>
    simp only [hs, Bool.false_eq_true, if_false, if_true, Nat.pow_eq, hp] at h ⊢
  · rw [BitVec.toNat_ofInt, hp, Int.emod_eq_of_lt h.1 (by omega), Int.toNat_of_nonneg h.1]
  · have hh : (2 : Int) ^ t.bits = 2 * 2 ^ (t.bits - 1) := by
      obtain ⟨k, hk⟩ : ∃ k, t.bits = k + 1 := ⟨t.bits - 1, by omega⟩
      rw [hk, Int.pow_succ, Nat.add_sub_cancel, Int.mul_comm]
    have hwidth := hp t.bits
    rw [BitVec.toInt_ofInt]
    apply Int.bmod_eq_of_le <;> omega

/-- A number that fits is no overflow. -/
theorem settle_of_fits {n : Int} (h : t.Fits n) (checked : Bool) :
    t.settle checked n = .ok (t.wrap n) := by
  simp [settle, ofInt?, h]

/-- A number that does not fit is an overflow if overflows are checked, and else is wrapped. -/
theorem settle_of_not_fits {n : Int} (h : ¬t.Fits n) (checked : Bool) :
    t.settle checked n = if checked then .error .overflow else .ok (t.wrap n) := by
  simp [settle, ofInt?, h]

/-- Truth values are the numbers one and zero. -/
def truth (b : Bool) : t.Word :=
  t.wrap (if b then 1 else 0)

/-! ## Division

Quotients are truncated first and then corrected by at most one, and remainders by one divisor. -/

/-- The quotient toward zero. Only the least integer divided by minus one leaves the range, and it
wraps to itself. -/
def truncDiv (checked : Bool) (a b : t.Word) : Except Fault t.Word :=
  if t.toInt b = 0 then .error .divisionByZero
  else t.settle checked ((t.toInt a).tdiv (t.toInt b))

/-- The quotient toward negative infinity: one less than the truncated quotient if there is a
remainder and the signs differ. -/
def floorDiv (checked : Bool) (a b : t.Word) : Except Fault t.Word := do
  let q ← t.truncDiv checked a b
  let r := (t.toInt a).tmod (t.toInt b)
  if r ≠ 0 ∧ (decide (t.toInt a < 0)) ≠ (decide (t.toInt b < 0)) then .ok (t.wrap (t.toInt q - 1))
  else .ok q

/-- The remainder with the sign of the divisor. -/
def floorMod (a b : t.Word) : Except Fault t.Word :=
  if t.toInt b = 0 then .error .divisionByZero
  else
    let r := (t.toInt a).tmod (t.toInt b)
    if r ≠ 0 ∧ (decide (r < 0)) ≠ (decide (t.toInt b < 0)) then .ok (t.wrap (r + t.toInt b))
    else .ok (t.wrap r)

/-! ## Powers -/

/-- Square and multiply: `result · base ^ exponent`, settling after every multiplication. An
exponent below `2 ^ rounds` is used up. The last square is not computed, so it cannot overflow. -/
def powerLoop (checked : Bool) : (rounds exponent : Nat) → (base result : t.Word) →
    Except Fault t.Word
  | 0, _, _, result => .ok result
  | rounds + 1, exponent, base, result =>
    if exponent = 0 then .ok result
    else do
      let result ←
        if exponent % 2 = 1 then t.settle checked (t.toInt result * t.toInt base) else .ok result
      if exponent / 2 = 0 then .ok result
      else
        let square ← t.settle checked (t.toInt base * t.toInt base)
        powerLoop checked rounds (exponent / 2) square result

/-- `a` to the power of `b`. -/
def power (checked : Bool) (a b : t.Word) : Except Fault t.Word :=
  if t.toInt b < 0 then .error .negativeExponent
  else t.powerLoop checked t.bits (t.toInt b).toNat a (t.wrap 1)

/-! ## Shifts -/

/-- A shift count in the range of the bits. -/
def shiftCount? (b : t.Word) : Option Nat :=
  if 0 ≤ t.toInt b ∧ t.toInt b < t.bits then some (t.toInt b).toNat else none

/-- The low 32 bits of a count of any size. The count is widened to 64 bits first, by copies of its
sign if it has one. -/
def lowCount (b : t.Word) : BitVec 32 :=
  (if t.isSigned then b.signExtend 64 else b.setWidth 64).setWidth 32

/-- A shift count of any size. Only as many of its low bits are used as it takes to count the bits
of an element. -/
def shiftCount (b : t.Word) : Nat :=
  (t.lowCount b).toNat &&& (t.bits - 1)

/-- The bits shifted to the left; the high bits are lost. -/
def shiftBitsLeft (a : t.Word) (count : Nat) : t.Word :=
  a <<< count

/-- The bits shifted to the right; copies of the sign, or zeros, come in. -/
def shiftBitsRight (a : t.Word) (count : Nat) : t.Word :=
  if t.isSigned then a.sshiftRight count else a >>> count

/-- Shift to the left. A shift that does not come back lost a bit. -/
def shiftLeft (checked : Bool) (a b : t.Word) : Except Fault t.Word :=
  match t.shiftCount? b with
  | some count =>
    let shifted := t.shiftBitsLeft a count
    if checked ∧ t.shiftBitsRight shifted count ≠ a then .error .overflow else .ok shifted
  | none =>
    if checked then .error .overflow else .ok (t.shiftBitsLeft a (t.shiftCount b))

/-- Shift to the right. -/
def shiftRight (checked : Bool) (a b : t.Word) : Except Fault t.Word :=
  match t.shiftCount? b with
  | some count => .ok (t.shiftBitsRight a count)
  | none => if checked then .error .overflow else .ok (t.shiftBitsRight a (t.shiftCount b))

/-! ## Operations -/

/-- An operation on one word. Operations without a meaning here leave the word as it is. -/
def unary (op : Operation) (checked : Bool) (a : t.Word) : Except Fault t.Word :=
  match op with
  | .negate => t.settle checked (-t.toInt a)
  | .invert => .ok (~~~a)
  | .not => .ok (t.truth (t.toInt a == 0))
  | .abs => if t.toInt a < 0 then t.settle checked (-t.toInt a) else .ok a
  | _ => .ok a

/-- An operation on two words. Operations without a meaning here give the left one. -/
def binary (op : Operation) (checked : Bool) (a b : t.Word) : Except Fault t.Word :=
  match op with
  | .add => t.settle checked (t.toInt a + t.toInt b)
  | .sub => t.settle checked (t.toInt a - t.toInt b)
  | .mul => t.settle checked (t.toInt a * t.toInt b)
  | .div => t.truncDiv checked a b
  | .floorDiv => t.floorDiv checked a b
  | .mod => t.floorMod a b
  | .pow => t.power checked a b
  | .shiftLeft => t.shiftLeft checked a b
  | .shiftRight => t.shiftRight checked a b
  | .bitAnd => .ok (a &&& b)
  | .bitOr => .ok (a ||| b)
  | .bitXor => .ok (a ^^^ b)
  | .eq => .ok (t.truth (t.toInt a == t.toInt b))
  | .ne => .ok (t.truth (t.toInt a != t.toInt b))
  | .lt => .ok (t.truth (t.toInt a < t.toInt b))
  | .le => .ok (t.truth (t.toInt a ≤ t.toInt b))
  | .gt => .ok (t.truth (t.toInt b < t.toInt a))
  | .ge => .ok (t.truth (t.toInt b ≤ t.toInt a))
  | .and => .ok (t.truth (t.toInt a != 0 && t.toInt b != 0))
  | .or => .ok (t.truth (t.toInt a != 0 || t.toInt b != 0))
  | _ => .ok a

end IntType

end Elementwise
