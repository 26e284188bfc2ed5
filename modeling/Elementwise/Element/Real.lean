import Elementwise.Fault
import Elementwise.Number.Floating
import Elementwise.Operation

/-!
# Floating-point elements

A floating-point element is a word of 32 or 64 bits. Arithmetic is that of the element's own
precision. With checking on, finite operands have to give a finite result; what was not finite
before passes through.
-/

namespace Elementwise.Precision

variable (p : Precision)

/-- Whether a word is a zero of either sign. -/
def isZero (a : p.Word) : Bool :=
  p.decode a == Floating.zero

/-- The word of a native function of one number. -/
def apply (f : p.Native → p.Native) (a : p.Word) : p.Word :=
  p.encode (f (p.decode a))

/-- The word of a native function of two numbers. -/
def apply₂ (f : p.Native → p.Native → p.Native) (a b : p.Word) : p.Word :=
  p.encode (f (p.decode a) (p.decode b))

/-- The word of a truth value. -/
def truth (b : Bool) : p.Word :=
  p.encode (Floating.truth b)

/-- The value of an operation on one word. Signs are bits, and stay exact for every word. Operations
without a meaning here leave the word as it is. -/
def unaryValue (op : Operation) (a : p.Word) : p.Word :=
  match op with
  | .negate => p.negate a
  | .not => p.truth (p.isZero a)
  | .abs | .fabs => p.magnitude a
  | .acos => p.apply Floating.acos a
  | .acosh => p.apply Floating.acosh a
  | .asin => p.apply Floating.asin a
  | .asinh => p.apply Floating.asinh a
  | .atan => p.apply Floating.atan a
  | .atanh => p.apply Floating.atanh a
  | .ceil => p.apply Floating.ceil a
  | .cos => p.apply Floating.cos a
  | .cosh => p.apply Floating.cosh a
  | .degrees => p.apply Floating.degrees a
  | .exp => p.apply Floating.exp a
  | .expm1 => p.apply Floating.expMinusOne a
  | .floor => p.apply Floating.floor a
  | .log => p.apply Floating.log a
  | .log10 => p.apply Floating.log10 a
  | .log1p => p.apply Floating.logOnePlus a
  | .log2 => p.apply Floating.log2 a
  | .radians => p.apply Floating.radians a
  | .sin => p.apply Floating.sin a
  | .sinh => p.apply Floating.sinh a
  | .sqrt => p.apply Floating.sqrt a
  | .tan => p.apply Floating.tan a
  | .tanh => p.apply Floating.tanh a
  | .trunc => p.apply Floating.trunc a
  | _ => a

/-- The order of two words, as a relation on the numbers they stand for. -/
def less (a b : p.Word) : Bool :=
  Floating.below (p.decode a) (p.decode b)

/-- Whether two words stand for the same number; zeros are equal, and what is not a number is equal
to nothing. -/
def same (a b : p.Word) : Bool :=
  p.decode a == p.decode b

/-- The value of an operation on two words. Operations without a meaning here give the left one. -/
def binaryValue (op : Operation) (a b : p.Word) : p.Word :=
  match op with
  | .add => p.apply₂ (· + ·) a b
  | .sub => p.apply₂ (· - ·) a b
  | .mul => p.apply₂ (· * ·) a b
  | .div => p.apply₂ (· / ·) a b
  | .floorDiv => p.apply₂ (fun x y => Floating.floor (x / y)) a b
  | .mod => p.apply₂ Floating.modulo a b
  | .pow | .mathPow => p.apply₂ Floating.pow a b
  | .eq => p.truth (p.same a b)
  | .ne => p.truth (!p.same a b)
  | .lt => p.truth (p.less a b)
  | .le => p.truth (p.less a b || p.same a b)
  | .gt => p.truth (p.less b a)
  | .ge => p.truth (p.less b a || p.same a b)
  | .and => p.truth (!p.isZero a && !p.isZero b)
  | .or => p.truth (!p.isZero a || !p.isZero b)
  | .atan2 => p.apply₂ Floating.atan2 a b
  | .copysign => p.copySign a b
  | .fmod => p.apply₂ Floating.remainder a b
  | .hypot => p.apply₂ Floating.hypot a b
  | .ldexp => p.apply₂ Floating.scaleByPower a b
  | _ => a

/-- A result, refused if checking is on and finite operands gave what is not finite. -/
def settle (checked operandsFinite : Bool) (result : p.Word) : Except Fault p.Word :=
  if checked && operandsFinite && !p.isFinite result then .error .nonFinite else .ok result

/-- An operation on one word. -/
def unary (op : Operation) (checked : Bool) (a : p.Word) : Except Fault p.Word :=
  p.settle checked (p.isFinite a) (p.unaryValue op a)

/-- An operation on two words. -/
def binary (op : Operation) (checked : Bool) (a b : p.Word) : Except Fault p.Word :=
  p.settle checked (p.isFinite a && p.isFinite b) (p.binaryValue op a b)

end Elementwise.Precision
