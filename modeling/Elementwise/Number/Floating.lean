import Elementwise.Number.Reading

/-!
# Floating-point arithmetic

`Floating α` collects the arithmetic that both precisions have natively. The functions that are not
native are derived from it once: truncation, the exact remainder, and the functions that need care
near zero (`exp x - 1`, `log (1 + x)`) together with the inverse hyperbolic functions built on them.

A word is decoded into its native number, the arithmetic is done there, and the result is encoded.
-/

namespace Elementwise

/-- Native floating-point arithmetic of one precision. -/
class Floating (α : Type) extends Add α, Sub α, Mul α, Div α, Neg α, BEq α where
  /-- The nearest number of this precision. -/
  ofFloat : Float → α
  /-- Whether the first number is below the second; never for what is not a number. -/
  below : α → α → Bool
  /-- What a number stands for. -/
  reading : α → Reading
  /-- The number `n · 2^e`, where it can be represented. -/
  scaled : Nat → Int → α
  abs : α → α
  floor : α → α
  ceil : α → α
  sqrt : α → α
  exp : α → α
  exp2 : α → α
  log : α → α
  log2 : α → α
  log10 : α → α
  sin : α → α
  cos : α → α
  tan : α → α
  asin : α → α
  acos : α → α
  atan : α → α
  sinh : α → α
  cosh : α → α
  tanh : α → α
  atan2 : α → α → α
  pow : α → α → α
  /-- The length `√(x² + y²)`, without overflow on the way. -/
  hypot : α → α → α
  /-- The first number with the sign of the second. -/
  copySign : α → α → α

namespace Precision

/-- The type of native numbers. -/
def Native : Precision → Type
  | .single => Float32
  | .double => Float

/-- The native number of a word. -/
def decode : (p : Precision) → p.Word → p.Native
  | .single, w => Float32.ofBits (UInt32.ofBitVec w)
  | .double, w => Float.ofBits (UInt64.ofBitVec w)

/-- The word of a native number. -/
def encode : (p : Precision) → p.Native → p.Word
  | .single, x => (x : Float32).toBits.toBitVec
  | .double, x => (x : Float).toBits.toBitVec

end Precision

/-! ## The two precisions -/

/-- The largest of two magnitudes decides whether squares would leave the range of doubles; then the
length is computed on numbers scaled by a power of two. Infinity wins over what is not a number. -/
def doubleHypot (x y : Float) : Float :=
  if x.isInf || y.isInf then Float.ofBits 0x7ff0000000000000
  else
    let size := max x.abs y.abs
    let length (a b : Float) : Float := (a * a + b * b).sqrt
    if 1e150 < size then (length (x.scaleB (-600)) (y.scaleB (-600))).scaleB 600
    else if size < 1e-130 then (length (x.scaleB 600) (y.scaleB 600)).scaleB (-600)
    else length x y

/-- Doubles. -/
instance : Floating Float where
  ofFloat x := x
  below x y := x < y
  reading x := Precision.double.reading (Precision.double.encode x)
  scaled n e := (Float.ofNat n).scaleB e
  abs := Float.abs
  floor := Float.floor
  ceil := Float.ceil
  sqrt := Float.sqrt
  exp := Float.exp
  exp2 := Float.exp2
  log := Float.log
  log2 := Float.log2
  log10 := Float.log10
  sin := Float.sin
  cos := Float.cos
  tan := Float.tan
  asin := Float.asin
  acos := Float.acos
  atan := Float.atan
  sinh := Float.sinh
  cosh := Float.cosh
  tanh := Float.tanh
  atan2 := Float.atan2
  pow := Float.pow
  hypot := doubleHypot
  copySign x y :=
    Precision.double.decode
      (Precision.double.copySign (Precision.double.encode x) (Precision.double.encode y))

/-- Singles. -/
instance : Floating Float32 where
  ofFloat := Float.toFloat32
  below x y := x < y
  reading x := Precision.single.reading (Precision.single.encode x)
  scaled n e := (Float32.ofNat n).scaleB e
  abs := Float32.abs
  floor := Float32.floor
  ceil := Float32.ceil
  sqrt := Float32.sqrt
  exp := Float32.exp
  exp2 := Float32.exp2
  log := Float32.log
  log2 := Float32.log2
  log10 := Float32.log10
  sin := Float32.sin
  cos := Float32.cos
  tan := Float32.tan
  asin := Float32.asin
  acos := Float32.acos
  atan := Float32.atan
  sinh := Float32.sinh
  cosh := Float32.cosh
  tanh := Float32.tanh
  atan2 := Float32.atan2
  pow := Float32.pow
  -- Squares of singles stay within the range of doubles.
  hypot x y := (doubleHypot x.toFloat y.toFloat).toFloat32
  copySign x y :=
    Precision.single.decode
      (Precision.single.copySign (Precision.single.encode x) (Precision.single.encode y))

/-- The numbers of a precision. -/
instance (p : Precision) : Floating p.Native :=
  match p with
  | .single => inferInstanceAs (Floating Float32)
  | .double => inferInstanceAs (Floating Float)

/-! ## Derived functions -/

namespace Floating

variable {α : Type} [Floating α]

/-- The number zero. -/
def zero : α := ofFloat 0.0

/-- The number one. -/
def one : α := ofFloat 1.0

/-- The positive infinity. -/
def infinity : α := one / zero

/-- Truth values are the numbers one and zero. -/
def truth (b : Bool) : α := if b then one else zero

/-- The whole part, toward zero; a zero keeps the sign of the number. -/
def trunc (x : α) : α :=
  if below x zero then ceil x else floor x

/-- The exact remainder of truncated division, with the sign of the dividend. -/
def remainder (x y : α) : α :=
  match reading x, reading y with
  | .finite negative m e, .finite _ n f =>
    if n = 0 then zero / zero
    else
      let low := min e f
      let rest := (m <<< (e - low).toNat) % (n <<< (f - low).toNat)
      if negative then -scaled rest low else scaled rest low
  | .finite .., .infinite _ => x
  | _, _ => zero / zero

/-- The remainder with the sign of the divisor. -/
def modulo (x y : α) : α :=
  let r := remainder x y
  if !(r == zero) && below r zero != below y zero then r + y else r

/-- `exp x - 1` without cancellation: the error of `exp x` near one is undone by dividing by the
logarithm of the very number it was computed as. -/
def expMinusOne (x : α) : α :=
  let u := exp x
  if u == one then x
  else if u - one == -one then -one
  else if u == infinity then u
  else (u - one) * (x / log u)

/-- `log (1 + x)` without cancellation, by the same correction. -/
def logOnePlus (x : α) : α :=
  let u := one + x
  if u == one then x
  else if u == infinity then u
  else log u * (x / (u - one))

/-- The inverse of the hyperbolic sine. -/
def asinh (x : α) : α :=
  let size := abs x
  let inverse := one / size
  copySign (logOnePlus (size + size / (hypot one inverse + inverse))) x

/-- The inverse of the hyperbolic cosine. -/
def acosh (x : α) : α :=
  if below x one then zero / zero
  else log (x + sqrt (x - one) * sqrt (x + one))

/-- The inverse of the hyperbolic tangent. -/
def atanh (x : α) : α :=
  ofFloat 0.5 * logOnePlus (ofFloat 2.0 * x / (one - x))

/-- The ratio of a circle's circumference to its diameter. -/
def pi : α := ofFloat 3.141592653589793

/-- An angle in radians, in degrees. -/
def degrees (x : α) : α :=
  x * ofFloat (180.0 / 3.141592653589793)

/-- An angle in degrees, in radians. -/
def radians (x : α) : α :=
  x * (pi / ofFloat 180.0)

/-- `x · 2^y` for the whole part of `y`. The power is rounded on its own, so a huge power overflows
even where the product would not. -/
def scaleByPower (x y : α) : α :=
  x * exp2 (trunc y)

end Floating

end Elementwise
