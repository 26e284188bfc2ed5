import Elementwise.Number.Reading

/-!
# Decimal text of floating-point numbers

A positive number `m · 2^e` is compared with decimal grids in exact integer arithmetic. Two
questions are answered here: the fewest digits that read back as the same number
(`Decimal.shortest`), and the nearest decimal with a given count of digits (`Decimal.significant`).
A `Layout` then says how digits become text.
-/

namespace Elementwise

/-- The number `d₁.d₂d₃… · 10 ^ exponent`; `digits` are the characters `d₁d₂d₃…`. -/
structure Decimal where
  digits : List Char
  exponent : Int
deriving DecidableEq

/-- A fraction of natural numbers; the denominators in use are positive. -/
structure Ratio where
  num : Nat
  den : Nat

namespace Ratio

/-- The fraction `n · 2^e`. -/
def scaled (n : Nat) (e : Int) : Ratio :=
  if 0 ≤ e then ⟨n * Nat.pow 2 e.toNat, 1⟩ else ⟨n, Nat.pow 2 (-e).toNat⟩

/-- The fraction divided by `10^k`. -/
def perTen (r : Ratio) (k : Int) : Ratio :=
  if 0 ≤ k then ⟨r.num, r.den * Nat.pow 10 k.toNat⟩
  else ⟨r.num * Nat.pow 10 (-k).toNat, r.den⟩

/-- The largest natural number not above a fraction. -/
def floor (r : Ratio) : Nat :=
  r.num / r.den

/-- The order of a natural number and a fraction. -/
def compareNat (n : Nat) (r : Ratio) : Ordering :=
  compare (n * r.den) r.num

/-- The nearest natural number; a half goes up. -/
def nearest (r : Ratio) : Nat :=
  (2 * r.num + r.den) / (2 * r.den)

/-- The exponent `k` with `10^k ≤ r < 10^(k+1)`, for a positive fraction near `2^log`. The first
guess multiplies by a fraction just under `log₁₀ 2` and is then moved by at most one. -/
def decimalExponent (r : Ratio) (log : Int) : Int :=
  let guess := Int.fdiv (log * 1233) 4096
  if 10 ≤ (r.perTen guess).floor then guess + 1
  else if (r.perTen guess).floor = 0 then guess - 1
  else guess

end Ratio

namespace Decimal

/-- The characters of a natural number without the zeros at its end. -/
def bareDigits (n : Nat) : List Char :=
  ((Nat.toDigits 10 n).reverse.dropWhile (· == '0')).reverse

/-- The decimal `n · 10^k`. -/
def ofScaled (n : Nat) (k : Int) : Decimal :=
  ⟨bareDigits n, k + ((Nat.toDigits 10 n).length - 1)⟩

/-! ## The fewest digits -/

/-- The numbers that round to `m · 2^e`: those between the midpoints to its two neighbours. The
lower neighbour of a power of two is half as far. An end belongs to the interval if `m` is even. -/
structure Interval where
  low : Ratio
  high : Ratio
  closed : Bool

/-- The interval of `m · 2^e` in some precision. -/
def interval (p : Precision) (m : Nat) (e : Int) : Interval :=
  let closeBelow := m == Nat.pow 2 p.fractionBits && p.leastExponent < e
  { low := Ratio.scaled (4 * m - if closeBelow then 1 else 2) (e - 2)
    high := Ratio.scaled (4 * m + 2) (e - 2)
    closed := m % 2 == 0 }

/-- Whether `n · 10^k` lies in an interval. -/
def Interval.contains (i : Interval) (n : Nat) (k : Int) : Bool :=
  match Ratio.compareNat n (i.low.perTen k), Ratio.compareNat n (i.high.perTen k) with
  | .gt, .lt => true
  | .eq, _ => i.closed
  | _, .eq => i.closed
  | _, _ => false

/-- The candidate `n · 10^k` for the shortest text on one decimal grid: of the two neighbours of the
number on the grid the one in the interval, of two the nearer, and the upper one at a tie. -/
def onGrid (i : Interval) (value : Ratio) (k : Int) : Option Nat :=
  let scaled := value.perTen k
  let below := scaled.floor
  match i.contains below k, i.contains (below + 1) k with
  | true, true => some scaled.nearest
  | true, false => some below
  | false, true => some (below + 1)
  | false, false => none

/-- The fewest digits that read back as `m · 2^e`, for positive `m`: the first grid of 1, 2, … 17
digits that has a candidate. -/
def shortest (p : Precision) (m : Nat) (e : Int) : Decimal :=
  let value := Ratio.scaled m e
  let exponent := value.decimalExponent (m.log2 + e)
  let range := interval p m e
  let found := (List.range 17).findSome? fun (count : Nat) =>
    let k := exponent - count
    (onGrid range value k).map fun n => ofScaled n k
  found.getD (ofScaled (value.perTen (exponent - 16)).nearest (exponent - 16))

/-! ## A given count of digits -/

/-- The decimal with `count` digits nearest to `m · 2^e`, for positive `m` and `count`. -/
def significant (count : Nat) (m : Nat) (e : Int) : Decimal :=
  let value := Ratio.scaled m e
  let exponent := value.decimalExponent (m.log2 + e)
  let n := (value.perTen (exponent - (count - 1))).nearest
  if n = Nat.pow 10 count then ⟨(Nat.toDigits 10 n).take count, exponent + 1⟩
  else ⟨Nat.toDigits 10 n, exponent⟩

/-! ## Text -/

/-- Digits with an exponent: `1.5e-7`, `1e16`. -/
def scientific (d : Decimal) : String :=
  let mantissa := match d.digits with
    | first :: second :: rest => first :: '.' :: second :: rest
    | digits => digits
  s!"{String.ofList mantissa}e{d.exponent}"

/-- Digits without an exponent; `point` adds `.0` to whole numbers. -/
def positional (d : Decimal) (point : Bool) : String :=
  let zeros (n : Nat) : List Char := List.replicate n '0'
  let whole := (d.exponent + 1).toNat
  let text :=
    if d.exponent < 0 then '0' :: '.' :: (zeros (-d.exponent - 1).toNat ++ d.digits)
    else if d.digits.length ≤ whole then
      d.digits ++ zeros (whole - d.digits.length) ++ (if point then ['.', '0'] else [])
    else d.digits.take whole ++ '.' :: d.digits.drop whole
  String.ofList text

/-- How numbers are laid out: below or from which exponents scientifically, and whether whole
numbers keep a point. -/
structure Layout where
  scientificBelow : Option Int
  scientificFrom : Option Int
  wholePoint : Bool

namespace Layout

/-- Literals are always recognisable as floating-point: `1.0`, `0.0001`, `1e-5`, `1e16`. -/
def literal : Layout :=
  ⟨some (-4), some 16, true⟩

/-- Elements are written out in full: `1`, `0.1`, and all the digits of `1e300`. -/
def element : Layout :=
  ⟨none, none, false⟩

/-- Whether an exponent asks for scientific text. -/
def isScientific (l : Layout) (exponent : Int) : Bool :=
  l.scientificBelow.any (exponent < ·) || l.scientificFrom.any (· ≤ exponent)

/-- The text of a positive decimal. -/
def write (l : Layout) (d : Decimal) : String :=
  if l.isScientific d.exponent then d.scientific else d.positional l.wholePoint

end Layout

/-- The shortest text of a floating-point word that reads back as the same number. -/
def text (p : Precision) (l : Layout) (w : p.Word) : String :=
  let signed (negative : Bool) (body : String) : String := if negative then "-" ++ body else body
  match p.reading w with
  | .nan => "NaN"
  | .infinite negative => signed negative "inf"
  | .finite negative m e =>
    signed negative (l.write (if m = 0 then ⟨['0'], 0⟩ else shortest p m e))

/-- Scientific text with exactly `count` digits. -/
def rounded (p : Precision) (count : Nat) (w : p.Word) : String :=
  let signed (negative : Bool) (body : String) : String := if negative then "-" ++ body else body
  match p.reading w with
  | .nan => "nan"
  | .infinite negative => signed negative "inf"
  | .finite negative m e =>
    signed negative <| scientific <|
      if m = 0 then ⟨List.replicate count '0', 0⟩ else significant count m e

end Decimal

end Elementwise
