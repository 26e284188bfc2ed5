import Elementwise.Number.Decimal
import Elementwise.Number.Floating

/-!
# Literals

A literal is a number as it is written in an equation or given for a parameter. Integers stay exact,
so that a range check against an element type sees the written value and not a rounded one.
-/

namespace Elementwise

/-- A number as written: an integer of at most 128 bits with its sign, or a double. -/
inductive Literal where
  | int (value : Int)
  | float (value : Double)
deriving DecidableEq

namespace Double

/-- The double a native number stands for. -/
def ofFloat (x : Float) : Double :=
  Precision.double.encode x

/-- The double nearest to an integer. -/
def ofInt (n : Int) : Double :=
  ofFloat (Float.ofInt n)

end Double

namespace Literal

/-- Integers lie between `-intBound` and `intBound - 1`. -/
def intBound : Nat :=
  Nat.pow 2 127

/-- A written integer: exact below the bound, and the nearest double from there on. -/
def ofNat (n : Nat) : Literal :=
  if n < intBound then .int n else .float (Double.ofFloat (Float.ofNat n))

/-- The literal with the other sign. The least integer has no negative of its kind and becomes a
double. -/
def negate : Literal → Literal
  | .int n => if n = -(intBound : Int) then .float (Double.ofInt intBound) else .int (-n)
  | .float x => .float (Precision.double.negate x)

/-- The literal as a double. -/
def toDouble : Literal → Double
  | .int n => Double.ofInt n
  | .float x => x

/-- The text of a literal. -/
def text : Literal → String
  | .int n => toString n
  | .float x => Decimal.text .double .literal x

end Literal

/-- The constants of the `math` library, by the name of the member. -/
def mathConstants : List (String × Double) :=
  [("pi", Double.ofFloat 3.141592653589793), ("e", Double.ofFloat 2.718281828459045),
    ("tau", Double.ofFloat 6.283185307179586)]

/-- The value of a member of `math` that is a constant. -/
def mathConstant? (member : String) : Option Double :=
  mathConstants.lookup member

end Elementwise
