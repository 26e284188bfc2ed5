/-!
# Faults

Why a step of a running program has no value.
-/

namespace Elementwise

/-- The reason of an arithmetic fault. -/
inductive Fault where
  /-- The exact result does not fit the element type. -/
  | overflow
  /-- An integer was divided by zero. -/
  | divisionByZero
  /-- An integer was raised to a negative power. -/
  | negativeExponent
  /-- Finite numbers gave an infinity or no number. -/
  | nonFinite
deriving DecidableEq

/-- A fault in words. -/
def Fault.describe : Fault → String
  | .overflow => "arithmetic overflow"
  | .divisionByZero => "division by zero"
  | .negativeExponent => "negative integer exponent"
  | .nonFinite => "non-finite result"

end Elementwise
