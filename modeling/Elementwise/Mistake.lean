import Elementwise.Span
import Elementwise.Token

/-!
# Mistakes in equation text

What can be wrong with the form of an equation, apart from its meaning. A mistake is located by the
span it is about.
-/

namespace Elementwise

/-- What the grammar asks for at some place. -/
inductive Wanted where
  | operand
  | attributeName
  | elseKeyword
  | closingParen
  | commaOrClosingParen
  | parenthesizedExpression
  | endOfEquation
deriving DecidableEq

/-- What is asked for, in words. -/
def Wanted.describe : Wanted → String
  | .operand => "an operand"
  | .attributeName => "an attribute name"
  | .elseKeyword => "'else'"
  | .closingParen => "')'"
  | .commaOrClosingParen => "',' or ')'"
  | .parenthesizedExpression => "an expression inside parentheses"
  | .endOfEquation => "end of equation"

/-- A mistake in the form of an equation. -/
inductive Mistake where
  | nonAscii
  | unterminatedQuote
  | assignment
  | strayCharacter
  | badInteger
  | badNumber
  /-- Parentheses, calls and operators nest deeper than the grammar follows them. -/
  | nestedTooDeeply
  | chainedComparison
  /-- A token where another was wanted; none at the end of the text. -/
  | unexpected (wanted : Wanted) (found : Option Token)
deriving DecidableEq

/-- A mistake in words. -/
def Mistake.describe : Mistake → String
  | .nonAscii => "non-ASCII character"
  | .unterminatedQuote => "unterminated string literal"
  | .assignment => "assignment is not allowed in an equation"
  | .strayCharacter => "unexpected character"
  | .badInteger => "invalid integer literal"
  | .badNumber => "invalid number literal"
  | .nestedTooDeeply => "expression nested too deeply"
  | .chainedComparison => "chained comparisons are not supported"
  | .unexpected wanted found =>
    let what := (found.map Token.describe).getD "end of equation"
    s!"expected {wanted.describe}, found {what}"

end Elementwise
