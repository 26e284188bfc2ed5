import Elementwise.Error
import Elementwise.Expr.Parser
import Elementwise.Token.Lexer

/-!
# Reading equations

A text passes a few cheap tests first: it is not blank, it has as many opening as closing
parentheses, and it has no character that never stands in an equation. Then it is read into tokens
and the tokens into a tree.
-/

namespace Elementwise.Equation

/-- Characters that never stand in an equation. -/
def illegalCharacters : List Char :=
  ['\x60', '@', '#', '$', ';', ':', '[', ']', '\x7b', '\x7d', '\x5c']

/-- The first illegal character of a text that starts at byte `position`. -/
def firstIllegal? : (position : Nat) → List Char → Option (Located Char)
  | _, [] => none
  | position, c :: rest =>
    if c ∈ illegalCharacters then some ⟨c, .single position⟩
    else firstIllegal? (position + c.utf8Size) rest

/-- The tests a text passes before it is read. -/
def precheck (source : List Char) : Except Error Unit :=
  let opening := source.count '('
  let closing := source.count ')'
  if source.all Text.isSpace then .error .emptyEquation
  else if opening ≠ closing then .error (.unbalancedParentheses opening closing)
  else
    match firstIllegal? 0 source with
    | some found => .error (.illegalCharacter found.value found.span)
    | none => .ok ()

/-- The span that stands for the end of a text: its last byte that is not white space. -/
def finish (source : List Char) : Span :=
  let stop := Text.byteLength (Text.trimEnd source)
  ⟨stop - 1, stop⟩

/-- The error of a mistake, which quotes the text. -/
def mistakeError (source : List Char) (m : Located Mistake) : Error :=
  .invalidSyntax m.value (String.ofList (m.span.fragmentChars source)) m.span

/-- The equation of tokens that were read from a text. -/
def ofTokens (source : List Char) (tokens : List (Located Token)) : Except Error Equation :=
  if tokens.isEmpty then .error .emptyEquation
  else
    match Parser.parse (finish source) tokens with
    | .ok tree => .ok ⟨tree⟩
    | .error m => .error (mistakeError source m)

/-- Read a text without testing it first. -/
def read (source : List Char) : Except Error Equation :=
  match Token.all source with
  | .ok tokens => ofTokens source tokens
  | .error m => .error (mistakeError source m)

/-- Read the text of an equation. -/
def parse (text : String) : Except Error Equation := do
  precheck text.toList
  read text.toList

end Elementwise.Equation
