import Elementwise.Literal

/-!
# Tokens

The words and signs that equation text is made of. Operators that are spelled as words (`and`, `or`,
`not`) are symbols like the others; `if` and `else` are keywords that the grammar knows, and every
other keyword is refused wherever it stands.
-/

namespace Elementwise

/-- Operator signs. -/
inductive Symbol where
  | plus | minus | star | slash | doubleSlash | percent | doubleStar
  | shiftLeft | shiftRight | ampersand | bar | caret | tilde
  | equal | notEqual | less | lessEqual | greater | greaterEqual
  | and | or | not
deriving DecidableEq

namespace Symbol

/-- How a symbol is spelled. -/
def text : Symbol → String
  | .plus => "+"
  | .minus => "-"
  | .star => "*"
  | .slash => "/"
  | .doubleSlash => "//"
  | .percent => "%"
  | .doubleStar => "**"
  | .shiftLeft => "<<"
  | .shiftRight => ">>"
  | .ampersand => "&"
  | .bar => "|"
  | .caret => "^"
  | .tilde => "~"
  | .equal => "=="
  | .notEqual => "!="
  | .less => "<"
  | .lessEqual => "<="
  | .greater => ">"
  | .greaterEqual => ">="
  | .and => "and"
  | .or => "or"
  | .not => "not"

/-- The symbol spelled by two signs. -/
def double? : Char → Char → Option Symbol
  | '*', '*' => some .doubleStar
  | '/', '/' => some .doubleSlash
  | '<', '<' => some .shiftLeft
  | '>', '>' => some .shiftRight
  | '<', '=' => some .lessEqual
  | '>', '=' => some .greaterEqual
  | '=', '=' => some .equal
  | '!', '=' => some .notEqual
  | _, _ => none

/-- The symbol spelled by one sign. -/
def single? : Char → Option Symbol
  | '+' => some .plus
  | '-' => some .minus
  | '*' => some .star
  | '/' => some .slash
  | '%' => some .percent
  | '&' => some .ampersand
  | '|' => some .bar
  | '^' => some .caret
  | '~' => some .tilde
  | '<' => some .less
  | '>' => some .greater
  | _ => none

end Symbol

/-- The words an equation may not use as names. -/
def keywords : List String :=
  ["False", "None", "True", "and", "as", "assert", "async", "await", "break", "class",
    "continue", "def", "del", "elif", "else", "except", "finally", "for", "from", "global",
    "if", "import", "in", "is", "lambda", "nonlocal", "not", "or", "pass", "raise",
    "return", "try", "while", "with", "yield"]

/-- A token of equation text. -/
inductive Token where
  | number (value : Literal)
  | quoted (content : String)
  | name (word : String)
  | keyword (word : String)
  | symbol (sign : Symbol)
  | leftParen
  | rightParen
  | comma
  | dot
deriving DecidableEq

namespace Token

/-- The token a word stands for. -/
def ofWord (word : String) : Token :=
  if word = "and" then .symbol .and
  else if word = "or" then .symbol .or
  else if word = "not" then .symbol .not
  else if word ∈ keywords then .keyword word
  else .name word

/-- A token in the words of an error message. -/
def describe : Token → String
  | .number value => s!"number {value.text}"
  | .quoted _ => "string literal"
  | .name word => s!"name '{word}'"
  | .keyword word => s!"keyword '{word}'"
  | .symbol sign => s!"operator '{sign.text}'"
  | .leftParen => "'('"
  | .rightParen => "')'"
  | .comma => "','"
  | .dot => "'.'"

end Token

end Elementwise
