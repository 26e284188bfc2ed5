import Elementwise.Token.Numeral

/-!
# From text to tokens

`Token.scan` reads the token at a character that is not a blank, and `Token.all` reads a whole text.
Positions count bytes. The characters a token covers are passed over one by one after it is read, so
the recursion follows the text.
-/

namespace Elementwise.Token

/-- What was found at a character. -/
inductive Scanned where
  /-- A token that covers the character and `more` characters after it. -/
  | token (value : Token) (more : Nat)
  /-- A mistake that covers `width` bytes. -/
  | mistake (what : Mistake) (width : Nat)

/-- A number from its first character on. Its characters are ASCII, one byte each. -/
def scanNumber (cs : List Char) : Scanned :=
  match Numeral.scan cs with
  | .ok (literal, count) => .token (.number literal) (count - 1)
  | .error (what, count) => .mistake what count

/-- A quoted text, up to the same quote on the same line. -/
def scanQuoted (quote : Char) (rest : List Char) : Scanned :=
  let content := rest.takeWhile fun c => c != quote && c != '\n'
  if (rest.drop content.length).head? = some quote then
    .token (.quoted (String.ofList content)) (content.length + 1)
  else .mistake .unterminatedQuote (1 + Text.byteLength content)

/-- An operator sign; two signs that form a symbol together are taken together. -/
def scanSymbol (c : Char) (rest : List Char) : Scanned :=
  match rest.head?.bind (Symbol.double? c) with
  | some sign => .token (.symbol sign) 1
  | none =>
    match Symbol.single? c with
    | some sign => .token (.symbol sign) 0
    | none => .mistake (if c = '=' then .assignment else .strayCharacter) 1

/-- The token that starts with `c`, which is not a blank. -/
def scan (c : Char) (rest : List Char) : Scanned :=
  if c.isDigit || (c == '.' && rest.head?.any Char.isDigit) then scanNumber (c :: rest)
  else if Text.isWordStart c then
    let more := rest.takeWhile Text.isWordChar
    .token (ofWord (String.ofList (c :: more))) more.length
  else if c = '\x27' || c = '\x22' then scanQuoted c rest
  else if c = '(' then .token .leftParen 0
  else if c = ')' then .token .rightParen 0
  else if c = ',' then .token .comma 0
  else if c = '.' then .token .dot 0
  else if 128 ≤ c.toNat then .mistake .nonAscii 1
  else scanSymbol c rest

/-- The tokens of a text that starts at byte `position`; the first `covered` characters belong to a
token already read. -/
def allFrom : (position covered : Nat) → List Char →
    Except (Located Mistake) (List (Located Token))
  | _, _, [] => .ok []
  | position, covered + 1, c :: rest => allFrom (position + c.utf8Size) covered rest
  | position, 0, c :: rest =>
    if Text.isBlank c then allFrom (position + 1) 0 rest
    else
      match scan c rest with
      | .mistake what width => .error ⟨what, ⟨position, position + width⟩⟩
      | .token value more =>
        match allFrom (position + c.utf8Size) more rest with
        | .ok tokens =>
          let width := c.utf8Size + Text.byteLength (rest.take more)
          .ok (⟨value, ⟨position, position + width⟩⟩ :: tokens)
        | .error e => .error e

/-- The tokens of a text, each with its span. -/
def all (source : List Char) : Except (Located Mistake) (List (Located Token)) :=
  allFrom 0 0 source

end Elementwise.Token
