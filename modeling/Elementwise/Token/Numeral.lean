import Elementwise.Mistake

/-!
# Numerals

Numbers are read greedily: everything that could belong to a number is taken first and judged
afterwards. An integer may be written in radix 2, 8 or 16 behind `0b`, `0o` and `0x`; a decimal may
have a point and an exponent. An underscore may stand between two digits.
-/

namespace Elementwise.Numeral

/-- The characters of a decimal digit run. -/
def isDigitOrUnderscore (c : Char) : Bool :=
  c.isDigit || c == '_'

/-- The value of a digit, letters counting on from ten in either case. -/
def digitValue (c : Char) : Nat :=
  if c.isDigit then c.toNat - '0'.toNat
  else if c.isLower then c.toNat - 'a'.toNat + 10
  else c.toNat - 'A'.toNat + 10

/-- Whether a letter or digit is a digit of a radix. -/
def isDigitOf (radix : Nat) (c : Char) : Bool :=
  digitValue c < radix

/-- The number a list of digits stands for. -/
def value (radix : Nat) (digits : List Char) : Nat :=
  digits.foldl (fun n c => n * radix + digitValue c) 0

/-- The digits of a run, without its underscores. -/
def digitsOf (run : List Char) : List Char :=
  run.filter (· != '_')

/-- A scanned number and the count of its characters, or a mistake and the count of the characters
it covers. -/
abbrev Scanned : Type :=
  Except (Mistake × Nat) (Literal × Nat)

/-! ## Integers with a radix -/

/-- The radix announced by the first two characters. -/
def radix? : List Char → Option Nat
  | '0' :: mark :: _ =>
    if mark == 'x' || mark == 'X' then some 16
    else if mark == 'o' || mark == 'O' then some 8
    else if mark == 'b' || mark == 'B' then some 2
    else none
  | _ => none

/-- Whether two underscores stand side by side. -/
def hasDoubleUnderscore : List Char → Bool
  | '_' :: '_' :: _ => true
  | _ :: rest => hasDoubleUnderscore rest
  | [] => false

/-- Whether the characters after a radix mark form an integer: at least one digit, digits of that
radix only, single underscores, and none at the end. -/
def isRadixBody (radix : Nat) (body : List Char) : Bool :=
  !(digitsOf body).isEmpty && body.getLast? != some '_' && !hasDoubleUnderscore body &&
    (digitsOf body).all (isDigitOf radix)

/-- The double of an integer too wide to stay exact, one digit after the other. -/
def wideValue (radix : Nat) (digits : List Char) : Float :=
  digits.foldl (fun x c => x * Float.ofNat radix + Float.ofNat (digitValue c)) 0.0

/-- The literal of a list of digits in a radix. -/
def radixLiteral (radix : Nat) (digits : List Char) : Literal :=
  if value radix digits < Literal.intBound then .int (value radix digits)
  else .float (Double.ofFloat (wideValue radix digits))

/-- The integer behind a radix mark. -/
def scanRadix (radix : Nat) (cs : List Char) : Scanned :=
  let body := (cs.drop 2).takeWhile Text.isWordChar
  if isRadixBody radix body then .ok (radixLiteral radix (digitsOf body), 2 + body.length)
  else .error (.badInteger, 2 + body.length)

/-! ## Decimals -/

/-- The parts of a decimal as they were taken from the text. -/
structure Written where
  whole : List Char
  /-- The characters after the point, if there is one. -/
  fraction : Option (List Char)
  /-- The exponent's mark, its sign if written, and its digits, if there is one. -/
  exponent : Option (Char × Option Char × List Char)

namespace Written

/-- All characters of a decimal, in order. -/
def chars (d : Written) : List Char :=
  d.whole ++ (d.fraction.map ('.' :: ·)).getD [] ++
    (match d.exponent with
      | some (mark, sign, digits) => mark :: sign.toList ++ digits
      | none => [])

/-- The exponent at the head of a text: a mark counts only if a digit follows it, or follows its
sign. -/
def exponentOf (cs : List Char) : Option (Char × Option Char × List Char) :=
  match cs with
  | mark :: rest =>
    if mark == 'e' || mark == 'E' then
      match rest with
      | next :: after =>
        if next == '+' || next == '-' then
          if after.head?.any Char.isDigit then
            some (mark, some next, after.takeWhile isDigitOrUnderscore)
          else none
        else if next.isDigit then some (mark, none, rest.takeWhile isDigitOrUnderscore)
        else none
      | [] => none
    else none
  | [] => none

/-- The decimal at the head of a text. -/
def take (cs : List Char) : Written :=
  let whole := cs.takeWhile isDigitOrUnderscore
  match cs.dropWhile isDigitOrUnderscore with
  | '.' :: rest =>
    ⟨whole, some (rest.takeWhile isDigitOrUnderscore),
      exponentOf (rest.dropWhile isDigitOrUnderscore)⟩
  | rest => ⟨whole, none, exponentOf rest⟩

/-- Whether a decimal has a point or an exponent. -/
def isFloat (d : Written) : Bool :=
  d.fraction.isSome || d.exponent.isSome

/-- The double nearest to a decimal. -/
def toDouble (d : Written) : Double :=
  let fraction := digitsOf (d.fraction.getD [])
  let mantissa := value 10 (digitsOf d.whole ++ fraction)
  let exponent : Int := match d.exponent with
    | some (_, sign, digits) =>
      if sign = some '-' then -(value 10 (digitsOf digits) : Int) else value 10 (digitsOf digits)
    | none => 0
  let scale := exponent - fraction.length
  Double.ofFloat (Float.ofScientific mantissa (scale < 0) scale.natAbs)

/-- The literal of a decimal: an integer unless a point or an exponent is written. -/
def literal (d : Written) : Literal :=
  if d.isFloat then .float d.toDouble else .ofNat (value 10 (digitsOf d.whole))

end Written

/-- Whether every underscore stands between two digits; `digit` says whether a digit came before. -/
def underscoresBetweenDigits : (digit : Bool) → List Char → Bool
  | _, [] => true
  | digit, c :: rest =>
    (c != '_' || (digit && rest.head?.any Char.isDigit)) && underscoresBetweenDigits c.isDigit rest

/-- The decimal number at the head of a text. -/
def scanDecimal (cs : List Char) : Scanned :=
  let d := Written.take cs
  if underscoresBetweenDigits false d.chars then .ok (d.literal, d.chars.length)
  else .error (.badNumber, d.chars.length)

/-! ## Numbers -/

/-- A number ends where neither a word nor a point goes on. -/
def goesOn (c : Char) : Bool :=
  Text.isWordChar c || c == '.'

/-- The number at the head of a text. -/
def scan (cs : List Char) : Scanned := do
  let (literal, count) ← match radix? cs with
    | some radix => scanRadix radix cs
    | none => scanDecimal cs
  let excess := (cs.drop count).takeWhile goesOn
  if excess.isEmpty then .ok (literal, count)
  else .error (.badNumber, count + excess.length)

end Elementwise.Numeral
