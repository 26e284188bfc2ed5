import Elementwise.Text.Chars

/-!
# Spans

A span is a range of bytes of the equation text. Errors carry spans so that they can point back into
the text, and quote the part they are about.
-/

namespace Elementwise

/-- The bytes from `start` up to, but not including, `stop`; both count from zero. -/
structure Span where
  start : Nat
  stop : Nat
deriving DecidableEq

namespace Span

/-- The span of one byte. -/
def single (position : Nat) : Span :=
  ⟨position, position + 1⟩

/-- A span that covers no byte says nothing about a place. -/
def isValid (s : Span) : Bool :=
  s.start < s.stop

/-- The characters a span covers, cut to the text; empty if an end falls inside a character. -/
def fragmentChars (s : Span) (source : List Char) : List Char :=
  let stop := min s.stop (Text.byteLength source)
  let start := min s.start stop
  ((Text.dropBytes start source).bind (Text.takeBytes (stop - start))).getD []

/-- The part of `source` a span covers. -/
def fragment (s : Span) (source : String) : String :=
  String.ofList (s.fragmentChars source.toList)

/-- The place in words, counting bytes from one; nothing for a span that covers no byte. -/
def describe (s : Span) : String :=
  if !s.isValid then ""
  else if s.stop - s.start == 1 then s!" at position {s.start + 1}"
  else s!" at positions {s.start + 1}-{s.stop}"

end Span

/-- Something that stands at a place of the text. -/
structure Located (α : Type) where
  value : α
  span : Span
deriving DecidableEq

end Elementwise
