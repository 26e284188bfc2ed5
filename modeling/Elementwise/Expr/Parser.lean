import Elementwise.Expr
import Elementwise.Mistake

/-!
# From tokens to expressions

Operators are read by binding power: an operand is followed by every operator that binds at least as
strongly as asked, and each of these takes a right operand that binds more strongly still. Powers
associate to the right, all other operators to the left.

Two limits keep trees small enough for everything that walks them. Expressions nest at most
`maxNesting` deep while they are read, and no tree is taller than `maxHeight`. The parsers recurse
on the nesting that is left (`room`); the repetitions inside them read at least one token a round,
so they are bounded by the number of tokens.
-/

namespace Elementwise

namespace Symbol

/-- The operator a symbol is between two operands. -/
def binary? : Symbol → Option BinaryOp
  | .plus => some .add
  | .minus => some .sub
  | .star => some .mul
  | .slash => some .div
  | .doubleSlash => some .floorDiv
  | .percent => some .mod
  | .doubleStar => some .pow
  | .shiftLeft => some .shiftLeft
  | .shiftRight => some .shiftRight
  | .ampersand => some .bitAnd
  | .bar => some .bitOr
  | .caret => some .bitXor
  | .equal => some .eq
  | .notEqual => some .ne
  | .less => some .lt
  | .lessEqual => some .le
  | .greater => some .gt
  | .greaterEqual => some .ge
  | .and => some .and
  | .or => some .or
  | .tilde | .not => none

/-- The operator a symbol is before an operand. -/
def unary? : Symbol → Option UnaryOp
  | .plus => some .plus
  | .minus => some .minus
  | .tilde => some .invert
  | .not => some .not
  | _ => none

end Symbol

namespace BinaryOp

/-- How strongly an operator binds. -/
def power : BinaryOp → Nat
  | .or => 1
  | .and => 2
  | .eq | .ne | .lt | .le | .gt | .ge => 4
  | .bitOr => 5
  | .bitXor => 6
  | .bitAnd => 7
  | .shiftLeft | .shiftRight => 8
  | .add | .sub => 9
  | .mul | .div | .floorDiv | .mod => 10
  | .pow => 12

/-- How strongly the right operand of an operator has to bind. -/
def rightPower (op : BinaryOp) : Nat :=
  if op = .pow then op.power else op.power + 1

end BinaryOp

/-- How strongly the operand of an operator on one operand has to bind. -/
def UnaryOp.power : UnaryOp → Nat
  | .not => 3
  | _ => 11

namespace Parser

/-- The deepest nesting of parentheses, calls and operators. -/
def maxNesting : Nat := 200

/-- The tallest tree. -/
def maxHeight : Nat := 1000

abbrev Tokens : Type :=
  List (Located Token)

/-- A tree and its height. -/
structure Grown where
  tree : Expr
  height : Nat

/-- What is read, or the first mistake. -/
abbrev Attempt : Type → Type :=
  Except (Located Mistake)

/-- A parser of expressions gives a tree and the tokens after it. -/
abbrev ExprParser : Type :=
  Tokens → Attempt (Grown × Tokens)

/-! ## Places and mistakes -/

/-- What every parser knows besides its tokens. -/
structure Context where
  /-- The span that stands for the end of the text. -/
  finish : Span
  /-- The height that no tree with a node above its leaves may exceed. -/
  tallest : Nat

/-- The span of the next token. -/
def place (c : Context) : Tokens → Span
  | [] => c.finish
  | t :: _ => t.span

/-- The mistake that something else was wanted here. -/
def unexpected (c : Context) (wanted : Wanted) (ts : Tokens) : Located Mistake :=
  ⟨.unexpected wanted (ts.head?.map (·.value)), place c ts⟩

/-- A new root over trees of height `below`, unless it would be too tall. -/
def grow (c : Context) (tree : Expr) (below : Nat) (span : Span) : Attempt Grown :=
  if c.tallest < below + 1 then .error ⟨.nestedTooDeeply, span⟩ else .ok ⟨tree, below + 1⟩

/-- The tokens after a closing parenthesis. -/
def closing (c : Context) : Tokens → Attempt Tokens
  | ⟨.rightParen, _⟩ :: rest => .ok rest
  | ts => .error (unexpected c .closingParen ts)

/-! ## Atoms, members and calls

These take the parser of whole expressions as an argument. -/

/-- A number, a quoted text, a name or an expression in parentheses. -/
def atom (c : Context) (whole : ExprParser) (ts : Tokens) : Attempt (Grown × Tokens) :=
  match ts with
  | ⟨.number value, _⟩ :: rest => .ok (⟨.number value, 1⟩, rest)
  | ⟨.quoted content, _⟩ :: rest => .ok (⟨.quoted content, 1⟩, rest)
  | ⟨.name word, _⟩ :: rest => .ok (⟨.name word, 1⟩, rest)
  | ⟨.leftParen, span⟩ :: ⟨.rightParen, _⟩ :: _ =>
    .error ⟨.unexpected .parenthesizedExpression (some .leftParen), span⟩
  | ⟨.leftParen, _⟩ :: rest => do
    let (inner, rest) ← whole rest
    let rest ← closing c rest
    .ok (inner, rest)
  | _ => .error (unexpected c .operand ts)

/-- The arguments of a call up to its closing parenthesis, and the greatest of their heights. A
comma may stand after the last argument. -/
def arguments (c : Context) (whole : ExprParser) :
    (rounds : Nat) → Tokens → Attempt ((List Expr × Nat) × Tokens)
  | _, ⟨.rightParen, span⟩ :: rest => .ok (([], 0), ⟨.rightParen, span⟩ :: rest)
  | 0, ts => .error (unexpected c .operand ts)
  | rounds + 1, ts => do
    let (first, after) ← whole ts
    match after with
    | ⟨.comma, _⟩ :: rest =>
      let ((others, height), rest) ← arguments c whole rounds rest
      .ok ((first.tree :: others, max first.height height), rest)
    | ⟨.rightParen, _⟩ :: _ => .ok (([first.tree], first.height), after)
    | [] => .error (unexpected c .closingParen [])
    | _ => .error (unexpected c .commaOrClosingParen after)

/-- The member references and calls that follow an operand. -/
def trailers (c : Context) (whole : ExprParser) :
    (rounds : Nat) → Grown → Tokens → Attempt (Grown × Tokens)
  | rounds + 1, operand, ⟨.dot, span⟩ :: rest =>
    match rest with
    | ⟨.name word, _⟩ :: rest => do
      let node ← grow c (.member operand.tree word) operand.height span
      trailers c whole rounds node rest
    | _ => .error (unexpected c .attributeName rest)
  | rounds + 1, operand, ⟨.leftParen, span⟩ :: rest => do
    let ((args, height), rest) ← arguments c whole (rest.length + 1) rest
    let rest ← closing c rest
    let node ← grow c (.call operand.tree args) (max operand.height height) span
    trailers c whole rounds node rest
  | _, operand, ts => .ok (operand, ts)

/-! ## Operators

These also take the parser of operands of a least power. -/

/-- An operand: an operator with its operand, or an atom with what follows it. The word `not` binds
too weakly to stand where a comparison or more is asked for. -/
def operand (c : Context) (whole : ExprParser) (part : Nat → ExprParser)
    (least : Nat) (ts : Tokens) : Attempt (Grown × Tokens) :=
  let plain : Attempt (Grown × Tokens) := do
    let (first, rest) ← atom c whole ts
    trailers c whole rest.length first rest
  match ts with
  | ⟨.symbol sign, span⟩ :: rest =>
    match sign.unary? with
    | some op =>
      if op = .not ∧ op.power < least then .error (unexpected c .operand ts)
      else do
        let (inner, rest) ← part op.power rest
        let node ← grow c (.unary op inner.tree) inner.height span
        .ok (node, rest)
    | none => plain
  | _ => plain

/-- Whether a comparison is next. -/
def comparisonAhead : Tokens → Bool
  | ⟨.symbol sign, _⟩ :: _ => sign.binary?.any BinaryOp.isComparison
  | _ => false

/-- The operators of at least power `least` that follow an operand, with their right operands. -/
def operators (c : Context) (part : Nat → ExprParser) (least : Nat) :
    (rounds : Nat) → Grown → Tokens → Attempt (Grown × Tokens)
  | rounds + 1, left, ⟨.symbol sign, span⟩ :: rest =>
    match sign.binary? with
    | some op =>
      if op.power < least then .ok (left, ⟨.symbol sign, span⟩ :: rest)
      else do
        let (right, rest) ← part op.rightPower rest
        if op.isComparison && comparisonAhead rest then .error ⟨.chainedComparison, span⟩
        else
          let node ← grow c (.binary op left.tree right.tree) (max left.height right.height) span
          operators c part least rounds node rest
    | none => .ok (left, ⟨.symbol sign, span⟩ :: rest)
  | _, left, ts => .ok (left, ts)

/-! ## Expressions -/

mutual
/-- A whole expression, conditionals included. -/
def whole (c : Context) : (room : Nat) → Tokens → Attempt (Grown × Tokens)
  | 0, ts => .error ⟨.nestedTooDeeply, place c ts⟩
  | room + 1, ts => do
    let (body, rest) ← part c room 0 ts
    match rest with
    | ⟨.keyword "if", span⟩ :: rest =>
      let (test, rest) ← part c room 0 rest
      match rest with
      | ⟨.keyword "else", _⟩ :: rest =>
        let (alternative, rest) ← whole c room rest
        let node ← grow c (.conditional test.tree body.tree alternative.tree)
          (max (max body.height test.height) alternative.height) span
        .ok (node, rest)
      | _ => .error (unexpected c .elseKeyword rest)
    | _ => .ok (body, rest)

/-- An expression whose operators bind with at least power `least`. -/
def part (c : Context) : (room : Nat) → (least : Nat) → Tokens → Attempt (Grown × Tokens)
  | 0, _, ts => .error ⟨.nestedTooDeeply, place c ts⟩
  | room + 1, least, ts => do
    let (left, rest) ← operand c (whole c room) (part c room) least ts
    operators c (part c room) least rest.length left rest
end

/-- The expression that all tokens form together. -/
def parse (finish : Span) (ts : Tokens) : Attempt Expr := do
  let c : Context := ⟨finish, maxHeight⟩
  let (result, rest) ← whole c maxNesting ts
  match rest with
  | [] => .ok result.tree
  | _ => .error (unexpected c .endOfEquation rest)

end Parser

end Elementwise
