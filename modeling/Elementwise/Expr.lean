import Elementwise.Literal
import Elementwise.Operation

/-!
# Expressions

The trees that equations are read into. The grammar is a little wider than what can be compiled:
quoted texts, conditionals and members of other things than `math` have trees too, so that they can
be named when they are refused.
-/

namespace Elementwise

/-- Operators on one operand: `+x`, `-x`, `~x`, `not x`. -/
inductive UnaryOp where
  | plus | minus | invert | not
deriving DecidableEq

/-- Operators on two operands. Comparisons and connectives give one or zero. -/
inductive BinaryOp where
  | add | sub | mul | div | floorDiv | mod | pow
  | shiftLeft | shiftRight | bitAnd | bitOr | bitXor
  | eq | ne | lt | le | gt | ge
  | and | or
deriving DecidableEq

/-- The kinds of nodes an equation has. -/
inductive Kind where
  | equation | number | quoted | name | member | unary | binary | comparison | connective | call
  | conditional
deriving DecidableEq

/-- A kind in the words of an error message. -/
def Kind.label : Kind → String
  | .equation => "expression"
  | .number => "number"
  | .quoted => "string literal"
  | .name => "name"
  | .member => "attribute"
  | .unary => "unary operator"
  | .binary => "binary operator"
  | .comparison => "comparison"
  | .connective => "boolean operator"
  | .call => "function call"
  | .conditional => "conditional expression"

namespace UnaryOp

/-- The operation an operator compiles to. -/
def operation : UnaryOp → Operation
  | .plus => .plus
  | .minus => .negate
  | .invert => .invert
  | .not => .not

end UnaryOp

namespace BinaryOp

/-- The operation an operator compiles to. -/
def operation : BinaryOp → Operation
  | .add => .add
  | .sub => .sub
  | .mul => .mul
  | .div => .div
  | .floorDiv => .floorDiv
  | .mod => .mod
  | .pow => .pow
  | .shiftLeft => .shiftLeft
  | .shiftRight => .shiftRight
  | .bitAnd => .bitAnd
  | .bitOr => .bitOr
  | .bitXor => .bitXor
  | .eq => .eq
  | .ne => .ne
  | .lt => .lt
  | .le => .le
  | .gt => .gt
  | .ge => .ge
  | .and => .and
  | .or => .or

/-- The kind of node an operator makes. -/
def kind : BinaryOp → Kind
  | .eq | .ne | .lt | .le | .gt | .ge => .comparison
  | .and | .or => .connective
  | _ => .binary

/-- Comparisons do not chain. -/
def isComparison (op : BinaryOp) : Bool :=
  op.kind == .comparison

end BinaryOp

/-- An expression. -/
inductive Expr where
  | number (value : Literal)
  | quoted (content : String)
  | name (word : String)
  /-- A member reference `value.field`. -/
  | member (value : Expr) (field : String)
  | unary (op : UnaryOp) (operand : Expr)
  | binary (op : BinaryOp) (left right : Expr)
  | call (function : Expr) (arguments : List Expr)
  /-- The conditional `body if test else alternative`. -/
  | conditional (test body alternative : Expr)

namespace Expr

/-- The kind of the root node. -/
def kind : Expr → Kind
  | .number _ => .number
  | .quoted _ => .quoted
  | .name _ => .name
  | .member .. => .member
  | .unary .. => .unary
  | .binary op .. => op.kind
  | .call .. => .call
  | .conditional .. => .conditional

/-- The name of a plain reference: `abs` for a name, `math.sin` for a member of a name. -/
def dottedName? : Expr → Option String
  | .name word => some word
  | .member (.name base) field => some (base ++ "." ++ field)
  | _ => none

/-! ## Height -/

mutual
/-- The height of a tree; a leaf has height one. -/
def height : Expr → Nat
  | .number _ | .quoted _ | .name _ => 1
  | .member value _ => value.height + 1
  | .unary _ operand => operand.height + 1
  | .binary _ left right => max left.height right.height + 1
  | .call function arguments => max function.height (heightOfAll arguments) + 1
  | .conditional test body alternative =>
    max (max body.height test.height) alternative.height + 1

/-- The greatest height among trees; zero if there is none. -/
def heightOfAll : List Expr → Nat
  | [] => 0
  | e :: rest => max e.height (heightOfAll rest)
end

/-! ## Visits -/

mutual
/-- The nodes visited from the root down, parents first and left to right, where only the nodes that
pass `descend` have their children visited. A conditional's body stands before its test in the text
and is visited first. -/
def visits (descend : Expr → Bool) : Expr → List Expr
  | .number value => [.number value]
  | .quoted content => [.quoted content]
  | .name word => [.name word]
  | .member value field =>
    let node := Expr.member value field
    node :: if descend node then value.visits descend else []
  | .unary op operand =>
    let node := Expr.unary op operand
    node :: if descend node then operand.visits descend else []
  | .binary op left right =>
    let node := Expr.binary op left right
    node :: if descend node then left.visits descend ++ right.visits descend else []
  | .call function arguments =>
    let node := Expr.call function arguments
    node ::
      if descend node then function.visits descend ++ visitsOfAll descend arguments else []
  | .conditional test body alternative =>
    let node := Expr.conditional test body alternative
    node ::
      if descend node then
        body.visits descend ++ test.visits descend ++ alternative.visits descend
      else []

/-- The nodes visited in several trees, one tree after the other. -/
def visitsOfAll (descend : Expr → Bool) : List Expr → List Expr
  | [] => []
  | e :: rest => e.visits descend ++ visitsOfAll descend rest
end

end Expr

/-- An equation is one expression. -/
structure Equation where
  body : Expr

end Elementwise
