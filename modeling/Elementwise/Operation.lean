/-!
# Operations

Every operation an equation can compile to, with its codes, the numeric families that may use it and
its effect on the stack. Integer programs, signed and unsigned, share one code space; floating-point
programs have another.
-/

namespace Elementwise

/-- The numeric family of an element type; it selects the code space. -/
inductive Family where
  | signed
  | unsigned
  | floating
deriving DecidableEq

namespace Family

/-- A family in the words of an error message. -/
def label : Family → String
  | .signed => "signed integer"
  | .unsigned => "unsigned integer"
  | .floating => "floating point"

def all : List Family :=
  [.signed, .unsigned, .floating]

end Family

/-- The operations, in the order of their table. -/
inductive Operation where
  -- pushes
  | pushElement | pushParameter | pushConstant
  -- signs and complements
  | negate | plus | invert | not
  -- arithmetic
  | add | sub | mul | div | floorDiv | mod | pow
  -- bits, integers only
  | shiftLeft | shiftRight | bitAnd | bitOr | bitXor
  -- comparisons and connectives
  | eq | ne | lt | le | gt | ge | and | or
  -- the built-in call
  | abs
  -- functions of one argument
  | acos | acosh | asin | asinh | atan | atanh | ceil | cos | cosh | degrees | exp | expm1 | fabs
  | floor | log | log10 | log1p | log2 | radians | sin | sinh | sqrt | tan | tanh | trunc
  -- functions of two arguments
  | atan2 | copysign | fmod | hypot | ldexp | mathPow
deriving DecidableEq

/-- What is known of an operation. -/
structure OperationInfo where
  /-- The symbolic name, such as `add` or `math.sin`. -/
  name : String
  /-- The code in integer programs. -/
  intCode : Option Nat
  /-- The code in floating-point programs. -/
  floatCode : Option Nat
  /-- Legal only where values have a sign. -/
  signedOnly : Bool
  /-- Called by the name of a `math` function. -/
  isMathCall : Bool
  /-- The count of values taken from the stack; one is put back. -/
  arity : Nat
  /-- Part of the extended function library. -/
  extended : Bool
deriving DecidableEq

namespace OperationInfo

/-- The change of the stack height. -/
def stackDelta (info : OperationInfo) : Int :=
  1 - info.arity

/-- The code for a family, if the operation is legal there. -/
def codeFor (info : OperationInfo) : Family → Option Nat
  | .signed => info.intCode
  | .unsigned => if info.signedOnly then none else info.intCode
  | .floating => info.floatCode

/-- Whether a program of a family may use the operation. -/
def isLegalFor (info : OperationInfo) (family : Family) : Bool :=
  (info.codeFor family).isSome

/-- A push has the same code everywhere. -/
def push (name : String) (code : Nat) : OperationInfo :=
  ⟨name, some code, some code, false, false, 0, false⟩

/-- An operator on one value. -/
def unary (name : String) (intCode floatCode : Option Nat) (signedOnly : Bool) : OperationInfo :=
  ⟨name, intCode, floatCode, signedOnly, false, 1, false⟩

/-- An operator on two values. -/
def binary (name : String) (intCode floatCode : Option Nat) : OperationInfo :=
  ⟨name, intCode, floatCode, false, false, 2, false⟩

/-- A function of the `math` library, for floating-point programs only. -/
def math (function : String) (floatCode arity : Nat) (extended : Bool) : OperationInfo :=
  ⟨"math." ++ function, none, some floatCode, false, true, arity, extended⟩

end OperationInfo

namespace Operation

/-- The table of operations. -/
def info : Operation → OperationInfo
  | .pushElement => .push "pusharray" 0
  | .pushParameter => .push "pushvar" 1
  | .pushConstant => .push "pushconst" 2
  | .negate => .unary "usub" (some 3) (some 3) true
  | .plus => .unary "uadd" (some 4) (some 4) false
  | .invert => .unary "invert" (some 5) none false
  | .not => .unary "not" (some 6) (some 5) false
  | .add => .binary "add" (some 7) (some 6)
  | .sub => .binary "sub" (some 8) (some 7)
  | .mul => .binary "mult" (some 9) (some 8)
  | .div => .binary "div" (some 10) (some 9)
  | .floorDiv => .binary "floordiv" (some 11) (some 10)
  | .mod => .binary "mod" (some 12) (some 11)
  | .pow => .binary "pow" (some 13) (some 12)
  | .shiftLeft => .binary "lshift" (some 14) none
  | .shiftRight => .binary "rshift" (some 15) none
  | .bitAnd => .binary "bitand" (some 16) none
  | .bitOr => .binary "bitor" (some 17) none
  | .bitXor => .binary "bitxor" (some 18) none
  | .eq => .binary "eq" (some 19) (some 13)
  | .ne => .binary "ne" (some 20) (some 14)
  | .lt => .binary "lt" (some 21) (some 15)
  | .le => .binary "le" (some 22) (some 16)
  | .gt => .binary "gt" (some 23) (some 17)
  | .ge => .binary "ge" (some 24) (some 18)
  | .and => .binary "and" (some 25) (some 19)
  | .or => .binary "or" (some 26) (some 20)
  | .abs => .unary "abs" (some 27) (some 21) true
  | .acos => .math "acos" 22 1 false
  | .acosh => .math "acosh" 23 1 true
  | .asin => .math "asin" 24 1 false
  | .asinh => .math "asinh" 25 1 true
  | .atan => .math "atan" 26 1 false
  | .atanh => .math "atanh" 27 1 true
  | .ceil => .math "ceil" 28 1 false
  | .cos => .math "cos" 29 1 false
  | .cosh => .math "cosh" 30 1 false
  | .degrees => .math "degrees" 31 1 false
  | .exp => .math "exp" 32 1 false
  | .expm1 => .math "expm1" 33 1 true
  | .fabs => .math "fabs" 34 1 false
  | .floor => .math "floor" 35 1 false
  | .log => .math "log" 36 1 false
  | .log10 => .math "log10" 37 1 false
  | .log1p => .math "log1p" 38 1 true
  | .log2 => .math "log2" 39 1 true
  | .radians => .math "radians" 40 1 false
  | .sin => .math "sin" 41 1 false
  | .sinh => .math "sinh" 42 1 false
  | .sqrt => .math "sqrt" 43 1 false
  | .tan => .math "tan" 44 1 false
  | .tanh => .math "tanh" 45 1 false
  | .trunc => .math "trunc" 46 1 true
  | .atan2 => .math "atan2" 47 2 false
  | .copysign => .math "copysign" 48 2 true
  | .fmod => .math "fmod" 49 2 false
  | .hypot => .math "hypot" 50 2 true
  | .ldexp => .math "ldexp" 51 2 false
  | .mathPow => .math "pow" 52 2 false

/-- All operations, in the order of their table. -/
def all : List Operation :=
  [.pushElement, .pushParameter, .pushConstant, .negate, .plus, .invert, .not, .add, .sub, .mul,
    .div, .floorDiv, .mod, .pow, .shiftLeft, .shiftRight, .bitAnd, .bitOr, .bitXor, .eq, .ne, .lt,
    .le, .gt, .ge, .and, .or, .abs, .acos, .acosh, .asin, .asinh, .atan, .atanh, .ceil, .cos,
    .cosh, .degrees, .exp, .expm1, .fabs, .floor, .log, .log10, .log1p, .log2, .radians, .sin,
    .sinh, .sqrt, .tan, .tanh, .trunc, .atan2, .copysign, .fmod, .hypot, .ldexp, .mathPow]

/-- The list of all operations leaves none out. -/
theorem mem_all (op : Operation) : op ∈ all := by
  cases op <;> decide

/-- The symbolic name. -/
def name (op : Operation) : String :=
  op.info.name

/-- The operation with a symbolic name. -/
def ofName? (name : String) : Option Operation :=
  all.find? fun op => op.name == name

/-- The operation that a code stands for in programs of a family; none if the code is unknown or the
operation is not legal there. -/
def ofCode? (family : Family) (code : Nat) : Option Operation :=
  all.find? fun op => op.info.codeFor family == some code

/-- Names of built-in calls outside the `math` library. -/
def builtins : List String :=
  ["abs"]

/-- Whether an equation may call a function of this name. -/
def isCallable (name : String) : Bool :=
  name ∈ builtins || (ofName? name).any (·.info.isMathCall)

end Operation

/-- Names that never stand for a variable. -/
def reservedNames : List String :=
  ["math", "abs"]

end Elementwise
