import Elementwise.Element
import Elementwise.Expr
import Elementwise.Mistake

/-!
# Errors

Why an equation is refused or a run fails, as causes. The wording of every cause is in `message`,
and `kind` sorts the causes into four kinds.
-/

namespace Elementwise

/-- The kinds of errors. -/
inductive ErrorKind where
  /-- The text is not an expression. -/
  | parse
  /-- The expression, a name, an operation or an argument is not permitted. -/
  | validation
  /-- A value does not fit the element type. -/
  | typeRange
  /-- The instructions would leave the stack. -/
  | stack
deriving DecidableEq

/-- Constructs of the grammar that cannot be compiled. -/
inductive Construct where
  | quoted (content : String)
  | member (field : String) (of : Kind)
  | conditional
  | callOf (callee : Kind)
  | nameAsValue (name : String)
  | memberAsValue (field : String)
deriving DecidableEq

/-- A construct in words. -/
def Construct.describe : Construct → String
  | .quoted content => s!"string literal '{content}'"
  | .member field of => s!"member access '.{field}' on a {of.label}"
  | .conditional => Kind.conditional.label
  | .callOf callee => s!"call of a {callee.label}"
  | .nameAsValue name => s!"'{name}' cannot be used as a value"
  | .memberAsValue field => s!"'math.{field}' cannot be used as a value"

/-- What is wrong with the arguments of a compilation or of a run. -/
inductive ArgumentIssue where
  | tooManyParameters
  | programLengths (codes registers constants : Nat)
  | arrayLengths (source destination : Nat)
  | noLanes
  | unknownCode (position code : Nat) (family : Family)
  | missingRegister (position register given : Nat)
  | unusedParameters (given used : Nat)
  | scratchTooSmall (size depth lanes : Nat)
  | parameterCount (expected given : Nat)
deriving DecidableEq

/-- An issue in words. -/
def ArgumentIssue.describe : ArgumentIssue → String
  | .tooManyParameters => "too many parameters"
  | .programLengths codes registers constants =>
    s!"program arrays differ in length ({codes}, {registers}, {constants})"
  | .arrayLengths source destination =>
    s!"source has {source} elements but destination has {destination}"
  | .noLanes => "lane count must be positive"
  | .unknownCode position code family =>
    s!"instruction {position}: code {code} is not a {family.label} operation"
  | .missingRegister position register given =>
    s!"instruction {position} reads register {register} but {given} parameters were given"
  | .unusedParameters given used => s!"{given} parameters given but the program uses {used}"
  | .scratchTooSmall size depth lanes =>
    s!"stack buffer holds {size} values, {depth} x {lanes} lanes needed"
  | .parameterCount expected given => s!"expected {expected} parameter value(s), got {given}"

/-- An error of compiling or running an equation. -/
inductive Error where
  | emptyEquation
  | invalidSyntax (mistake : Mistake) (fragment : String) (span : Span)
  | unbalancedParentheses (opening closing : Nat)
  | illegalCharacter (character : Char) (span : Span)
  | forbidden (construct : Construct)
  | unsupportedFunctions (names : List String)
  | wrongArity (name : String) (expected given : Nat)
  | reservedName (name : String)
  | invalidName (name : String)
  | undefinedVariables (names : List String)
  | unusedParameters (names : List String)
  | duplicateParameter (name : String)
  | illegalOperations (family : Family) (operations : List Operation)
  | unavailableOperations (operations : List Operation)
  | notCompiled
  | invalidArguments (issue : ArgumentIssue)
  | constantOutOfRange (literal : Literal) (type : ElementType)
  | parameterOutOfRange (index : Nat) (shown : String) (type : ElementType)
  | arithmeticFault (index : Nat) (operation : Operation) (reason : Fault)
  | stackUnderflow (position : Nat)
  | stackOverflow (depth limit : Nat)
  | stackImbalance (remaining : Int)
deriving DecidableEq

namespace Error

/-- The kind of an error. -/
def kind : Error → ErrorKind
  | .emptyEquation | .invalidSyntax .. | .unbalancedParentheses .. | .illegalCharacter .. => .parse
  | .forbidden _ | .unsupportedFunctions _ | .wrongArity .. | .reservedName _ | .invalidName _
  | .undefinedVariables _ | .unusedParameters _ | .duplicateParameter _ | .illegalOperations ..
  | .unavailableOperations _ | .notCompiled | .invalidArguments _ => .validation
  | .constantOutOfRange .. | .parameterOutOfRange .. | .arithmeticFault .. => .typeRange
  | .stackUnderflow _ | .stackOverflow .. | .stackImbalance _ => .stack

/-- Names in a list. -/
def listed (names : List String) : String :=
  ", ".intercalate names

/-- The text of an error. -/
def message : Error → String
  | .emptyEquation => "Equation cannot be empty"
  | .invalidSyntax mistake fragment span =>
    s!"Invalid syntax: {mistake.describe} near '{fragment}'{span.describe}"
  | .unbalancedParentheses opening closing =>
    s!"Unbalanced parentheses: {opening} opening vs {closing} closing"
  | .illegalCharacter character span => s!"Illegal character '{character}'{span.describe}"
  | .forbidden construct => s!"Expression contains a forbidden construct: {construct.describe}"
  | .unsupportedFunctions names => s!"Unsupported function(s): {listed names}"
  | .wrongArity name expected given => s!"'{name}' takes {expected} argument(s), got {given}"
  | .reservedName name => s!"Name '{name}' is reserved and cannot be used as a variable"
  | .invalidName name => s!"'{name}' is not a valid variable name"
  | .undefinedVariables names => s!"Undefined variable(s): {listed names}"
  | .unusedParameters names => s!"Declared parameter(s) never used: {listed names}"
  | .duplicateParameter name =>
    s!"Parameter '{name}' is declared more than once or reuses the array element name"
  | .illegalOperations family operations =>
    let names := listed (operations.map Operation.name)
    s!"Operation(s) not supported for {family.label} arrays: {names}"
  | .unavailableOperations operations =>
    let names := listed (operations.map Operation.name)
    s!"Operation(s) unavailable on this target: {names}"
  | .notCompiled => "No equation has been compiled"
  | .invalidArguments issue => s!"Invalid execution arguments: {issue.describe}"
  | .constantOutOfRange literal type =>
    s!"Constant '{literal.text}' is out of range for {type.name}"
  | .parameterOutOfRange index shown type =>
    s!"Parameter {index} ({shown}) is out of range for {type.name}"
  | .arithmeticFault index operation reason =>
    s!"{reason.describe} in '{operation.name}' at element {index}"
  | .stackUnderflow position => s!"Stack underflow at instruction {position}"
  | .stackOverflow depth limit => s!"Stack depth {depth} exceeds limit {limit}"
  | .stackImbalance remaining =>
    s!"Program leaves {remaining} values on the stack instead of 1"

/-- The element at which a run failed, if it failed at one. -/
def faultIndex? : Error → Option Nat
  | .arithmeticFault index .. => some index
  | _ => none

end Error

end Elementwise
