import Elementwise.Action
import Elementwise.Capabilities
import Elementwise.Program
import Elementwise.Program.Depth

/-!
# Compiling

The passes from the text of an equation to a program, in order: names, analysis, signs of constants,
conversion of constants, legality of operations, stack depth, registers. The first pass that fails
decides the error.
-/

namespace Elementwise

/-- What a compilation depends on besides the equation. -/
structure Settings where
  capabilities : Capabilities
  /-- The greatest stack depth a program may need. -/
  stackLimit : Nat

/-- The default greatest stack depth. -/
def defaultStackLimit : Nat :=
  1024

namespace Settings

/-- Everything is available, and the stack has its default limit. -/
def default : Settings :=
  ⟨.full, defaultStackLimit⟩

end Settings

/-! ## Names -/

/-- Whether a text has the form of a name. -/
def isIdentifier (name : String) : Bool :=
  match name.toList with
  | [] => false
  | c :: rest => Text.isWordStart c && rest.all Text.isWordChar

/-- A name may be declared unless it is reserved or is not a name. -/
def checkName (name : String) : Except Error Unit :=
  if name ∈ keywords ∨ name ∈ reservedNames then .error (.reservedName name)
  else if !isIdentifier name then .error (.invalidName name)
  else .ok ()

/-- All names may be declared. -/
def checkNames (names : List String) : Except Error Unit :=
  names.forM checkName

namespace Action

/-! ## Constants and operations -/

/-- The constant of an action; zero where none is pushed. -/
def constantValue (T : ElementType) : Action → Except Error T.Value
  | .constant value =>
    match T.ofLiteral? value with
    | some a => .ok a
    | none => .error (.constantOutOfRange value T)
  | _ => .ok T.zero

/-- The constants of code; the first literal that does not fit is refused. -/
def constantValues (T : ElementType) (code : List Action) : Except Error (List T.Value) :=
  code.mapM (constantValue T)

/-- The operations of code that have some property, each once, in the order of their first use. -/
def operationsWith (has : Operation → Bool) (code : List Action) : List Operation :=
  ((code.map operation).filter has).eraseDups

/-- All operations have to be legal for a family, and then available. -/
def checkOperations (family : Family) (capabilities : Capabilities) (code : List Action) :
    Except Error Unit :=
  let illegal := operationsWith (fun op => !op.info.isLegalFor family) code
  let missing := operationsWith (fun op => !capabilities.isAvailable op) code
  if !illegal.isEmpty then .error (.illegalOperations family illegal)
  else if !missing.isEmpty then .error (.unavailableOperations missing)
  else .ok ()

/-- The stack deltas of code. -/
def deltas (code : List Action) : List Int :=
  code.map fun action => action.operation.info.stackDelta

/-! ## Registers -/

/-- The count of registers: their numbers have 32 bits. -/
def registerCount : Nat :=
  Nat.pow 2 32

/-- Parameters are taken in order, each for the register after those of the earlier ones. None may
have the name of the element or of an earlier one, and then there has to be a register for it. -/
def checkDeclared (element : String) : (earlier : List String) → List String → Except Error Unit
  | _, [] => .ok ()
  | earlier, name :: rest =>
    if name = element ∨ name ∈ earlier then .error (.duplicateParameter name)
    else if registerCount ≤ earlier.length then .error (.invalidArguments .tooManyParameters)
    else checkDeclared element (name :: earlier) rest

/-- The names of the parameters that code reads, in order and with repetitions. -/
def parametersRead (code : List Action) : List String :=
  code.filterMap parameter?

/-- Parameters have to be declared once and to have registers, to be declared if they are read, and
to be read if they are declared. -/
def checkParameters (element : String) (parameters : List String) (code : List Action) :
    Except Error Unit := do
  checkDeclared element [] parameters
  let undefined := (parametersRead code).filter (· ∉ parameters)
  let unused := parameters.filter (· ∉ parametersRead code)
  if !undefined.isEmpty then .error (.undefinedVariables undefined.eraseDups)
  else if !unused.isEmpty then .error (.unusedParameters unused)
  else .ok ()

/-- The register of an action: the place of its parameter among the declared ones, and zero where
none is read. For parameters that pass `checkDeclared` it is less than `registerCount`. -/
def register (parameters : List String) (action : Action) : Nat :=
  match action.parameter? with
  | some name => parameters.idxOf name
  | none => 0

/-- The code number of an action for a family. -/
def code (family : Family) (action : Action) : Except Error Nat :=
  match action.operation.info.codeFor family with
  | some number => .ok number
  | none => .error (.illegalOperations family [action.operation])

end Action

namespace Program

/-- The program of straight-line code. -/
def assemble (T : ElementType) (settings : Settings) (element : String) (parameters : List String)
    (code : List Action) : Except Error (Program T) := do
  let constants ← Action.constantValues T code
  Action.checkOperations T.family settings.capabilities code
  let depth ← Depth.required settings.stackLimit (Action.deltas code)
  Action.checkParameters element parameters code
  let codes ← code.mapM (Action.code T.family)
  .ok ⟨⟨codes, code.map (Action.register parameters), constants⟩, depth, parameters⟩

/-- Compile an equation in which `element` names the array element, for elements of type `T`. -/
def compile (T : ElementType) (settings : Settings) (equation element : String)
    (parameters : List String) : Except Error (Program T) := do
  checkNames (element :: parameters)
  let parsed ← Equation.parse equation
  let code ← parsed.analyze element
  assemble T settings element parameters (Action.foldSigns code)

end Program

end Elementwise
