import Elementwise.Equation

/-!
# Straight-line code

A permitted expression is flattened into a list of actions. The operands of an operator come before
it, the last operand first, so that the first operand is on top of the stack when the operator runs.

Flattening is preceded by two looks at the whole tree, which refuse forbidden constructs and unknown
functions; it then refuses reserved names in the place of values and wrong counts of arguments.
-/

namespace Elementwise

/-- One step of straight-line code, before parameters have registers and literals have a type. -/
inductive Action where
  /-- Push the current array element. -/
  | element
  /-- Push a parameter. -/
  | parameter (name : String)
  /-- Push a number. -/
  | constant (value : Literal)
  /-- Apply an operator or a function. -/
  | apply (op : Operation)
deriving DecidableEq

namespace Action

/-- The operation of an action. -/
def operation : Action → Operation
  | .element => .pushElement
  | .parameter _ => .pushParameter
  | .constant _ => .pushConstant
  | .apply op => op

/-- The parameter that an action pushes. -/
def parameter? : Action → Option String
  | .parameter name => some name
  | _ => none

end Action

namespace Expr

/-! ## Forbidden constructs -/

/-- Whether the look for forbidden constructs goes below a node. A refused node is named itself, and
a member is judged by its root. -/
def isOpen : Expr → Bool
  | .member .. | .conditional .. => false
  | _ => true

/-- The forbidden construct a node is. -/
def construct? : Expr → Option Construct
  | .quoted content => some (.quoted content)
  | .member value field =>
    match value with
    | .name base => if base = "math" then none else some (.member field .name)
    | _ => some (.member field value.kind)
  | .conditional .. => some .conditional
  | _ => none

/-- Refuse the first forbidden construct. -/
def checkConstructs (e : Expr) : Except Error Unit :=
  match (e.visits isOpen).findSome? construct? with
  | some construct => .error (.forbidden construct)
  | none => .ok ()

/-! ## Calls -/

/-- The functions called in a tree, in order. -/
def callees (e : Expr) : List Expr :=
  (e.visits fun _ => true).filterMap fun
    | .call function _ => some function
    | _ => none

/-- The kind of a callee that is not a plain name. -/
def computedKind? (callee : Expr) : Option Kind :=
  if callee.dottedName?.isSome then none else some callee.kind

/-- Refuse calls of anything but a name, and then all unknown functions, each named once. -/
def checkCalls (e : Expr) : Except Error Unit :=
  match e.callees.findSome? computedKind? with
  | some kind => .error (.forbidden (.callOf kind))
  | none =>
    let unknown := (e.callees.filterMap dottedName?).filter fun name => !Operation.isCallable name
    if unknown.isEmpty then .ok () else .error (.unsupportedFunctions unknown.eraseDups)

/-! ## Flattening -/

/-- The action that pushes the value of a name. -/
def nameAction (element word : String) : Except Error Action :=
  if word = element then .ok .element
  else if word ∈ reservedNames then .error (.forbidden (.nameAsValue word))
  else .ok (.parameter word)

/-- The action that pushes the value of a member, which is a constant of `math`. -/
def memberAction (field : String) : Except Error Action :=
  match mathConstant? field with
  | some value => .ok (.constant (.float value))
  | none => .error (.forbidden (.memberAsValue field))

/-- The operation of a function called with `given` arguments. -/
def callOperation (function : Expr) (given : Nat) : Except Error Operation :=
  let name := function.dottedName?.getD ""
  match Operation.ofName? name with
  | some op =>
    if given = op.info.arity then .ok op else .error (.wrongArity name op.info.arity given)
  | none => .error (.unsupportedFunctions [name])

mutual
/-- The actions of a tree, where `element` names the array element. -/
def actions (element : String) : Expr → Except Error (List Action)
  | .number value => .ok [.constant value]
  | .quoted content => .error (.forbidden (.quoted content))
  | .name word => do
    let action ← nameAction element word
    .ok [action]
  | .member _ field => do
    let action ← memberAction field
    .ok [action]
  | .unary op operand => do
    let inner ← operand.actions element
    .ok (inner ++ [.apply op.operation])
  | .binary op left right => do
    let first ← left.actions element
    let second ← right.actions element
    .ok (second ++ first ++ [.apply op.operation])
  | .call function arguments => do
    let op ← callOperation function arguments.length
    let inner ← actionsOfAll element arguments
    .ok (inner ++ [.apply op])
  | .conditional .. => .error (.forbidden .conditional)

/-- The actions of arguments, the last argument first. -/
def actionsOfAll (element : String) : List Expr → Except Error (List Action)
  | [] => .ok []
  | e :: rest => do
    let first ← e.actions element
    let others ← actionsOfAll element rest
    .ok (others ++ first)
end

end Expr

namespace Equation

/-- The straight-line code of an equation in which `element` names the array element. -/
def analyze (equation : Equation) (element : String) : Except Error (List Action) := do
  equation.body.checkConstructs
  equation.body.checkCalls
  equation.body.actions element

end Equation

namespace Action

/-! ## Signs of constants -/

/-- Whether an action is a sign. -/
def isSign : Action → Bool
  | .apply .negate | .apply .plus => true
  | _ => false

/-- A literal with a run of signs applied to it. -/
def signed (value : Literal) (signs : List Action) : Literal :=
  if signs.count (.apply .negate) % 2 = 1 then value.negate else value

/-- Put an action before code whose signs are folded already; a constant takes up the signs that
directly follow it. -/
def foldStep (action : Action) (code : List Action) : List Action :=
  match action with
  | .constant value =>
    .constant (signed value (code.takeWhile isSign)) :: code.dropWhile isSign
  | _ => action :: code

/-- Fold signs into the constants they apply to, so that the range of a constant is checked with its
sign. -/
def foldSigns (code : List Action) : List Action :=
  code.foldr foldStep []

end Action

end Elementwise
