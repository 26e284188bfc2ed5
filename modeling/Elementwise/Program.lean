import Elementwise.Element

/-!
# Programs

Bytecode is three parallel lists: instruction `i` has a code, a register that it reads if it pushes
a parameter, and a constant that it pushes if it pushes one. A program is bytecode with the stack
depth it needs and the names of its parameters.
-/

namespace Elementwise

/-- Instructions for elements of type `T`. -/
structure Bytecode (T : ElementType) where
  codes : List Nat
  registers : List Nat
  constants : List T.Value

/-- Compiled code; unused registers and constants are zero. -/
structure Program (T : ElementType) where
  bytecode : Bytecode T
  /-- The stack slots that one lane needs. -/
  depth : Nat
  /-- The names of the parameters, in the order of their registers. -/
  parameters : List String

namespace Program

variable {T : ElementType}

/-- The count of instructions. -/
def length (p : Program T) : Nat :=
  p.bytecode.codes.length

/-- Whether two programs are equal, constants as numbers. -/
def same (p q : Program T) : Bool :=
  p.bytecode.codes == q.bytecode.codes && p.bytecode.registers == q.bytecode.registers &&
    p.bytecode.constants.length == q.bytecode.constants.length &&
    (p.bytecode.constants.zip q.bytecode.constants).all (fun (a, b) => T.same a b) &&
    p.depth == q.depth && p.parameters == q.parameters

/-! ## Listing -/

/-- Text with blanks in front of it up to a width. -/
def padLeft (width : Nat) (text : String) : String :=
  String.ofList (List.replicate (width - text.length) ' ') ++ text

/-- Text with blanks after it up to a width. -/
def padRight (width : Nat) (text : String) : String :=
  text ++ String.ofList (List.replicate (width - text.length) ' ')

/-- One instruction in words. -/
def instructionText (p : Program T) (position code : Nat) : String :=
  match Operation.ofCode? T.family code with
  | none => s!"<unknown {code}>"
  | some .pushParameter =>
    let register := p.bytecode.registers.getD position 0
    let name := p.parameters.getD register "?"
    s!"{padRight 14 (Operation.name .pushParameter)}r{register} ({name})"
  | some .pushConstant =>
    let constant := p.bytecode.constants.getD position T.zero
    s!"{padRight 14 (Operation.name .pushConstant)}{T.text constant}"
  | some op => op.name

/-- The lines of a program's listing, one numbered line for each instruction. -/
def lines (p : Program T) : List String :=
  p.bytecode.codes.mapIdx fun position code =>
    s!"{padLeft 4 (toString position)}  {p.instructionText position code}"

/-- The listing of a program; every line ends with a line feed. -/
def listing (p : Program T) : String :=
  String.join (p.lines.map (· ++ "\n"))

end Program

end Elementwise
