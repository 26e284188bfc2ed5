import Elementwise.Machine
import Elementwise.Program.Compile

/-!
# Sessions

A session holds settings and the program compiled last. A compilation that fails leaves no program,
so that what is run always belongs to the last equation.
-/

namespace Elementwise

/-- Settings and the program compiled last. -/
structure Session (T : ElementType) where
  settings : Settings
  program : Option (Program T)

namespace Session

variable {T : ElementType}

/-- A new session: default settings and no program. -/
def new (T : ElementType) : Session T :=
  ⟨.default, none⟩

/-- Change which operations are available; the program stays. -/
def withCapabilities (s : Session T) (capabilities : Capabilities) : Session T :=
  ⟨⟨capabilities, s.settings.stackLimit⟩, s.program⟩

/-- Change the greatest stack depth; the program stays. -/
def withStackLimit (s : Session T) (limit : Nat) : Session T :=
  ⟨⟨s.settings.capabilities, limit⟩, s.program⟩

/-- Whether there is a program. -/
def isCompiled (s : Session T) : Bool :=
  s.program.isSome

/-- Compile an equation; the session keeps the program, or none after an error. -/
def compile (s : Session T) (equation element : String) (parameters : List String) :
    Except Error (Program T) × Session T :=
  let result := Program.compile T s.settings equation element parameters
  (result, ⟨s.settings, result.toOption⟩)

/-- The elements that literals stand for, each named by its place if it does not fit. -/
def convert : (index : Nat) → List Literal → Except Error (List T.Value)
  | _, [] => .ok []
  | index, l :: rest =>
    match T.ofLiteral? l with
    | none => .error (.parameterOutOfRange index l.text T)
    | some a => do
      let others ← convert (index + 1) rest
      .ok (a :: others)

/-- The parameters of a program from literals, one for each. -/
def bindParameters (p : Program T) (literals : List Literal) : Except Error (List T.Value) :=
  if literals.length ≠ p.parameters.length then
    .error (.invalidArguments (.parameterCount p.parameters.length literals.length))
  else convert 0 literals

/-- Run the program over `source`, writing to `destination`. -/
def execute (s : Session T) (source destination : List T.Value) (literals : List Literal)
    (options : RunOptions) : Outcome T :=
  match s.program with
  | none => ⟨destination, some .notCompiled⟩
  | some p =>
    match bindParameters p literals with
    | .error e => ⟨destination, some e⟩
    | .ok parameters => p.run parameters source destination options

/-- Run the program over data, writing the results in place of it. -/
def executeInPlace (s : Session T) (data : List T.Value) (literals : List Literal)
    (options : RunOptions) : Outcome T :=
  s.execute data data literals options

end Session

/-- Compile an equation and run it over `source`, with default settings. -/
def evaluate (T : ElementType) (equation element : String) (parameters : List (String × Literal))
    (source : List T.Value) : Except Error (List T.Value) := do
  let (result, session) := (Session.new T).compile equation element (parameters.map (·.1))
  let _ ← result
  let outcome := session.execute source (List.replicate source.length T.zero)
    (parameters.map (·.2)) .default
  match outcome.error with
  | some e => .error e
  | none => .ok outcome.destination

end Elementwise
