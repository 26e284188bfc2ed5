import Elementwise.Program
import Elementwise.Program.Depth

/-!
# The stack machine

Bytecode is decoded into steps once, its arguments and its stack depth are checked, and then the
steps are run for every element. The elements are divided among lanes, each of which has a slice of
the scratch memory for its stack and takes a block of consecutive elements; the slice is used again
for the next element as it is. Nothing past the first fault is written.
-/

namespace Elementwise

/-- A decoded instruction. -/
inductive Step (T : ElementType) where
  | element
  | parameter (register : Nat)
  | constant (value : T.Value)
  | unary (op : Operation)
  | binary (op : Operation)

/-- Scratch memory: its size, and what it holds before a run. -/
structure Scratch (T : ElementType) where
  size : Nat
  cells : Nat → T.Value

/-- Scratch memory of zeros. -/
def Scratch.zeros (T : ElementType) (size : Nat) : Scratch T :=
  ⟨size, fun _ => T.zero⟩

/-- The slots of one lane's stack, `depth` cells in a row. -/
def Scratch.slice {T : ElementType} (memory : Scratch T) (depth lane : Nat) : Array T.Value :=
  Array.ofFn fun i : Fin depth => memory.cells (lane * depth + i)

/-- How a run is made. -/
structure RunOptions where
  lanes : Nat
  checked : Bool
  /-- The greatest count of elements to process; zero for all. -/
  limit : Nat

/-- One lane, checking on, all elements. -/
def RunOptions.default : RunOptions :=
  ⟨1, true, 0⟩

/-- What a run leaves: the destination, and the error if it failed. -/
structure Outcome (T : ElementType) where
  destination : List T.Value
  error : Option Error

namespace Step

variable {T : ElementType}

/-- The change of the stack height. -/
def delta : Step T → Int
  | .element | .parameter _ | .constant _ => 1
  | .unary _ => 0
  | .binary _ => -1

/-- The register that a step reads. -/
def register? : Step T → Option Nat
  | .parameter register => some register
  | _ => none

/-- Decode the instruction at a position, for a run with `given` parameters. -/
def decode (given position code register : Nat) (constant : T.Value) : Except Error (Step T) :=
  match Operation.ofCode? T.family code with
  | none => .error (.invalidArguments (.unknownCode position code T.family))
  | some .pushElement => .ok .element
  | some .pushParameter =>
    if given ≤ register then
      .error (.invalidArguments (.missingRegister position register given))
    else .ok (.parameter register)
  | some .pushConstant => .ok (.constant constant)
  | some op => if op.info.arity = 1 then .ok (.unary op) else .ok (.binary op)

end Step

namespace Bytecode

variable {T : ElementType}

/-- Decode instructions from a position on. -/
def decodeFrom (given : Nat) : (position : Nat) → (codes registers : List Nat) → List T.Value →
    Except Error (List (Step T))
  | position, code :: codes, register :: registers, constant :: constants => do
    let step ← Step.decode given position code register constant
    let steps ← decodeFrom given (position + 1) codes registers constants
    .ok (step :: steps)
  | _, _, _, _ => .ok []

/-- The count of different registers that steps read. -/
def registersUsed (steps : List (Step T)) : Nat :=
  (steps.filterMap Step.register?).eraseDups.length

/-- Decode bytecode for a run with `given` parameters, all of which have to be read. -/
def decode (b : Bytecode T) (given : Nat) : Except Error (List (Step T)) := do
  let steps ← decodeFrom given 0 b.codes b.registers b.constants
  if registersUsed steps ≠ given then
    .error (.invalidArguments (.unusedParameters given (registersUsed steps)))
  else .ok steps

end Bytecode

/-! ## One element -/

/-- A stack in slots of fixed number; the slots below `height` are in use. -/
structure Stack (T : ElementType) where
  slots : Array T.Value
  height : Nat

namespace Stack

variable {T : ElementType}

/-- The value `below` places under the top. -/
def peek (s : Stack T) (below : Nat) : T.Value :=
  s.slots.getD (s.height - 1 - below) T.zero

/-- The stack with one more value. -/
def push (s : Stack T) (value : T.Value) : Stack T :=
  ⟨s.slots.setIfInBounds s.height value, s.height + 1⟩

/-- The stack with its upper `count` values replaced by one. -/
def replace (s : Stack T) (count : Nat) (value : T.Value) : Stack T :=
  push ⟨s.slots, s.height - count⟩ value

end Stack

/-- A fault of an operation. -/
structure OperationFault where
  operation : Operation
  reason : Fault
deriving DecidableEq

namespace Step

variable {T : ElementType}

/-- Run one step, with `x` the current element. The left operand of an operation is on top. -/
def run (parameters : List T.Value) (checked : Bool) (x : T.Value) (s : Stack T) :
    Step T → Except OperationFault (Stack T)
  | .element => .ok (s.push x)
  | .parameter register => .ok (s.push (parameters.getD register T.zero))
  | .constant value => .ok (s.push value)
  | .unary op =>
    match T.unary op checked (s.peek 0) with
    | .ok value => .ok (s.replace 1 value)
    | .error reason => .error ⟨op, reason⟩
  | .binary op =>
    match T.binary op checked (s.peek 0) (s.peek 1) with
    | .ok value => .ok (s.replace 2 value)
    | .error reason => .error ⟨op, reason⟩

/-- Run steps one after the other. -/
def runAll (parameters : List T.Value) (checked : Bool) (x : T.Value) :
    List (Step T) → Stack T → Except OperationFault (Stack T)
  | [], s => .ok s
  | step :: steps, s => do
    let s ← step.run parameters checked x s
    runAll parameters checked x steps s

end Step

/-! ## Many elements -/

/-- What steps are run with, once the arguments are checked. -/
structure Job (T : ElementType) where
  steps : List (Step T)
  parameters : List T.Value
  checked : Bool

/-- A fault at an element. -/
structure ElementFault where
  index : Nat
  operation : Operation
  reason : Fault
deriving DecidableEq

namespace Job

variable {T : ElementType}

/-- Run the steps for one element on slots left as they are. The result is the lowest slot; the
slots are handed on. -/
def element (job : Job T) (slots : Array T.Value) (x : T.Value) :
    Except OperationFault (T.Value × Array T.Value) := do
  let s ← Step.runAll job.parameters job.checked x job.steps ⟨slots, 0⟩
  .ok (s.slots.getD 0 T.zero, s.slots)

/-- Run a lane over its block of elements, the first of which has number `index`: the results up to
the first fault, and that fault. -/
def lane (job : Job T) : (index : Nat) → (slots : Array T.Value) → List T.Value →
    List T.Value × Option ElementFault
  | _, _, [] => ([], none)
  | index, slots, x :: rest =>
    match job.element slots x with
    | .error fault => ([], some ⟨index, fault.operation, fault.reason⟩)
    | .ok (value, slots) =>
      let (values, fault) := job.lane (index + 1) slots rest
      (value :: values, fault)

/-- Run lanes one after the other, each over a block of `size` elements, until one faults. -/
def lanes (job : Job T) (memory : Scratch T) (depth size : Nat) (source : List T.Value) :
    (numbers : List Nat) → List T.Value × Option ElementFault
  | [] => ([], none)
  | number :: numbers =>
    let block := (source.drop (number * size)).take size
    match job.lane (number * size) (memory.slice depth number) block with
    | (values, some fault) => (values, some fault)
    | (values, none) =>
      let (others, fault) := job.lanes memory depth size source numbers
      (values ++ others, fault)

end Job

/-- The largest count of values that memory can be asked for. -/
def sizeLimit : Nat :=
  UInt64.size - 1

namespace Bytecode

variable {T : ElementType}

/-- The elements of an array that a limit leaves. -/
def processed (limit : Nat) (source : List T.Value) : List T.Value :=
  if limit = 0 then source else source.take limit

/-- The first parameter that may not be bound. -/
def inadmissible? : (index : Nat) → List T.Value → Option (Nat × T.Value)
  | _, [] => none
  | index, a :: rest => if T.isAdmissible a then inadmissible? (index + 1) rest else some (index, a)

/-- Check the arguments of a run: the steps and the stack depth they need. -/
def prepare (b : Bytecode T) (parameters : List T.Value) (memory : Scratch T)
    (source destination : List T.Value) (lanes : Nat) : Except Error (List (Step T) × Nat) := do
  if b.codes.length ≠ b.registers.length ∨ b.codes.length ≠ b.constants.length then
    .error (.invalidArguments
      (.programLengths b.codes.length b.registers.length b.constants.length))
  else if source.length ≠ destination.length then
    .error (.invalidArguments (.arrayLengths source.length destination.length))
  else if lanes = 0 then .error (.invalidArguments .noLanes)
  else
    let steps ← b.decode parameters.length
    let depth ← Depth.required sizeLimit (steps.map Step.delta)
    if memory.size < min (depth * lanes) sizeLimit then
      .error (.invalidArguments (.scratchTooSmall memory.size depth lanes))
    else
      match inadmissible? 0 parameters with
      | some (index, a) => .error (.parameterOutOfRange index (T.text a) T)
      | none => .ok (steps, depth)

/-- Run bytecode over `source`, writing to `destination`. Elements up to the first fault are
written; all others keep what they held. -/
def execute (b : Bytecode T) (parameters : List T.Value) (memory : Scratch T)
    (source destination : List T.Value) (options : RunOptions) : Outcome T :=
  match b.prepare parameters memory source destination options.lanes with
  | .error e => ⟨destination, some e⟩
  | .ok (steps, depth) =>
    let input := processed options.limit source
    -- Blocks are of equal size, but for the last; there are never more blocks than lanes.
    let size := max 1 ((input.length + options.lanes - 1) / options.lanes)
    let blocks := (input.length + size - 1) / size
    let job : Job T := ⟨steps, parameters, options.checked⟩
    let (values, fault) :=
      job.lanes memory depth size input (List.range (min blocks options.lanes))
    ⟨values ++ destination.drop values.length,
      fault.map fun f => .arithmeticFault f.index f.operation f.reason⟩

end Bytecode

namespace Program

variable {T : ElementType}

/-- Run a program over `source`, writing to `destination`, with scratch memory of its own. The slots
of that memory, `p.depth * lanes` of them, are counted without a bound. Where sizes end at
`sizeLimit` this product may overflow; runs with so many lanes are not described. -/
def run (p : Program T) (parameters source destination : List T.Value) (options : RunOptions) :
    Outcome T :=
  let lanes := max 1 options.lanes
  p.bytecode.execute parameters (.zeros T (p.depth * lanes)) source destination
    ⟨lanes, options.checked, options.limit⟩

/-- Run a program for one element, with checking on. -/
def evaluate (p : Program T) (x : T.Value) (parameters : List T.Value) : Except Error T.Value :=
  let outcome := p.run parameters [x] [T.zero] .default
  match outcome.error with
  | some e => .error e
  | none => .ok (outcome.destination.headD T.zero)

end Program

end Elementwise
