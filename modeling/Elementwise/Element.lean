import Elementwise.Element.Integer
import Elementwise.Element.Real
import Elementwise.Literal

/-!
# Element types

The ten types of array elements. An element is a word of the type's width; the type says how words
are read, written and computed with.
-/

namespace Elementwise

/-- An element type: integers of four widths with or without a sign, and two floating-point types.
-/
inductive ElementType where
  | int (type : IntType)
  | real (precision : Precision)
deriving DecidableEq

namespace ElementType

/-- The count of bits of an element. -/
def bits : ElementType → Nat
  | .int t => t.bits
  | .real p => p.bits

/-- An element of the type. -/
abbrev Value (T : ElementType) : Type :=
  BitVec T.bits

/-- The numeric family. -/
def family : ElementType → Family
  | .int t => if t.isSigned then .signed else .unsigned
  | .real _ => .floating

/-- The short name, such as `i8` or `f64`. -/
def name (T : ElementType) : String :=
  match T.family with
  | .signed => s!"i{T.bits}"
  | .unsigned => s!"u{T.bits}"
  | .floating => s!"f{T.bits}"

/-- All element types. -/
def all : List ElementType :=
  [.int ⟨true, .w8⟩, .int ⟨true, .w16⟩, .int ⟨true, .w32⟩, .int ⟨true, .w64⟩,
    .int ⟨false, .w8⟩, .int ⟨false, .w16⟩, .int ⟨false, .w32⟩, .int ⟨false, .w64⟩,
    .real .single, .real .double]

/-- The list of all element types leaves none out. -/
theorem mem_all (T : ElementType) : T ∈ all := by
  rcases T with ⟨s, w⟩ | p
  · cases s <;> cases w <;> decide
  · cases p <;> decide

variable (T : ElementType)

/-- The number zero, of all types the word without a set bit. -/
def zero : T.Value :=
  0#T.bits

/-! ## Literals -/

/-- A double rounded to some precision. -/
def narrow (p : Precision) (x : Double) : p.Word :=
  match p with
  | .single => Precision.single.encode (Float.toFloat32 (Precision.double.decode x))
  | .double => x

/-- A number of some precision as a double; nothing is lost. -/
def widen (p : Precision) (a : p.Word) : Double :=
  match p with
  | .single => Double.ofFloat (Float32.toFloat (Precision.single.decode a))
  | .double => a

/-- The element a literal stands for. Integer types cut a finite double toward zero and refuse what
is out of range; floating-point types take the nearest number, and refuse what is or becomes not
finite. -/
def ofLiteral? (T : ElementType) (l : Literal) : Option T.Value :=
  match T with
  | .int t =>
    match l with
    | .int n => t.ofInt? n
    | .float x => (Precision.double.reading x).truncate?.bind t.ofInt?
  | .real p =>
    let x := l.toDouble
    let a := narrow p x
    if Precision.double.isFinite x && p.isFinite a then some a else none

/-- The element as a literal. -/
def toLiteral (T : ElementType) (a : T.Value) : Literal :=
  match T with
  | .int t => .int (t.toInt a)
  | .real p => .float (widen p a)

/-- Whether an element may be bound to a parameter; floating-point elements have to be finite. -/
def isAdmissible (T : ElementType) (a : T.Value) : Bool :=
  match T with
  | .int _ => true
  | .real p => p.isFinite a

/-- The text of an element. -/
def text (T : ElementType) (a : T.Value) : String :=
  match T with
  | .int t => toString (t.toInt a)
  | .real p => Decimal.text p .element a

/-- Whether two elements are equal as numbers. -/
def same (T : ElementType) (a b : T.Value) : Bool :=
  match T with
  | .int _ => a == b
  | .real p => p.same a b

/-! ## Arithmetic -/

/-- An operation on one element. -/
def unary (T : ElementType) (op : Operation) (checked : Bool) (a : T.Value) :
    Except Fault T.Value :=
  match T with
  | .int t => t.unary op checked a
  | .real p => p.unary op checked a

/-- An operation on two elements, the left one first. -/
def binary (T : ElementType) (op : Operation) (checked : Bool) (left right : T.Value) :
    Except Fault T.Value :=
  match T with
  | .int t => t.binary op checked left right
  | .real p => p.binary op checked left right

end ElementType

end Elementwise
