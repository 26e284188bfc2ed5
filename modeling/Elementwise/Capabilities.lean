import Elementwise.Operation

/-!
# Capabilities

Which operations the place of execution can run. They are given explicitly, so that any profile can
be compiled for.
-/

namespace Elementwise

/-- A profile: whether the extended function library is there, and which single operations are not.
-/
structure Capabilities where
  extendedMath : Bool
  disabled : List Operation

namespace Capabilities

/-- Everything is available. -/
def full : Capabilities :=
  ⟨true, []⟩

/-- Everything but the extended function library. -/
def baseline : Capabilities :=
  ⟨false, []⟩

/-- The profile with or without the extended function library. -/
def withExtendedMath (c : Capabilities) (enabled : Bool) : Capabilities :=
  ⟨enabled, c.disabled⟩

/-- The profile without one more operation. -/
def disable (c : Capabilities) (op : Operation) : Capabilities :=
  ⟨c.extendedMath, if op ∈ c.disabled then c.disabled else op :: c.disabled⟩

/-- Whether an operation can be run. -/
def isAvailable (c : Capabilities) (op : Operation) : Bool :=
  op ∉ c.disabled && (c.extendedMath || !op.info.extended)

/-- The operations that cannot be run, in the order of their table. -/
def unavailable (c : Capabilities) : List Operation :=
  Operation.all.filter fun op => !c.isAvailable op

/-- Profiles are equal if they agree on the extended library and disable the same operations. -/
instance : BEq Capabilities where
  beq c d := c.extendedMath == d.extendedMath && c.disabled.all (· ∈ d.disabled) &&
    d.disabled.all (· ∈ c.disabled)

end Capabilities

end Elementwise
