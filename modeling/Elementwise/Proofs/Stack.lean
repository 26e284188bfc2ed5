import Elementwise.Machine
import Elementwise.Proofs.Depth

/-!
# Stacks as lists

The machine keeps its stack in slots that are never cleared, so what a slot holds above the height
is left over from earlier elements. Here every step is given a meaning on a plain list of values,
the top first (`Step.act`). Slots represent a list if they hold it from the bottom up
(`Stack.Represents`), a step keeps the two together as long as the height stays positive and within
the slots (`Step.run_agrees`), and so does a run that passes the depth analysis
(`Step.runAll_agrees`).

Hence the result of a job for an element is a function of the element alone (`Job.value`), whatever
the slots held before (`Job.element_cases`).
-/

namespace Elementwise

variable {T : ElementType}

/-- The result of an operation, with the operation named in a fault. -/
def Operation.blame {α : Type} (op : Operation) : Except Fault α → Except OperationFault α
  | .ok a => .ok a
  | .error reason => .error ⟨op, reason⟩

namespace Step

variable (parameters : List T.Value) (checked : Bool) (x : T.Value)

/-- One step on a list of values, the top first. A step that lacks operands changes nothing. -/
def act : Step T → List T.Value → Except OperationFault (List T.Value)
  | .element, values => .ok (x :: values)
  | .parameter register, values => .ok (parameters.getD register T.zero :: values)
  | .constant value, values => .ok (value :: values)
  | .unary op, a :: values => do
    let value ← op.blame (T.unary op checked a)
    .ok (value :: values)
  | .binary op, left :: right :: values => do
    let value ← op.blame (T.binary op checked left right)
    .ok (value :: values)
  | _, values => .ok values

/-- Steps on a list of values, one after the other. -/
def actAll : List (Step T) → List T.Value → Except OperationFault (List T.Value)
  | [], values => .ok values
  | step :: steps, values => do
    let values ← step.act parameters checked x values
    actAll steps values

/-- Steps after steps act on what the first ones leave. -/
theorem actAll_append (first second : List (Step T)) (values : List T.Value) :
    actAll parameters checked x (first ++ second) values =
      actAll parameters checked x first values >>= actAll parameters checked x second := by
  induction first generalizing values with
  | nil => rfl
  | cons step steps ih =>
      rw [List.cons_append, actAll, actAll]
      cases step.act parameters checked x values with
      | error fault => rfl
      | ok values =>
          rw [ok_bind, ok_bind]
          exact ih values

end Step

/-! ## Slots -/

/-- Slots hold a list of values, its last value at the bottom. -/
def Holds (slots : Array T.Value) : List T.Value → Prop
  | [] => True
  | value :: rest => slots[rest.length]? = some value ∧ Holds slots rest

/-- Lower values are held where all values are. -/
theorem Holds.below {slots : Array T.Value} {above rest : List T.Value}
    (h : Holds slots (above ++ rest)) : Holds slots rest := by
  induction above with
  | nil => exact h
  | cons value above ih => exact ih h.2

/-- A write above the values leaves them. -/
theorem Holds.write {slots : Array T.Value} {values : List T.Value} (h : Holds slots values)
    {place : Nat} (hplace : values.length ≤ place) (value : T.Value) :
    Holds (slots.setIfInBounds place value) values := by
  induction values with
  | nil => trivial
  | cons a rest ih =>
      rw [List.length_cons] at hplace
      refine ⟨?_, ih h.2 (by omega)⟩
      rw [Array.getElem?_setIfInBounds_ne (by omega)]
      exact h.1

namespace Stack

/-- A stack represents a list: it has its height, and its slots hold the values. -/
structure Represents (s : Stack T) (values : List T.Value) : Prop where
  height : s.height = values.length
  holds : Holds s.slots values

variable {s : Stack T}

@[simp] theorem size_push (s : Stack T) (value : T.Value) :
    (s.push value).slots.size = s.slots.size := by
  simp [push]

@[simp] theorem size_replace (s : Stack T) (count : Nat) (value : T.Value) :
    (s.replace count value).slots.size = s.slots.size := by
  simp [replace]

/-- The value that stands below others. -/
theorem Represents.peek_eq (above : List T.Value) {rest : List T.Value} {value : T.Value}
    (h : s.Represents (above ++ value :: rest)) : s.peek above.length = value := by
  have hheight := h.height
  have hat : s.slots[rest.length]? = some value := h.holds.below.1
  have hplace : s.height - 1 - above.length = rest.length := by
    rw [hheight, List.length_append, List.length_cons]
    omega
  rw [peek, hplace, Array.getD_eq_getD_getElem?, hat, Option.getD_some]

/-- A push puts a value on the list, if there is a slot for it. -/
theorem Represents.push {values : List T.Value} (h : s.Represents values)
    (hroom : values.length < s.slots.size) (value : T.Value) :
    (s.push value).Represents (value :: values) := by
  refine ⟨?_, ?_, ?_⟩
  · rw [Stack.push, List.length_cons, h.height]
  · rw [Stack.push, h.height, Array.getElem?_setIfInBounds_self_of_lt hroom]
  · exact h.holds.write (Nat.le_of_eq h.height.symm) value

/-- Replacing values puts one value in the place of them. -/
theorem Represents.replace (above : List T.Value) {rest : List T.Value}
    (h : s.Represents (above ++ rest)) (hroom : rest.length < s.slots.size)
    (value : T.Value) :
    (s.replace above.length value).Represents (value :: rest) := by
  have hlower : Represents ⟨s.slots, s.height - above.length⟩ rest := by
    refine ⟨?_, h.holds.below⟩
    rw [h.height, List.length_append, Nat.add_sub_cancel_left]
  exact hlower.push hroom value

end Stack

/-! ## Runs -/

/-- A result on slots, of which there are `size`, agrees with a result on a list: the same fault, or
a stack that represents the list. -/
inductive Agrees (size : Nat) :
    Except OperationFault (Stack T) → Except OperationFault (List T.Value) → Prop
  | ok {s : Stack T} {values : List T.Value} (hsize : s.slots.size = size)
      (h : s.Represents values) : Agrees size (.ok s) (.ok values)
  | error (fault : OperationFault) : Agrees size (.error fault) (.error fault)

namespace Step

variable {parameters : List T.Value} {checked : Bool} {x : T.Value} {s : Stack T}
  {values result : List T.Value} {step : Step T} {steps : List (Step T)}

/-- A step changes the height by its delta. -/
theorem length_act (h : step.act parameters checked x values = .ok result)
    (hpositive : 0 < values.length + step.delta) :
    (result.length : Int) = values.length + step.delta := by
  match step, values with
  | .element, values | .parameter _, values | .constant _, values =>
      cases h
      simp [delta]
  | .unary op, [] => simp [delta] at hpositive
  | .unary op, a :: rest =>
      obtain ⟨value, -, h⟩ := bind_eq_ok_iff.mp h
      cases h
      simp [delta]
  | .binary op, [] | .binary op, [_] => simp [delta] at hpositive
  | .binary op, left :: right :: rest =>
      obtain ⟨value, -, h⟩ := bind_eq_ok_iff.mp h
      cases h
      simp only [delta, List.length_cons]
      omega

/-- **One step.** Slots and list stay together if the height stays positive and there are slots. -/
theorem run_agrees (parameters : List T.Value) (checked : Bool) (x : T.Value)
    (h : s.Represents values) (hpositive : 0 < values.length + step.delta)
    (hroom : values.length + step.delta ≤ s.slots.size) :
    Agrees s.slots.size (step.run parameters checked x s)
      (step.act parameters checked x values) := by
  match step, values with
  | .element, values | .parameter _, values | .constant _, values =>
      simp only [delta] at hroom
      exact .ok (s.size_push _) (h.push (by omega) _)
  | .unary op, [] => simp [delta] at hpositive
  | .unary op, a :: rest =>
      have htop : s.peek 0 = a := h.peek_eq []
      simp only [delta, List.length_cons] at hroom
      rw [run, act, htop]
      cases T.unary op checked a with
      | error reason => exact .error _
      | ok value => exact .ok (s.size_replace 1 value) (h.replace [a] (by omega) value)
  | .binary op, [] | .binary op, [_] => simp [delta] at hpositive
  | .binary op, left :: right :: rest =>
      have htop : s.peek 0 = left := h.peek_eq []
      have hnext : s.peek 1 = right := h.peek_eq [left]
      simp only [delta, List.length_cons] at hroom
      rw [run, act, htop, hnext]
      cases T.binary op checked left right with
      | error reason => exact .error _
      | ok value =>
          exact .ok (s.size_replace 2 value) (h.replace [left, right] (by omega) value)

/-- A whole run changes the height to the final one. -/
theorem length_actAll {position : Nat} {peak final top : Int}
    (hrun : Depth.run position values.length peak (steps.map delta) = .ok (final, top))
    (h : actAll parameters checked x steps values = .ok result) :
    (result.length : Int) = final := by
  induction steps generalizing position peak values with
  | nil =>
      cases h
      cases hrun
      rfl
  | cons step steps ih =>
      rw [List.map_cons, Depth.run] at hrun
      split at hrun
      · cases hrun
      · obtain ⟨next, hnext, h⟩ := bind_eq_ok_iff.mp h
        have hlength := length_act hnext (by omega)
        rw [← hlength] at hrun
        exact ih hrun h

/-- **A whole run.** Slots and list stay together if the heights pass the analysis and there are as
many slots as the greatest height. -/
theorem runAll_agrees (parameters : List T.Value) (checked : Bool) (x : T.Value)
    {position : Nat} {peak final top : Int} (h : s.Represents values)
    (hrun : Depth.run position values.length peak (steps.map delta) = .ok (final, top))
    (hroom : top ≤ s.slots.size) :
    Agrees s.slots.size (runAll parameters checked x steps s)
      (actAll parameters checked x steps values) := by
  induction steps generalizing position peak values s with
  | nil => exact .ok rfl h
  | cons step steps ih =>
      rw [List.map_cons, Depth.run] at hrun
      split at hrun
      · cases hrun
      · have hpeak := (Depth.run_eq_ok hrun).2.1
        have hstep : Agrees s.slots.size (step.run parameters checked x s)
            (step.act parameters checked x values) :=
          run_agrees parameters checked x h (by omega) (by omega)
        rw [runAll, actAll]
        generalize step.run parameters checked x s = slots, hnext :
          step.act parameters checked x values = list at hstep
        cases hstep with
        | error fault => exact .error fault
        | ok hsize hafter =>
            rw [← hsize, ok_bind, ok_bind]
            have hlength := length_act hnext (by omega)
            rw [← hlength] at hrun
            exact ih hafter hrun (by omega)

end Step

/-! ## Elements -/

namespace Job

variable {job : Job T} {depth : Nat}

/-- The steps of a job pass the depth analysis and need some depth. -/
def Needs (job : Job T) (depth : Nat) : Prop :=
  Depth.required sizeLimit (job.steps.map Step.delta) = .ok depth

/-- The result of a job for one element, on an empty list. -/
def value (job : Job T) (x : T.Value) : Except OperationFault T.Value := do
  let values ← Step.actAll job.parameters job.checked x job.steps []
  .ok (values.headD T.zero)

/-- Running a job for an element on enough slots gives its value, or its fault, and keeps the count
of slots. -/
theorem element_cases (hneeds : job.Needs depth) {slots : Array T.Value}
    (hslots : depth ≤ slots.size) (x : T.Value) :
    (∃ value rest, job.value x = .ok value ∧ job.element slots x = .ok (value, rest) ∧
        rest.size = slots.size) ∨
      ∃ fault, job.value x = .error fault ∧ job.element slots x = .error fault := by
  obtain ⟨top, hrun, hdepth, -⟩ := Depth.run_of_required hneeds
  have hstart : Stack.Represents (T := T) ⟨slots, 0⟩ [] := ⟨rfl, trivial⟩
  have hagrees := Step.runAll_agrees job.parameters job.checked x hstart hrun
    (by simp only; omega)
  unfold value element
  generalize Step.runAll job.parameters job.checked x job.steps ⟨slots, 0⟩ = slots', hvalues :
    Step.actAll job.parameters job.checked x job.steps [] = list at hagrees
  cases hagrees with
  | error fault => exact .inr ⟨fault, rfl, rfl⟩
  | @ok s values hsize hend =>
      have hone := Step.length_actAll hrun hvalues
      obtain ⟨value, rfl⟩ := List.length_eq_one_iff.mp (Int.ofNat.inj hone)
      have hat : s.slots[0]? = some value := hend.holds.1
      refine .inl ⟨value, s.slots, rfl, ?_, hsize⟩
      rw [ok_bind, Array.getD_eq_getD_getElem?, hat, Option.getD_some]

end Job

end Elementwise
