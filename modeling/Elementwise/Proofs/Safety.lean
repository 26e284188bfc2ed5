import Elementwise.Proofs.Elements

/-!
# The machine stays within its arrays

The machine does not look before it touches a slot, an operand or a register; that they are there is
left to the checks before a run. Here a step is safe in a state if everything it touches is there
(`Step.Safe`), and a state of a lane is one that comes after some elements of its block and some
steps of the next one (`Job.Visits`).

The depth analysis of all steps holds for the first of them too (`Depth.run_take`). So a state after
`j` steps has the height that the analysis finds there, and the step that follows is safe
(`Job.safeAt_of_visits`). After the last step the result is in the lowest slot, from where the lane
takes it (`Job.lane_of_slotsAfter`). Slices of lanes do not leave the memory
(`Bytecode.Prepared.slice_le`).
-/

namespace Elementwise

variable {T : ElementType}

/-! ## Decoded steps -/

/-- A decoded step reads a register that is given. -/
theorem Step.register_lt_of_decode {given position code register : Nat} {constant : T.Value}
    {read : Nat} (h : decode given position code register constant = .ok (.parameter read)) :
    read < given := by
  unfold decode at h
  split at h
  case h_3 =>
    split at h
    · cases h
    · cases h
      omega
  case h_5 =>
    split at h
    · cases h
    · cases h
  all_goals cases h

namespace Bytecode

/-- Instructions decode to as many steps, and every register that is read is given. -/
theorem decodeFrom_eq_ok {given position : Nat} {codes registers : List Nat}
    {constants : List T.Value} {steps : List (Step T)}
    (hregisters : codes.length = registers.length) (hconstants : codes.length = constants.length)
    (h : decodeFrom given position codes registers constants = .ok steps) :
    steps.length = codes.length ∧ ∀ register, .parameter register ∈ steps → register < given := by
  induction codes generalizing position registers constants steps with
  | nil =>
      cases h
      exact ⟨rfl, nofun⟩
  | cons code codes ih =>
      obtain ⟨register, registers, rfl⟩ :=
        List.exists_cons_of_length_eq_add_one hregisters.symm
      obtain ⟨constant, constants, rfl⟩ :=
        List.exists_cons_of_length_eq_add_one hconstants.symm
      rw [decodeFrom] at h
      obtain ⟨step, hstep, h⟩ := bind_eq_ok_iff.mp h
      obtain ⟨rest, hrest, h⟩ := bind_eq_ok_iff.mp h
      cases h
      obtain ⟨hlength, hgiven⟩ := ih (Nat.succ.inj hregisters) (Nat.succ.inj hconstants) hrest
      refine ⟨congrArg Nat.succ hlength, fun read hread => ?_⟩
      rcases List.mem_cons.mp hread with rfl | hread
      · exact Step.register_lt_of_decode hstep
      · exact hgiven read hread

variable {b : Bytecode T} {parameters : List T.Value} {memory : Scratch T}
  {source destination : List T.Value} {lanes : Nat} {steps : List (Step T)} {depth : Nat}

/-- Steps that a run is prepared with are as many as the codes, and read registers that are given.
-/
theorem Prepared.steps_spec
    (h : Prepared b parameters memory source destination lanes steps depth) :
    steps.length = b.codes.length ∧
      ∀ register, .parameter register ∈ steps → register < parameters.length := by
  have hdecoded := h.decoded
  unfold decode at hdecoded
  obtain ⟨found, hfound, hdecoded⟩ := bind_eq_ok_iff.mp hdecoded
  split at hdecoded
  · cases hdecoded
  · cases hdecoded
    exact decodeFrom_eq_ok h.registers h.constants hfound

/-- The slice of a lane is within the memory, unless this is as large as memory can be. -/
theorem Prepared.slice_le
    (h : Prepared b parameters memory source destination lanes steps depth)
    (hsize : memory.size < sizeLimit) {number : Nat} (hnumber : number < lanes) :
    (number + 1) * depth ≤ memory.size := by
  have hscratch := h.scratch
  calc (number + 1) * depth ≤ lanes * depth := Nat.mul_le_mul_right depth hnumber
    _ = depth * lanes := Nat.mul_comm _ _
    _ ≤ memory.size := by omega

end Bytecode

/-! ## States -/

/-- The first deltas pass if all of them do, with no greater height. -/
theorem Depth.run_take {position : Nat} {height peak final top : Int} {deltas : List Int}
    (h : run position height peak deltas = .ok (final, top)) (count : Nat) :
    ∃ top', run position height peak (deltas.take count) =
      .ok (height + (deltas.take count).sum, top') ∧ top' ≤ top := by
  induction deltas generalizing position height peak count with
  | nil =>
      cases h
      exact ⟨top, by simp [run], Int.le_refl _⟩
  | cons delta rest ih =>
      have hpeak := (run_eq_ok h).2.1
      cases count with
      | zero => exact ⟨peak, by simp [run], hpeak⟩
      | succ count =>
          rw [run] at h
          split at h
          · cases h
          · rename_i hpositive
            obtain ⟨top', hrun, hle⟩ := ih h count
            refine ⟨top', ?_, hle⟩
            rw [List.take_succ_cons, run, if_neg hpositive, hrun, List.sum_cons, Int.add_assoc]

/-- Everything that a step touches is there: a slot for what it pushes, its operands, its register.
-/
def Step.Safe (parameters : List T.Value) (s : Stack T) : Step T → Prop
  | .element | .constant _ => s.height < s.slots.size
  | .parameter register => s.height < s.slots.size ∧ register < parameters.length
  | .unary _ => 1 ≤ s.height ∧ s.height ≤ s.slots.size
  | .binary _ => 2 ≤ s.height ∧ s.height ≤ s.slots.size

/-- A step is safe where the heights before and after it are within the slots, the one after it is
positive, and its register is given. -/
theorem Step.safe_of_height {parameters : List T.Value} {s : Stack T} {step : Step T}
    (hbefore : s.height ≤ s.slots.size) (hpositive : 0 < s.height + step.delta)
    (hafter : s.height + step.delta ≤ s.slots.size)
    (hregister : ∀ register, step = .parameter register → register < parameters.length) :
    step.Safe parameters s := by
  cases step with
  | element | constant _ =>
      rw [delta] at hafter
      show s.height < s.slots.size
      omega
  | parameter register =>
      rw [delta] at hafter
      exact ⟨by omega, hregister register rfl⟩
  | unary op =>
      rw [delta] at hpositive
      exact ⟨by omega, hbefore⟩
  | binary op =>
      rw [delta] at hpositive
      exact ⟨by omega, hbefore⟩

namespace Job

/-- The slots that a lane hands on after elements. -/
def slotsAfter (job : Job T) (slots : Array T.Value) :
    List T.Value → Except OperationFault (Array T.Value)
  | [] => .ok slots
  | x :: rest => do
    let (_, left) ← job.element slots x
    job.slotsAfter left rest

/-- A lane that starts with `slots` on a block comes to the state `s` after `j` steps for the
element `i` of the block. -/
def Visits (job : Job T) (slots : Array T.Value) (block : List T.Value) (i j : Nat)
    (s : Stack T) : Prop :=
  j ≤ job.steps.length ∧ ∃ x before, block[i]? = some x ∧
    job.slotsAfter slots (block.take i) = .ok before ∧
    Step.runAll job.parameters job.checked x (job.steps.take j) ⟨before, 0⟩ = .ok s

/-- What holds of a state after `j` steps, on a stack of some depth. -/
structure SafeAt (job : Job T) (depth j : Nat) (s : Stack T) : Prop where
  size_eq : s.slots.size = depth
  /-- The height is the sum of the deltas so far. -/
  height_eq : (s.height : Int) = ((job.steps.map Step.delta).take j).sum
  /-- After the first step there is a value, and two slots are never used. -/
  height_between : 0 < j → 1 ≤ s.height ∧ s.height + 2 ≤ depth
  /-- The next step finds what it touches. -/
  next_safe : ∀ step, job.steps[j]? = some step → step.Safe job.parameters s

variable {job : Job T} {depth : Nat}

/-- Slots that are handed on keep their count. -/
theorem size_slotsAfter (hneeds : job.Needs depth) {slots left : Array T.Value}
    (hslots : depth ≤ slots.size) {block : List T.Value}
    (h : job.slotsAfter slots block = .ok left) : left.size = slots.size := by
  induction block generalizing slots with
  | nil =>
      cases h
      rfl
  | cons x rest ih =>
      obtain ⟨⟨value, next⟩, hnext, h⟩ := bind_eq_ok_iff.mp h
      rcases element_cases hneeds hslots x with
        ⟨value', next', -, helement, hsize⟩ | ⟨fault, -, helement⟩
      · cases helement.symm.trans hnext
        exact (ih (hsize.symm ▸ hslots) h).trans hsize
      · cases helement.symm.trans hnext

/-- **Heights.** After `j` steps on `depth` slots the state is safe. -/
theorem safeAt_of_runAll (hneeds : job.Needs depth)
    (hregisters : ∀ register, .parameter register ∈ job.steps → register < job.parameters.length)
    {slots : Array T.Value} (hslots : slots.size = depth) {j : Nat} (hj : j ≤ job.steps.length)
    {x : T.Value} {s : Stack T}
    (h : Step.runAll job.parameters job.checked x (job.steps.take j) ⟨slots, 0⟩ = .ok s) :
    job.SafeAt depth j s := by
  obtain ⟨top, hrun, hdepth, -⟩ := Depth.run_of_required hneeds
  obtain ⟨-, hbetween, -⟩ := Depth.required_eq_ok hneeds
  obtain ⟨top', hfirst, hle⟩ := Depth.run_take hrun j
  rw [Int.zero_add, ← List.map_take] at hfirst
  have hstart : Stack.Represents (T := T) ⟨slots, 0⟩ [] := ⟨rfl, trivial⟩
  have hagrees := Step.runAll_agrees job.parameters job.checked x hstart hfirst
    (by dsimp only; omega)
  rw [h] at hagrees
  generalize hvalues : Step.actAll job.parameters job.checked x (job.steps.take j) [] = list
    at hagrees
  cases hagrees with
  | @ok _ values hsize hrepresents =>
      have hheight : (s.height : Int) = ((job.steps.map Step.delta).take j).sum := by
        rw [hrepresents.height, ← List.map_take]
        exact Step.length_actAll hfirst hvalues
      have hlength : (job.steps.map Step.delta).length = job.steps.length := List.length_map _
      have hsize' : s.slots.size = depth := hsize.trans hslots
      have hbound : 0 < j → 1 ≤ s.height ∧ s.height + 2 ≤ depth := by
        intro hpos
        have := hbetween j hpos (hlength ▸ hj)
        omega
      refine ⟨hsize', hheight, hbound, fun step hstep => ?_⟩
      -- The heights before and after the next step are two of the heights of the analysis.
      have hlt : j < job.steps.length := (List.getElem?_eq_some_iff.mp hstep).1
      have hdelta : (job.steps.map Step.delta)[j]? = some step.delta := by
        rw [List.getElem?_map, hstep, Option.map_some]
      have hnext := hbetween (j + 1) (Nat.succ_pos j) (hlength ▸ hlt)
      rw [List.take_add_one, hdelta, Option.toList_some, List.sum_append, List.sum_singleton,
        ← hheight] at hnext
      have hbefore : s.height ≤ s.slots.size := by
        rcases Nat.eq_zero_or_pos j with rfl | hpos
        · simp only [List.take_zero, List.sum_nil] at hheight
          omega
        · have := hbound hpos
          omega
      refine Step.safe_of_height hbefore hnext.1 (by omega) fun register hregister => ?_
      exact hregisters register (hregister ▸ List.mem_of_getElem? hstep)

/-- Every state that a lane comes to is safe. -/
theorem safeAt_of_visits (hneeds : job.Needs depth)
    (hregisters : ∀ register, .parameter register ∈ job.steps → register < job.parameters.length)
    {slots : Array T.Value} (hslots : slots.size = depth) {block : List T.Value} {i j : Nat}
    {s : Stack T} (h : job.Visits slots block i j s) : job.SafeAt depth j s := by
  obtain ⟨hj, x, before, -, hbefore, hrun⟩ := h
  have hsize := size_slotsAfter hneeds (Nat.le_of_eq hslots.symm) hbefore
  exact safeAt_of_runAll hneeds hregisters (hsize.trans hslots) hj hrun

/-- A lane writes the result of the element that it comes to. -/
theorem lane_of_slotsAfter {index i : Nat} {slots before left : Array T.Value}
    {block : List T.Value} {x value : T.Value} (hx : block[i]? = some x)
    (hbefore : job.slotsAfter slots (block.take i) = .ok before)
    (helement : job.element before x = .ok (value, left)) :
    (job.lane index slots block).1[i]? = some value := by
  induction block generalizing index i slots with
  | nil => cases hx
  | cons y rest ih =>
      cases i with
      | zero =>
          cases hx
          cases hbefore
          rw [lane, helement]
          rfl
      | succ i =>
          rw [List.take_succ_cons] at hbefore
          obtain ⟨⟨value', next⟩, hnext, hbefore⟩ := bind_eq_ok_iff.mp hbefore
          rw [lane, hnext]
          exact ih hx hbefore

/-- After the last step the value of the element is the only one, in the lowest slot, and the lane
writes it. -/
theorem result_of_visits (hneeds : job.Needs depth)
    (hregisters : ∀ register, .parameter register ∈ job.steps → register < job.parameters.length)
    {slots : Array T.Value} (hslots : slots.size = depth) {block : List T.Value} {i : Nat}
    {s : Stack T} (h : job.Visits slots block i job.steps.length s) (index : Nat) :
    s.height = 1 ∧ ∃ x value, block[i]? = some x ∧ job.value x = .ok value ∧
      s.slots[0]? = some value ∧ (job.lane index slots block).1[i]? = some value := by
  have hsafe := safeAt_of_visits hneeds hregisters hslots h
  obtain ⟨-, x, before, hx, hbefore, hrun⟩ := h
  obtain ⟨hsum, -, -⟩ := Depth.required_eq_ok hneeds
  have hheight : s.height = 1 := by
    have := hsafe.height_eq
    rw [← List.map_take, List.take_length, hsum] at this
    omega
  have hzero : s.slots[0]? = some (s.slots.getD 0 T.zero) := by
    obtain ⟨top, -, hdepth, -⟩ := Depth.run_of_required hneeds
    have hpos : 0 < s.slots.size := by
      rw [hsafe.size_eq]
      omega
    rw [Array.getD_eq_getD_getElem?, Array.getElem?_eq_getElem hpos, Option.getD_some]
  have helement : job.element before x = .ok (s.slots.getD 0 T.zero, s.slots) := by
    rw [List.take_length] at hrun
    rw [element, hrun, ok_bind]
  have hsize := (size_slotsAfter hneeds (Nat.le_of_eq hslots.symm) hbefore).trans hslots
  rcases element_cases hneeds (Nat.le_of_eq hsize.symm) x with
    ⟨value, left, hvalue, helement', -⟩ | ⟨fault, -, helement'⟩
  · cases helement.symm.trans helement'
    exact ⟨hheight, x, _, hx, hvalue, hzero, lane_of_slotsAfter hx hbefore helement⟩
  · cases helement.symm.trans helement'

end Job

/-! ## Runs -/

namespace Bytecode

variable {b : Bytecode T} {parameters : List T.Value} {memory : Scratch T}
  {source destination : List T.Value} {options : RunOptions} {steps : List (Step T)} {depth : Nat}

/-- A run writes the value of an element that it processes before its fault, if it has one. -/
theorem destination_of_value
    (h : Prepared b parameters memory source destination options.lanes steps depth) {k : Nat}
    {x value : T.Value} (hx : (processed options.limit source)[k]? = some x)
    (hvalue : Job.value ⟨steps, parameters, options.checked⟩ x = .ok value) :
    let o := b.execute parameters memory source destination options
    (∀ index op reason, o.error = some (.arithmeticFault index op reason) → k < index) →
      o.destination[k]? = some value := by
  intro o hbefore
  have heach : o.EachAlone _ _ source destination := eachAlone_of_prepared h
  have hsource := getElem?_of_processed hx
  have hk : k < processedCount options.limit source.length := by
    rw [← length_processed]
    exact (List.getElem?_eq_some_iff.mp hx).1
  have hwritten : ∃ count, k < count ∧
      WrittenUpTo (b.alone parameters options.checked) source destination o.destination count := by
    rcases regular_of_prepared h with hnone | ⟨index, op, reason, hfault⟩
    · exact ⟨_, hk, heach.success hnone⟩
    · exact ⟨index, hbefore _ _ _ hfault, (heach.fault _ _ _ hfault).2.2⟩
  obtain ⟨count, hcount, hwritten, -⟩ := hwritten
  obtain ⟨y, result, hy, halone, hresult⟩ := hwritten k hcount
  cases hsource.symm.trans hy
  rw [alone_of_value h.analyzed hvalue] at halone
  cases halone
  exact hresult

end Bytecode

/-- **Safety.** Once the arguments of a run pass, nothing outside of an array is touched. There is a
register and a constant for every code. The slice of every lane has as many slots as the stack
needs, and lies within the memory. Whatever state a lane comes to, for whatever element of its
block, the element is one of both arrays, and the state is safe: the height is the sum of the deltas
so far, from one up to two below the depth once there was a step, and the next step finds the slot,
the operands and the register it touches. After the last step one value is left, in the lowest slot;
this is what the lane writes, and what the run leaves unless it faulted before. -/
theorem Bytecode.execute_safe {b : Bytecode T} {parameters : List T.Value} {memory : Scratch T}
    {source destination : List T.Value} {lanes : Nat} {steps : List (Step T)} {depth : Nat}
    (h : b.prepare parameters memory source destination lanes = .ok (steps, depth))
    (checked : Bool) (limit : Nat) :
    let input := processed limit source
    let size := max 1 ((input.length + lanes - 1) / lanes)
    let count := min ((input.length + size - 1) / size) lanes
    let job : Job T := ⟨steps, parameters, checked⟩
    let o := b.execute parameters memory source destination ⟨lanes, checked, limit⟩
    (b.codes.length = steps.length ∧ b.registers.length = steps.length ∧
      b.constants.length = steps.length) ∧
    ∀ number < count,
      let slots := memory.slice depth number
      let block := (input.drop (number * size)).take size
      slots.size = depth ∧ (memory.size < sizeLimit → (number + 1) * depth ≤ memory.size) ∧
      ∀ i j s, job.Visits slots block i j s →
        number * size + i < source.length ∧ number * size + i < destination.length ∧
        job.SafeAt depth j s ∧
        (j = steps.length → s.height = 1 ∧ ∃ value, s.slots[0]? = some value ∧
          (job.lane (number * size) slots block).1[i]? = some value ∧
          ((∀ index op reason, o.error = some (.arithmeticFault index op reason) →
            number * size + i < index) → o.destination[number * size + i]? = some value)) := by
  intro input size count job o
  have hprepared := prepare_eq_ok_iff.mp h
  obtain ⟨hlength, hregisters⟩ := hprepared.steps_spec
  have hneeds : job.Needs depth := hprepared.depth_eq
  refine ⟨⟨hlength.symm, ?_, ?_⟩, ?_⟩
  · rw [← hprepared.registers, hlength]
  · rw [← hprepared.constants, hlength]
  intro number hnumber slots block
  have hslots : slots.size = depth := Array.size_ofFn
  have hlane : number < lanes := Nat.lt_of_lt_of_le hnumber (Nat.min_le_right _ _)
  have hblock : ∀ {i x}, block[i]? = some x → input[number * size + i]? = some x := by
    intro i x hx
    rw [List.getElem?_take] at hx
    split at hx
    · rw [List.getElem?_drop] at hx
      exact hx
    · cases hx
  refine ⟨hslots, fun hsize => hprepared.slice_le hsize hlane, fun i j s hvisits => ?_⟩
  have hwithin : number * size + i < source.length := by
    obtain ⟨-, x, -, hx, -, -⟩ := hvisits
    exact (List.getElem?_eq_some_iff.mp (getElem?_of_processed (hblock hx))).1
  refine ⟨hwithin, hprepared.arrays ▸ hwithin,
    Job.safeAt_of_visits hneeds hregisters hslots hvisits, ?_⟩
  rintro rfl
  obtain ⟨hheight, x, value, hx, hvalue, hzero, hresult⟩ :=
    Job.result_of_visits hneeds hregisters hslots hvisits (number * size)
  exact ⟨hheight, value, hzero, hresult, destination_of_value hprepared (hblock hx) hvalue⟩

/-- Bytecode of `a * x + b` over bytes. -/
def Bytecode.affine : Bytecode (.int ⟨true, .w8⟩) :=
  ⟨[1, 0, 1, 9, 7], [1, 0, 0, 0, 0], [0#8, 0#8, 0#8, 0#8, 0#8]⟩

/-- The job of `10 * x + 4` over bytes. -/
def Job.affine : Job (.int ⟨true, .w8⟩) :=
  ⟨[.parameter 1, .element, .parameter 0, .binary .mul, .binary .add], [10#8, 4#8], true⟩

/-- `10 * x + 4` on two lanes: the first lane, at the end of its second element, holds the result in
the lowest slot, and what is left over above it. -/
theorem Bytecode.execute_safe_affine :
    affine.prepare [10#8, 4#8] (.zeros _ 10) [2#8, 3#8, 4#8] [7#8, 7#8, 7#8] 2 =
        .ok (Job.affine.steps, 5) ∧
      Job.affine.Visits ((Scratch.zeros _ 10).slice 5 0) [2#8, 3#8] 1 5
        ⟨#[34#8, 30#8, 10#8, 0#8, 0#8], 1⟩ ∧
      Job.affine.SafeAt 5 5 ⟨#[34#8, 30#8, 10#8, 0#8, 0#8], 1⟩ ∧
      (affine.execute [10#8, 4#8] (.zeros _ 10) [2#8, 3#8, 4#8] [7#8, 7#8, 7#8]
        ⟨2, true, 0⟩).destination[1]? = some 34#8 := by
  have hprepare : affine.prepare [10#8, 4#8] (.zeros _ 10) [2#8, 3#8, 4#8] [7#8, 7#8, 7#8] 2 =
      .ok (Job.affine.steps, 5) := rfl
  have hbefore : Job.affine.slotsAfter ((Scratch.zeros _ 10).slice 5 0) [2#8] =
      .ok #[24#8, 20#8, 10#8, 0#8, 0#8] := by rfl
  have hrun : Step.runAll Job.affine.parameters true 3#8 Job.affine.steps
      ⟨#[24#8, 20#8, 10#8, 0#8, 0#8], 0⟩ = .ok ⟨#[34#8, 30#8, 10#8, 0#8, 0#8], 1⟩ := by rfl
  have hvisits : Job.affine.Visits ((Scratch.zeros _ 10).slice 5 0) [2#8, 3#8] 1 5
      ⟨#[34#8, 30#8, 10#8, 0#8, 0#8], 1⟩ :=
    ⟨Nat.le_refl 5, 3#8, _, rfl, hbefore, hrun⟩
  obtain ⟨-, hlanes⟩ := execute_safe hprepare true 0
  obtain ⟨-, -, hstates⟩ := hlanes 0 (by decide)
  obtain ⟨-, -, hsafe, hend⟩ := hstates 1 5 _ hvisits
  obtain ⟨-, value, hzero, -, hleft⟩ := hend rfl
  cases hzero
  exact ⟨hprepare, hvisits, hsafe, hleft nofun⟩

end Elementwise
