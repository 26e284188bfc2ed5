import Elementwise.Proofs.Stack

/-!
# Lanes one after the other

A job run over elements without lanes is `Job.plain`: the values up to the first fault, and the
fault. Lanes run one after the other give the same, because slots do not matter
(`Job.lane_eq_plain`), blocks follow each other (`Job.plain_append`), and the blocks that lanes take
up cover all elements (`le_blocks_mul_size`). So a run whose arguments pass
(`Bytecode.prepare_eq_ok_iff`) leaves what the plain job gives (`Bytecode.execute_eq_plain`).
-/

namespace Elementwise

variable {T : ElementType}

/-! ## The plain job -/

namespace Job

variable {job : Job T} {depth : Nat}

/-- A job over elements, the first of which has number `index`: the values up to the first fault,
and that fault. -/
def plain (job : Job T) : (index : Nat) → List T.Value → List T.Value × Option ElementFault
  | _, [] => ([], none)
  | index, x :: rest =>
    match job.value x with
    | .error fault => ([], some ⟨index, fault.operation, fault.reason⟩)
    | .ok value => (value :: (job.plain (index + 1) rest).1, (job.plain (index + 1) rest).2)

/-- Every value of the plain job is that of its element. -/
theorem value_of_plain {index i : Nat} {list : List T.Value} {value : T.Value}
    (h : (job.plain index list).1[i]? = some value) :
    ∃ x, list[i]? = some x ∧ job.value x = .ok value := by
  induction list generalizing index i with
  | nil => cases h
  | cons x rest ih =>
      rw [plain] at h
      rcases hx : job.value x with fault | value'
      · rw [hx] at h
        cases h
      · rw [hx] at h
        cases i with
        | zero =>
            cases h
            exact ⟨x, rfl, hx⟩
        | succ i => exact ih h

/-- Without a fault there is a value for every element. -/
theorem length_plain_of_none {index : Nat} {list : List T.Value}
    (h : (job.plain index list).2 = none) : (job.plain index list).1.length = list.length := by
  induction list generalizing index with
  | nil => rfl
  | cons x rest ih =>
      rw [plain] at h ⊢
      rcases hx : job.value x with fault | value
      · rw [hx] at h
        cases h
      · rw [hx] at h
        exact congrArg Nat.succ (ih h)

/-- A fault is that of the element after the last value. -/
theorem fault_of_plain {index : Nat} {list : List T.Value} {fault : ElementFault}
    (h : (job.plain index list).2 = some fault) :
    fault.index = index + (job.plain index list).1.length ∧
      ∃ x, list[(job.plain index list).1.length]? = some x ∧
        job.value x = .error ⟨fault.operation, fault.reason⟩ := by
  induction list generalizing index with
  | nil => cases h
  | cons x rest ih =>
      rw [plain] at h ⊢
      rcases hx : job.value x with fault' | value
      · rw [hx] at h
        cases h
        exact ⟨rfl, x, rfl, hx⟩
      · rw [hx] at h
        obtain ⟨hindex, hfault⟩ := ih h
        exact ⟨by rw [hindex, List.length_cons]; omega, hfault⟩

/-- There is no fault exactly if every element has a value. -/
theorem plain_eq_none_iff {index : Nat} {list : List T.Value} :
    (job.plain index list).2 = none ↔ ∀ x ∈ list, ∃ value, job.value x = .ok value := by
  induction list generalizing index with
  | nil => simp [plain]
  | cons x rest ih =>
      rw [plain, List.forall_mem_cons]
      rcases job.value x with fault | value
      · simp
      · simp [ih]

/-- Jobs that give the same for each element give the same. -/
theorem plain_congr {job' : Job T} {list : List T.Value}
    (h : ∀ x ∈ list, job.value x = job'.value x) (index : Nat) :
    job.plain index list = job'.plain index list := by
  induction list generalizing index with
  | nil => rfl
  | cons x rest ih =>
      obtain ⟨hx, hrest⟩ := List.forall_mem_cons.mp h
      rw [plain, plain, hx, ih hrest (index + 1)]

/-- A lane gives what the plain job gives for its block. -/
theorem lane_eq_plain (hneeds : job.Needs depth) (index : Nat) {slots : Array T.Value}
    (hslots : depth ≤ slots.size) (block : List T.Value) :
    job.lane index slots block = job.plain index block := by
  induction block generalizing index slots with
  | nil => rfl
  | cons x rest ih =>
      rw [lane, plain]
      rcases element_cases hneeds hslots x with
        ⟨value, left, hvalue, helement, hsize⟩ | ⟨fault, hvalue, helement⟩
      · rw [helement, hvalue]
        simp only [ih (index + 1) (hsize.symm ▸ hslots)]
      · rw [helement, hvalue]

/-- Elements after elements: they are reached if nothing before them faults. -/
theorem plain_append (job : Job T) (index : Nat) (first second : List T.Value) :
    job.plain index (first ++ second) =
      match job.plain index first with
      | (values, some fault) => (values, some fault)
      | (values, none) =>
        (values ++ (job.plain (index + first.length) second).1,
          (job.plain (index + first.length) second).2) := by
  induction first generalizing index with
  | nil => rfl
  | cons x rest ih =>
      rw [List.cons_append, plain, plain]
      cases job.value x with
      | error fault => rfl
      | ok value =>
          have hlength : index + 1 + rest.length = index + (x :: rest).length := by
            rw [List.length_cons]
            omega
          simp only [ih (index + 1), hlength]
          rcases job.plain (index + 1) rest with ⟨values, _ | fault⟩ <;> rfl

/-- Neighbouring lanes give what the plain job gives for their blocks together. -/
theorem lanes_eq_plain (hneeds : job.Needs depth) (memory : Scratch T) (size : Nat)
    (source : List T.Value) (first count : Nat) :
    job.lanes memory depth size source (List.range' first count) =
      job.plain (first * size) ((source.drop (first * size)).take (count * size)) := by
  induction count generalizing first with
  | zero => simp [lanes, plain]
  | succ count ih =>
      have hslice : depth ≤ (memory.slice depth first).size := by simp [Scratch.slice]
      rw [List.range'_succ, lanes, lane_eq_plain hneeds _ hslice, ih (first + 1)]
      have hsplit : (source.drop (first * size)).take ((count + 1) * size) =
          (source.drop (first * size)).take size ++
            (source.drop ((first + 1) * size)).take (count * size) := by
        rw [Nat.succ_mul count, Nat.add_comm (count * size), List.take_add, List.drop_drop,
          Nat.succ_mul first]
      rw [hsplit, plain_append]
      rcases hfirst : job.plain (first * size) ((source.drop (first * size)).take size) with
        ⟨values, _ | fault⟩
      · -- A block that is not full is the last one, and nothing comes after it.
        rcases Nat.lt_or_ge ((first + 1) * size) source.length with hmore | hend
        · have hfull : ((source.drop (first * size)).take size).length = size := by
            rw [Nat.succ_mul] at hmore
            rw [List.length_take, List.length_drop]
            omega
          simp only [hfull, Nat.succ_mul first]
        · simp only [List.drop_eq_nil_of_le hend, List.take_nil, plain]
      · rfl

end Job

/-! ## Blocks -/

/-- Rounding a quotient up loses nothing. -/
theorem le_ceilDiv_mul (n : Nat) {d : Nat} (hd : 0 < d) : n ≤ (n + d - 1) / d * d := by
  have hsum := Nat.div_add_mod (n + d - 1) d
  have hmod := Nat.mod_lt (n + d - 1) hd
  rw [Nat.mul_comm] at hsum
  omega

/-- There are no more blocks than lanes. -/
theorem blocks_le_lanes (n : Nat) {lanes size : Nat} (hsize : 0 < size)
    (hcover : n ≤ lanes * size) : (n + size - 1) / size ≤ lanes := by
  have hlt : n + size - 1 < (lanes + 1) * size := by
    rw [Nat.succ_mul]
    omega
  exact Nat.lt_succ_iff.mp ((Nat.div_lt_iff_lt_mul hsize).mpr hlt)

/-- The blocks that lanes take up cover all elements. -/
theorem le_blocks_mul_size (n : Nat) {lanes : Nat} (hlanes : 0 < lanes) :
    let size := max 1 ((n + lanes - 1) / lanes)
    n ≤ min ((n + size - 1) / size) lanes * size := by
  intro size
  have hsize : 0 < size := by omega
  have hcover : n ≤ lanes * size := by
    calc n ≤ (n + lanes - 1) / lanes * lanes := le_ceilDiv_mul n hlanes
      _ ≤ size * lanes := Nat.mul_le_mul_right lanes (Nat.le_max_right _ _)
      _ = lanes * size := Nat.mul_comm _ _
  rw [Nat.min_eq_left (blocks_le_lanes n hsize hcover)]
  exact le_ceilDiv_mul n hsize

/-! ## Whole runs -/

namespace Bytecode

/-- The arguments of a run pass: bytecode that decodes to `steps` of a depth, arrays of equal
length, memory for all lanes, and parameters that may be bound. -/
structure Prepared (b : Bytecode T) (parameters : List T.Value) (memory : Scratch T)
    (source destination : List T.Value) (lanes : Nat) (steps : List (Step T)) (depth : Nat) :
    Prop where
  registers : b.codes.length = b.registers.length
  constants : b.codes.length = b.constants.length
  arrays : source.length = destination.length
  lanes_pos : 0 < lanes
  decoded : b.decode parameters.length = .ok steps
  depth_eq : Depth.required sizeLimit (steps.map Step.delta) = .ok depth
  scratch : min (depth * lanes) sizeLimit ≤ memory.size
  admissible : ∀ a ∈ parameters, T.isAdmissible a = true

/-- No parameter is inadmissible if each one is admissible. -/
theorem inadmissible?_eq_none_iff {index : Nat} {parameters : List T.Value} :
    inadmissible? index parameters = none ↔ ∀ a ∈ parameters, T.isAdmissible a = true := by
  induction parameters generalizing index with
  | nil => simp [inadmissible?]
  | cons a rest ih =>
      rw [inadmissible?, List.forall_mem_cons]
      by_cases ha : T.isAdmissible a = true
      · rw [if_pos ha, ih]
        simp [ha]
      · rw [if_neg ha]
        simp [ha]

variable {b : Bytecode T} {parameters : List T.Value} {memory : Scratch T}
  {source destination : List T.Value} {lanes : Nat} {steps : List (Step T)} {depth : Nat}

/-- The checks before a run pass exactly if each of them does. -/
theorem prepare_eq_ok_iff :
    b.prepare parameters memory source destination lanes = .ok (steps, depth) ↔
      Prepared b parameters memory source destination lanes steps depth := by
  constructor
  · intro h
    unfold prepare at h
    split at h
    · cases h
    · rename_i hlengths
      split at h
      · cases h
      · rename_i harrays
        split at h
        · cases h
        · rename_i hlanes
          obtain ⟨found, hdecoded, h⟩ := bind_eq_ok_iff.mp h
          obtain ⟨needed, hdepth, h⟩ := bind_eq_ok_iff.mp h
          split at h
          · cases h
          · rename_i hscratch
            split at h
            · cases h
            · rename_i hnone
              cases h
              exact ⟨by omega, by omega, by omega, by omega, hdecoded, hdepth, by omega,
                inadmissible?_eq_none_iff.mp hnone⟩
  · intro h
    have hnone : inadmissible? 0 parameters = none := inadmissible?_eq_none_iff.mpr h.admissible
    have hlengths : ¬(b.codes.length ≠ b.registers.length ∨ b.codes.length ≠ b.constants.length) :=
      fun hne => hne.elim (· h.registers) (· h.constants)
    unfold prepare
    rw [if_neg hlengths, if_neg (· h.arrays), if_neg (Nat.pos_iff_ne_zero.mp h.lanes_pos),
      h.decoded, ok_bind, h.depth_eq, ok_bind, if_neg (Nat.not_lt.mpr h.scratch), hnone]

/-- What passes for many lanes passes for one. -/
theorem Prepared.single (h : Prepared b parameters memory source destination lanes steps depth) :
    Prepared b parameters memory source destination 1 steps depth where
  registers := h.registers
  constants := h.constants
  arrays := h.arrays
  lanes_pos := Nat.one_pos
  decoded := h.decoded
  depth_eq := h.depth_eq
  scratch := by
    have hless : depth * 1 ≤ depth * lanes := Nat.mul_le_mul_left depth h.lanes_pos
    have := h.scratch
    omega
  admissible := h.admissible

theorem length_processed_le (limit : Nat) (source : List T.Value) :
    (processed limit source).length ≤ source.length := by
  unfold processed
  split
  · exact Nat.le_refl _
  · rw [List.length_take]
    exact Nat.min_le_right _ _

/-- **Lanes in turn.** A run whose arguments pass leaves what the plain job gives. -/
theorem execute_eq_plain {options : RunOptions}
    (h : Prepared b parameters memory source destination options.lanes steps depth) :
    b.execute parameters memory source destination options =
      let result := Job.plain ⟨steps, parameters, options.checked⟩ 0
        (processed options.limit source)
      ⟨result.1 ++ destination.drop result.1.length,
        result.2.map fun f => .arithmeticFault f.index f.operation f.reason⟩ := by
  have hneeds : Job.Needs ⟨steps, parameters, options.checked⟩ depth := h.depth_eq
  have hcover := le_blocks_mul_size (processed options.limit source).length h.lanes_pos
  unfold execute
  rw [prepare_eq_ok_iff.mpr h]
  simp only [List.range_eq_range', Job.lanes_eq_plain hneeds, Nat.zero_mul, List.drop_zero]
  rw [List.take_of_length_le hcover]

end Bytecode

end Elementwise
