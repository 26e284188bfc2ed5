import Elementwise.Proofs.Evaluation

/-!
# Each element alone

A run over an array does for every element what it would do for that element alone, on a stack of
its own that holds zeros (`Bytecode.alone`). Up to the first fault the results are written, and
nothing else changes; a run that is refused changes nothing (`Outcome.EachAlone`).

Arguments are refused for other reasons than arithmetic (`Bytecode.prepare_cases`). If they pass,
the run leaves what the plain job gives, and the plain job goes through the values of the elements,
which are what the machine computes on any slots (`Bytecode.alone_eq`).
-/

namespace Elementwise

variable {T : ElementType}

/-! ## Refused arguments -/

/-- Heights are never refused for a fault. -/
theorem Depth.faultIndex?_of_run {position : Nat} {height peak : Int} {deltas : List Int}
    {e : Error} (h : run position height peak deltas = .error e) : e.faultIndex? = none := by
  induction deltas generalizing position height peak with
  | nil => cases h
  | cons delta rest ih =>
      rw [run] at h
      split at h
      · cases h
        rfl
      · exact ih h

/-- Depths are never refused for a fault. -/
theorem Depth.faultIndex?_of_required {limit : Nat} {deltas : List Int} {e : Error}
    (h : required limit deltas = .error e) : e.faultIndex? = none := by
  unfold required at h
  rcases bind_eq_error_iff.mp h with hrun | ⟨⟨height, peak⟩, -, h⟩
  · exact faultIndex?_of_run hrun
  · dsimp only at h
    split at h
    · cases h
      rfl
    · split at h
      · cases h
        rfl
      · cases h

/-- An instruction is never refused for a fault. -/
theorem Step.faultIndex?_of_decode {given position code register : Nat} {constant : T.Value}
    {e : Error} (h : decode given position code register constant = .error e) :
    e.faultIndex? = none := by
  unfold decode at h
  split at h
  case h_1 =>
    cases h
    rfl
  case h_3 =>
    split at h
    · cases h
      rfl
    · cases h
  case h_5 =>
    split at h
    · cases h
    · cases h
  all_goals cases h

namespace Bytecode

/-- Instructions are never refused for a fault. -/
theorem faultIndex?_of_decodeFrom {given position : Nat} {codes registers : List Nat}
    {constants : List T.Value} {e : Error}
    (h : decodeFrom given position codes registers constants = .error e) :
    e.faultIndex? = none := by
  fun_induction decodeFrom given position codes registers constants with
  | case1 position code codes register registers constant constants ih =>
      rcases bind_eq_error_iff.mp h with hstep | ⟨step, -, h⟩
      · exact Step.faultIndex?_of_decode hstep
      · rcases bind_eq_error_iff.mp h with hrest | ⟨steps, -, h⟩
        · exact ih hrest
        · cases h
  | case2 => cases h

/-- Bytecode is never refused for a fault. -/
theorem faultIndex?_of_decode {b : Bytecode T} {given : Nat} {e : Error}
    (h : b.decode given = .error e) : e.faultIndex? = none := by
  unfold decode at h
  rcases bind_eq_error_iff.mp h with hfrom | ⟨steps, -, h⟩
  · exact faultIndex?_of_decodeFrom hfrom
  · split at h
    · cases h
      rfl
    · cases h

/-- The arguments of a run are never refused for a fault. -/
theorem faultIndex?_of_prepare {b : Bytecode T} {parameters : List T.Value} {memory : Scratch T}
    {source destination : List T.Value} {lanes : Nat} {e : Error}
    (h : b.prepare parameters memory source destination lanes = .error e) :
    e.faultIndex? = none := by
  unfold prepare at h
  split at h
  · cases h
    rfl
  split at h
  · cases h
    rfl
  split at h
  · cases h
    rfl
  rcases bind_eq_error_iff.mp h with hdecode | ⟨steps, -, h⟩
  · exact faultIndex?_of_decode hdecode
  rcases bind_eq_error_iff.mp h with hdepth | ⟨depth, -, h⟩
  · exact Depth.faultIndex?_of_required hdepth
  split at h
  · cases h
    rfl
  split at h
  · cases h
    rfl
  · cases h

/-- Arguments pass, or they are refused and the run leaves the destination. -/
theorem prepare_cases (b : Bytecode T) (parameters : List T.Value) (memory : Scratch T)
    (source destination : List T.Value) (lanes : Nat) :
    (∃ steps depth, b.Prepared parameters memory source destination lanes steps depth) ∨
      ∃ e : Error, e.faultIndex? = none ∧ ∀ checked limit,
        b.execute parameters memory source destination ⟨lanes, checked, limit⟩ =
          ⟨destination, some e⟩ := by
  rcases h : b.prepare parameters memory source destination lanes with e | ⟨steps, depth⟩
  · refine .inr ⟨e, faultIndex?_of_prepare h, fun checked limit => ?_⟩
    rw [execute, h]
  · exact .inl ⟨steps, depth, prepare_eq_ok_iff.mp h⟩

/-! ## One element alone -/

/-- The steps of bytecode for a run with `given` parameters, and the stack depth that they need. -/
def analyzed (b : Bytecode T) (given : Nat) : Except Error (List (Step T) × Nat) := do
  let steps ← b.decode given
  let depth ← Depth.required sizeLimit (steps.map Step.delta)
  .ok (steps, depth)

/-- The result of bytecode for one element, run on its own on slots that hold zeros. -/
def alone (b : Bytecode T) (parameters : List T.Value) (checked : Bool) (x : T.Value) :
    Except Error T.Value := do
  let (steps, depth) ← b.analyzed parameters.length
  match Job.element ⟨steps, parameters, checked⟩ (Array.replicate depth T.zero) x with
  | .ok (value, _) => .ok value
  | .error fault => .error (.arithmeticFault 0 fault.operation fault.reason)

/-- The count of elements that a limit leaves of `length` ones. -/
def processedCount (limit length : Nat) : Nat :=
  if limit = 0 then length else min limit length

variable {b : Bytecode T} {parameters : List T.Value} {memory : Scratch T}
  {source destination : List T.Value} {lanes : Nat} {steps : List (Step T)} {depth : Nat}

/-- As many elements are processed as are counted. -/
theorem length_processed (limit : Nat) (source : List T.Value) :
    (processed limit source).length = processedCount limit source.length := by
  unfold processed processedCount
  by_cases h : limit = 0
  · rw [if_pos h, if_pos h]
  · rw [if_neg h, if_neg h, List.length_take]

/-- Elements that are processed are those of the source. -/
theorem getElem?_of_processed {limit i : Nat} {x : T.Value}
    (h : (processed limit source)[i]? = some x) : source[i]? = some x := by
  unfold processed at h
  split at h
  · exact h
  · rw [List.getElem?_take] at h
    split at h
    · exact h
    · cases h

/-- Bytecode of a run that is prepared is analyzed with its steps and depth. -/
theorem Prepared.analyzed (h : Prepared b parameters memory source destination lanes steps depth) :
    b.analyzed parameters.length = .ok (steps, depth) := by
  rw [Bytecode.analyzed, h.decoded, ok_bind, h.depth_eq, ok_bind]

/-- Alone an element has the value of the job. -/
theorem alone_eq (h : b.analyzed parameters.length = .ok (steps, depth)) (checked : Bool)
    (x : T.Value) :
    b.alone parameters checked x = (Job.value ⟨steps, parameters, checked⟩ x).mapError
      fun fault => .arithmeticFault 0 fault.operation fault.reason := by
  have hneeds : Job.Needs ⟨steps, parameters, checked⟩ depth := by
    unfold Bytecode.analyzed at h
    obtain ⟨steps', -, h⟩ := bind_eq_ok_iff.mp h
    obtain ⟨depth', hdepth, h⟩ := bind_eq_ok_iff.mp h
    cases h
    exact hdepth
  have hslots : depth ≤ (Array.replicate depth T.zero).size :=
    Nat.le_of_eq Array.size_replicate.symm
  rw [alone, h, ok_bind]
  dsimp only
  rcases Job.element_cases hneeds hslots x with
    ⟨value, left, hvalue, helement, -⟩ | ⟨fault, hvalue, helement⟩
  · rw [hvalue, helement]
    rfl
  · rw [hvalue, helement]
    rfl

/-- An element with a value has it alone. -/
theorem alone_of_value (h : b.analyzed parameters.length = .ok (steps, depth)) {checked : Bool}
    {x value : T.Value} (hvalue : Job.value ⟨steps, parameters, checked⟩ x = .ok value) :
    b.alone parameters checked x = .ok value := by
  rw [alone_eq h, hvalue]
  rfl

/-- An element with a fault has it alone, as the first one. -/
theorem alone_of_fault (h : b.analyzed parameters.length = .ok (steps, depth)) {checked : Bool}
    {x : T.Value} {fault : OperationFault}
    (hfault : Job.value ⟨steps, parameters, checked⟩ x = .error fault) :
    b.alone parameters checked x =
      .error (.arithmeticFault 0 fault.operation fault.reason) := by
  rw [alone_eq h, hfault]
  rfl

end Bytecode

/-! ## All elements -/

/-- The first `count` results are those of their elements alone, and from there on the destination
is what it was before. -/
def WrittenUpTo (alone : T.Value → Except Error T.Value) (source before after : List T.Value)
    (count : Nat) : Prop :=
  (∀ i < count, ∃ x value,
    source[i]? = some x ∧ alone x = .ok value ∧ after[i]? = some value) ∧
  ∀ i, count ≤ i → after[i]? = before[i]?

/-- The outcome of a run over `count` elements that does for each of them what is done for it
alone. -/
structure Outcome.EachAlone (alone : T.Value → Except Error T.Value) (count : Nat)
    (source before : List T.Value) (o : Outcome T) : Prop where
  /-- A run that succeeds writes all results. -/
  success : o.error = none → WrittenUpTo alone source before o.destination count
  /-- A run that faults does so at the first element that faults alone, and writes what comes before
  it. -/
  fault : ∀ index op reason, o.error = some (.arithmeticFault index op reason) →
    index < count ∧
    (∃ x, source[index]? = some x ∧ alone x = .error (.arithmeticFault 0 op reason)) ∧
    WrittenUpTo alone source before o.destination index
  /-- Any other error leaves the destination. -/
  refusal : ∀ e, o.error = some e → (∀ index op reason, e ≠ .arithmeticFault index op reason) →
    o.destination = before

/-- An error that is not at an element leaves the destination: this is a run of each element
alone. -/
theorem Outcome.eachAlone_of_refusal {alone : T.Value → Except Error T.Value} {e : Error}
    (h : e.faultIndex? = none) (count : Nat) (source before : List T.Value) :
    Outcome.EachAlone alone count source before ⟨before, some e⟩ where
  success := nofun
  fault := by
    intro index op reason herror
    cases herror
    cases h
  refusal := fun _ _ _ => rfl

namespace Bytecode

variable {b : Bytecode T} {parameters : List T.Value} {memory : Scratch T}
  {source destination : List T.Value} {options : RunOptions} {steps : List (Step T)} {depth : Nat}

/-- The values of a plain job are those of its elements alone. -/
theorem writtenUpTo_plain (h : b.analyzed parameters.length = .ok (steps, depth))
    (source destination : List T.Value) (checked : Bool) (limit : Nat) :
    let values := (Job.plain ⟨steps, parameters, checked⟩ 0 (processed limit source)).1
    WrittenUpTo (b.alone parameters checked) source destination
      (values ++ destination.drop values.length) values.length := by
  intro values
  constructor
  · intro i hi
    have hat : values[i]? = some (values[i]) := List.getElem?_eq_getElem hi
    obtain ⟨x, hx, hvalue⟩ := Job.value_of_plain hat
    refine ⟨x, values[i], getElem?_of_processed hx, alone_of_value h hvalue, ?_⟩
    rw [List.getElem?_append_left hi, hat]
  · intro i hi
    rw [List.getElem?_append_right hi, List.getElem?_drop, Nat.add_sub_cancel' hi]

/-- A run whose arguments pass does for each element what is done for it alone. -/
theorem eachAlone_of_prepared
    (h : Prepared b parameters memory source destination options.lanes steps depth) :
    (b.execute parameters memory source destination options).EachAlone
      (b.alone parameters options.checked) (processedCount options.limit source.length)
      source destination := by
  have hwritten := writtenUpTo_plain h.analyzed source destination options.checked options.limit
  rw [execute_eq_plain h, ← length_processed]
  dsimp only at hwritten ⊢
  generalize hinput : processed options.limit source = input at hwritten ⊢
  rcases hplain : Job.plain ⟨steps, parameters, options.checked⟩ 0 input with ⟨values, _ | fault⟩
  · rw [hplain] at hwritten
    have hlength := Job.length_plain_of_none (congrArg Prod.snd hplain)
    rw [hplain] at hlength
    constructor
    case success => exact fun _ => hlength ▸ hwritten
    case fault =>
      intro index op reason herror
      cases herror
    case refusal =>
      intro e herror
      cases herror
  · rw [hplain] at hwritten
    obtain ⟨hindex, x, hx, hfault⟩ := Job.fault_of_plain (congrArg Prod.snd hplain)
    rw [hplain, Nat.zero_add] at hindex
    rw [hplain] at hx
    constructor
    case success => exact nofun
    case fault =>
      intro index op reason herror
      cases herror
      refine ⟨?_, ⟨x, ?_, alone_of_fault h.analyzed hfault⟩, ?_⟩
      · rw [hindex]
        exact (List.getElem?_eq_some_iff.mp hx).1
      · rw [hindex]
        exact getElem?_of_processed (hinput ▸ hx)
      · rw [hindex]
        exact hwritten
    case refusal =>
      intro e herror hother
      cases herror
      exact absurd rfl (hother _ _ _)

/-- Every run does for each element what is done for it alone. -/
theorem eachAlone (b : Bytecode T) (parameters : List T.Value) (memory : Scratch T)
    (source destination : List T.Value) (options : RunOptions) :
    (b.execute parameters memory source destination options).EachAlone
      (b.alone parameters options.checked) (processedCount options.limit source.length)
      source destination := by
  rcases b.prepare_cases parameters memory source destination options.lanes with
    ⟨steps, depth, h⟩ | ⟨e, hother, hexecute⟩
  · exact eachAlone_of_prepared h
  · rw [hexecute options.checked options.limit]
    exact Outcome.eachAlone_of_refusal hother _ _ _

/-- Memory of any sizes that suffice, whatever it holds, gives the same outcome. -/
theorem execute_eq_of_memory (b : Bytecode T) (parameters : List T.Value)
    (source destination : List T.Value) (options : RunOptions) {memory other : Scratch T}
    (h : ∀ steps depth, b.analyzed parameters.length = .ok (steps, depth) →
      min (depth * options.lanes) sizeLimit ≤ memory.size ∧
        min (depth * options.lanes) sizeLimit ≤ other.size) :
    b.execute parameters other source destination options =
      b.execute parameters memory source destination options := by
  have hprepare : b.prepare parameters other source destination options.lanes =
      b.prepare parameters memory source destination options.lanes := by
    unfold prepare
    refine if_congr Iff.rfl rfl (if_congr Iff.rfl rfl (if_congr Iff.rfl rfl ?_))
    rcases hsteps : b.decode parameters.length with e | steps
    · rfl
    · rw [ok_bind, ok_bind]
      rcases hdepth : Depth.required sizeLimit (steps.map Step.delta) with e | depth
      · rfl
      · obtain ⟨hmemory, hother⟩ := h steps depth (by
          rw [Bytecode.analyzed, hsteps, ok_bind, hdepth, ok_bind])
        rw [ok_bind, ok_bind, if_neg (Nat.not_lt.mpr hmemory), if_neg (Nat.not_lt.mpr hother)]
  rcases hresult : b.prepare parameters memory source destination options.lanes with
    e | ⟨steps, depth⟩
  · rw [execute, execute, hprepare, hresult]
  · rw [execute_eq_plain (prepare_eq_ok_iff.mp hresult),
      execute_eq_plain (prepare_eq_ok_iff.mp (hprepare.trans hresult))]

end Bytecode

/-! ## Programs and sessions -/

/-- The result of a session's program for one element, run on its own. -/
def Session.alone (s : Session T) (literals : List Literal) (checked : Bool) (x : T.Value) :
    Except Error T.Value :=
  match s.program with
  | none => .error .notCompiled
  | some p => do
    let parameters ← bindParameters p literals
    p.bytecode.alone parameters checked x

namespace Session

/-- Literals are never refused for a fault. -/
theorem faultIndex?_of_convert {index : Nat} {literals : List Literal} {e : Error}
    (h : convert (T := T) index literals = .error e) : e.faultIndex? = none := by
  induction literals generalizing index with
  | nil => cases h
  | cons l rest ih =>
      rw [convert] at h
      split at h
      · cases h
        rfl
      · rcases bind_eq_error_iff.mp h with hrest | ⟨others, -, h⟩
        · exact ih hrest
        · cases h

/-- Parameters are never refused for a fault. -/
theorem faultIndex?_of_bindParameters {p : Program T} {literals : List Literal} {e : Error}
    (h : bindParameters p literals = .error e) : e.faultIndex? = none := by
  unfold bindParameters at h
  split at h
  · cases h
    rfl
  · exact faultIndex?_of_convert h

/-- A session does for each element what its program does for it alone. -/
theorem eachAlone (s : Session T) (source destination : List T.Value) (literals : List Literal)
    (options : RunOptions) :
    (s.execute source destination literals options).EachAlone
      (s.alone literals options.checked)
      (Bytecode.processedCount options.limit source.length) source destination := by
  unfold Session.execute Session.alone
  rcases s.program with _ | p
  · exact Outcome.eachAlone_of_refusal rfl _ _ _
  · dsimp only
    rcases hparameters : bindParameters p literals with e | parameters
    · exact Outcome.eachAlone_of_refusal (faultIndex?_of_bindParameters hparameters) _ _ _
    · exact p.bytecode.eachAlone parameters (.zeros T (p.depth * max 1 options.lanes)) source
        destination ⟨max 1 options.lanes, options.checked, options.limit⟩

end Session

/-- The stand-alone result of a compiled program for an element, with checking on, is what the
program evaluates to. -/
theorem Program.Compiled.evaluate_eq_alone {equation element : String} {parameters : List String}
    {p : Program T} {t : Expr} {u : Formula} (h : p.Compiled equation element parameters t u)
    {values : List T.Value} (hvalues : values.length = p.parameters.length)
    (hadmissible : ∀ a ∈ values, T.isAdmissible a = true) (x : T.Value) :
    p.evaluate x values = p.bytecode.alone values true x := by
  have harrays : [x].length = [x].length := rfl
  have hprepared : p.bytecode.Prepared values (.zeros T (p.depth * 1)) [x] [x] 1
      (u.fold.code.map (Action.step T parameters)) p.depth :=
    h.prepared hvalues hadmissible harrays Nat.one_pos (Nat.min_le_left _ _)
  rw [h.evaluate_eq hvalues hadmissible, Bytecode.alone_eq hprepared.analyzed, ← Formula.value_job]

/-- **Element by element.** A run, with its lanes in turn, does for each element what is done for it
alone, and a refused run changes nothing. What the memory holds does not matter, nor does its size
as long as it suffices. The same goes for a session that writes in place. For a compiled program
with checking on, what is done for an element alone is to evaluate the program. -/
theorem Bytecode.execute_elementwise (b : Bytecode T) (parameters source destination : List T.Value)
    (options : RunOptions) :
    (∀ memory : Scratch T,
      (b.execute parameters memory source destination options).EachAlone
        (b.alone parameters options.checked) (processedCount options.limit source.length)
        source destination) ∧
    (∀ memory other : Scratch T,
      (∀ steps depth, b.analyzed parameters.length = .ok (steps, depth) →
        min (depth * options.lanes) sizeLimit ≤ memory.size ∧
          min (depth * options.lanes) sizeLimit ≤ other.size) →
      b.execute parameters other source destination options =
        b.execute parameters memory source destination options) ∧
    (∀ (s : Session T) (literals : List Literal),
      (s.executeInPlace source literals options).EachAlone (s.alone literals options.checked)
        (processedCount options.limit source.length) source source) ∧
    ∀ (settings : Settings) (equation element : String) (names : List String) (p : Program T),
      Program.compile T settings equation element names = .ok p →
      ∀ (values : List T.Value) (x : T.Value), values.length = p.parameters.length →
        (∀ a ∈ values, T.isAdmissible a = true) →
        p.bytecode.alone values true x = p.evaluate x values := by
  refine ⟨fun memory => ?_, fun memory other h => ?_, fun s literals => ?_, ?_⟩
  · exact b.eachAlone parameters memory source destination options
  · exact b.execute_eq_of_memory parameters source destination options h
  · exact s.eachAlone source source literals options
  · intro settings equation element names p hcompile values x hvalues hadmissible
    obtain ⟨t, u, hcompiled⟩ := Program.exists_compiled hcompile
    exact (hcompiled.evaluate_eq_alone hvalues hadmissible x).symm

/-- The program of `k // x` over bytes. -/
def Program.floorQuotient : Program (.int ⟨true, .w8⟩) :=
  ⟨⟨[0, 1, 11], [0, 0, 0], [0#8, 0#8, 0#8]⟩, 4, ["k"]⟩

/-- `k // x` on slots that hold other numbers: the second element faults, what comes before it is
written, and the third element keeps what it held. -/
theorem Bytecode.execute_elementwise_staleSlots :
    let p := Program.floorQuotient
    let o := p.bytecode.execute [100#8] ⟨9, fun i => BitVec.ofNat 8 (i + 1)⟩ [7#8, 0#8, 5#8]
      [1#8, 2#8, 3#8] .default
    o = ⟨[14#8, 2#8, 3#8], some (.arithmeticFault 1 .floorDiv .divisionByZero)⟩ ∧
      WrittenUpTo (p.bytecode.alone [100#8] true) [7#8, 0#8, 5#8] [1#8, 2#8, 3#8]
        o.destination 1 ∧
      o = p.bytecode.execute [100#8] (.zeros _ 4) [7#8, 0#8, 5#8] [1#8, 2#8, 3#8] .default ∧
      (Session.executeInPlace ⟨.default, some p⟩ [7#8, 0#8, 5#8] [.int 100] .default).EachAlone
        (p.bytecode.alone [100#8] true) 3 [7#8, 0#8, 5#8] [7#8, 0#8, 5#8] ∧
      p.bytecode.alone [100#8] true 0#8 = p.evaluate 0#8 [100#8] := by
  intro p o
  have hout : o = ⟨[14#8, 2#8, 3#8], some (.arithmeticFault 1 .floorDiv .divisionByZero)⟩ := rfl
  have hcompile : Program.compile (.int ⟨true, .w8⟩) .default "k // x" "x" ["k"] = .ok p := rfl
  have hparameters : Session.bindParameters p [.int 100] = .ok [100#8] := rfl
  obtain ⟨hall, hmemory, hplace, halone⟩ := execute_elementwise p.bytecode [100#8]
    [7#8, 0#8, 5#8] [1#8, 2#8, 3#8] .default
  refine ⟨hout, ?_, ?_, ?_, ?_⟩
  · exact ((hall _).fault 1 .floorDiv .divisionByZero (congrArg Outcome.error hout)).2.2
  · refine hmemory _ _ fun steps depth h => ?_
    cases h
    exact ⟨by decide, by decide⟩
  · have hsession := hplace ⟨.default, some p⟩ [.int 100]
    unfold Session.alone at hsession
    simp only [hparameters, ok_bind] at hsession
    exact hsession
  · exact halone _ _ _ _ _ hcompile _ _ rfl (fun _ _ => rfl)

end Elementwise
