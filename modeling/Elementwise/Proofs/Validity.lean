import Elementwise.Proofs.Emission
import Elementwise.Session

/-!
# Compiled programs are valid

`Program.exists_compiled` collects what a successful compilation gives: a tree, its formula, and the
bytecode of the folded formula with the depth it needs. Three things follow.

* The program is valid for the machine, instruction by instruction (`Program.Valid`).
* The checks before a run pass, whatever the number of lanes (`Program.Compiled.prepared`).
* So a run succeeds or ends with an arithmetic fault; no other error is left.
-/

namespace Elementwise

variable {T : ElementType}

/-! ## What a compilation gives -/

/-- The constants of a formula are their own double negatives if the numbers of its tree are. -/
theorem Expr.negate_negate_of_formula? {element : String} (e : Expr) {u : Formula}
    (h : e.formula? element = some u)
    (hwritten : ∀ l, .number l ∈ e.visits (fun _ => true) → l.negate.negate = l) :
    ∀ l, Action.constant l ∈ u.code → l.negate.negate = l := by
  intro l hl
  rcases e.constant_of_formula? h hl with hnumber | ⟨_, x, -, rfl⟩
  · exact hwritten l hnumber
  · exact Literal.negate_negate_float x

/-- The code of an analyzed equation is that of a formula, and folding its signs is folding them in
the formula, which needs no more stack than trees are high. -/
theorem Equation.folded_of_analyze {text element : String} {equation : Equation}
    {code : List Action} (hparse : parse text = .ok equation)
    (h : equation.analyze element = .ok code) :
    ∃ u, equation.body.formula? element = some u ∧ u.code = code ∧
      Action.foldSigns code = u.fold.code ∧ u.need ≤ Parser.maxHeight := by
  obtain ⟨u, hformula, rfl⟩ := formula_of_analyze h
  have hreversible := equation.body.negate_negate_of_formula? hformula
    fun l => negate_negate_of_parse hparse
  obtain ⟨_, -, -, hheight⟩ := derives_of_parse hparse
  exact ⟨u, hformula, rfl, Formula.foldSigns_code hreversible,
    Nat.le_trans (equation.body.need_le_height hformula) hheight⟩

/-- What is known of a program that was compiled. -/
structure Program.Compiled (equation element : String) (parameters : List String) (p : Program T)
    (t : Expr) (u : Formula) : Prop where
  parsed : Equation.parse equation = .ok ⟨t⟩
  formula : t.formula? element = some u
  need_le : u.need ≤ Parser.maxHeight
  fits : Action.Fits T parameters u.fold.code
  bytecode : p.bytecode = .emit T parameters u.fold.code
  depth : p.depth = u.need + 2
  names : p.parameters = parameters

/-- **Compilation.** A program that is compiled comes from a tree and its formula. -/
theorem Program.exists_compiled {settings : Settings} {equation element : String}
    {parameters : List String} {p : Program T}
    (h : compile T settings equation element parameters = .ok p) :
    ∃ t u, Compiled equation element parameters p t u := by
  obtain ⟨_, -, h⟩ := bind_eq_ok_iff.mp h
  obtain ⟨⟨t⟩, hparsed, h⟩ := bind_eq_ok_iff.mp h
  obtain ⟨code, hcode, h⟩ := bind_eq_ok_iff.mp h
  obtain ⟨u, hformula, -, hfolded, hneed⟩ := Equation.folded_of_analyze hparsed hcode
  rw [hfolded] at h
  obtain ⟨hfits, hbytecode, hdepth, hnames⟩ := assemble_eq_ok h
  have hpeak := Formula.depth_of_required hdepth
  rw [u.need_fold] at hpeak
  exact ⟨t, u, hparsed, hformula, hneed, hfits, hbytecode, hpeak, hnames⟩

/-- The code of a formula is proper. -/
theorem Formula.proper_code (u : Formula) : Action.Proper u.code :=
  fun _ => arity_of_mem_code

/-! ## Valid programs -/

/-- The operation of the instruction at a position. -/
def Bytecode.operationAt? (b : Bytecode T) (position : Nat) : Option Operation :=
  b.codes[position]?.bind (Operation.ofCode? T.family)

/-- The height of the stack after some instructions: the sum of their deltas. -/
def Bytecode.heightAfter (b : Bytecode T) (count : Nat) : Int :=
  ((b.codes.take count).map fun code =>
    ((Operation.ofCode? T.family code).map (·.info.stackDelta)).getD 0).sum

/-- A program is valid for the machine. -/
structure Program.Valid (p : Program T) : Prop where
  registers_length : p.bytecode.registers.length = p.length
  constants_length : p.bytecode.constants.length = p.length
  decodes : ∀ i < p.length, ∃ op, p.bytecode.operationAt? i = some op
  /-- A parameter is read from a register that there is. -/
  register_lt : ∀ i, p.bytecode.operationAt? i = some .pushParameter →
    ∃ register < p.parameters.length, p.bytecode.registers[i]? = some register
  register_zero : ∀ i op, p.bytecode.operationAt? i = some op → op ≠ .pushParameter →
    p.bytecode.registers[i]? = some 0
  constant_zero : ∀ i op, p.bytecode.operationAt? i = some op → op ≠ .pushConstant →
    p.bytecode.constants[i]? = some T.zero
  /-- Every parameter is read. -/
  register_read : ∀ register < p.parameters.length, ∃ i,
    p.bytecode.operationAt? i = some .pushParameter ∧ p.bytecode.registers[i]? = some register
  height_pos : ∀ n, 0 < n → n ≤ p.length → 0 < p.bytecode.heightAfter n
  height_end : p.bytecode.heightAfter p.length = 1
  /-- The depth is two more than the greatest height. -/
  height_le : ∀ n, 0 < n → n ≤ p.length → p.bytecode.heightAfter n + 2 ≤ p.depth
  height_peak : ∃ n, 0 < n ∧ n ≤ p.length ∧ p.bytecode.heightAfter n + 2 = p.depth

namespace Action.Fits

variable {parameters : List String} {code : List Action}

/-- The operation of an emitted instruction is that of its action. -/
theorem operationAt?_emit (h : Fits T parameters code) (i : Nat) :
    (Bytecode.emit T parameters code).operationAt? i = code[i]?.map operation := by
  unfold Bytecode.operationAt? Bytecode.emit
  rw [List.getElem?_map]
  rcases hi : code[i]? with _ | action
  · rfl
  · obtain ⟨number, hnumber⟩ := h.legal action (List.mem_of_getElem? hi)
    simp only [Option.map_some, Option.bind_some, emittedCode, hnumber, Option.getD_some]
    exact Operation.ofCode?_of_codeFor hnumber

/-- The heights of emitted instructions are the running sums of the deltas of the code. -/
theorem heightAfter_emit (h : Fits T parameters code) (count : Nat) :
    (Bytecode.emit T parameters code).heightAfter count = ((deltas code).take count).sum := by
  unfold Bytecode.heightAfter Bytecode.emit deltas
  rw [← List.map_take, List.map_map, ← List.map_take]
  congr 1
  refine List.map_congr_left fun action haction => ?_
  obtain ⟨number, hnumber⟩ := h.legal action (List.mem_of_mem_take haction)
  simp only [Function.comp_apply, emittedCode, hnumber, Option.getD_some,
    Operation.ofCode?_of_codeFor hnumber, Option.map_some]

end Action.Fits

/-- Only the action that reads a parameter has its operation. -/
theorem Action.eq_parameter_of_operation {code : List Action} (hproper : Proper code)
    {action : Action} (hmem : action ∈ code) (h : action.operation = .pushParameter) :
    ∃ name, action = .parameter name := by
  cases action with
  | parameter name => exact ⟨name, rfl⟩
  | element | constant _ => cases h
  | apply op =>
      rw [operation] at h
      subst h
      exact absurd (hproper _ hmem) (by decide)

namespace Program.Compiled

variable {equation element : String} {parameters : List String} {p : Program T} {t : Expr}
  {u : Formula}

/-- A compiled program is valid. -/
theorem valid (h : Compiled equation element parameters p t u) : p.Valid := by
  obtain ⟨bytecode, depth, names⟩ := p
  obtain ⟨-, -, -, hfits, hbytecode, hdepth, hnames⟩ := h
  dsimp only at hbytecode hdepth hnames
  subst hbytecode hdepth hnames
  have hproper := u.fold.proper_code
  have hlength : ∀ depth, Program.length ⟨Bytecode.emit T names u.fold.code, depth, names⟩ =
      u.fold.code.length := fun depth => List.length_map _
  have hheights := Depth.required_eq_ok
    (u.fold.required_deltas_code (Nat.le_refl (u.fold.need + 2)))
  have hdeltas : (Action.deltas u.fold.code).length = u.fold.code.length := List.length_map _
  rw [u.need_fold, hdeltas] at hheights
  obtain ⟨hend, hbetween, hpeak⟩ := hheights
  constructor <;> simp only [hlength, hfits.operationAt?_emit, hfits.heightAfter_emit]
  case registers_length => exact List.length_map _
  case constants_length => exact List.length_map _
  case decodes =>
    intro i hi
    exact ⟨_, by rw [List.getElem?_eq_getElem hi, Option.map_some]⟩
  case register_lt =>
    intro i hi
    obtain ⟨action, haction, hop⟩ := Option.map_eq_some_iff.mp hi
    obtain ⟨name, rfl⟩ :=
      Action.eq_parameter_of_operation hproper (List.mem_of_getElem? haction) hop
    refine ⟨names.idxOf name, List.idxOf_lt_length_iff.mpr (hfits.declared name
      (List.mem_of_getElem? haction)), ?_⟩
    simp [Bytecode.emit, haction, Action.register, Action.parameter?]
  case register_zero =>
    intro i op hi hop
    obtain ⟨action, haction, rfl⟩ := Option.map_eq_some_iff.mp hi
    cases action with
    | parameter name => exact absurd rfl hop
    | element | constant _ | apply _ =>
        simp [Bytecode.emit, haction, Action.register, Action.parameter?]
  case constant_zero =>
    intro i op hi hop
    obtain ⟨action, haction, rfl⟩ := Option.map_eq_some_iff.mp hi
    cases action with
    | constant value => exact absurd rfl hop
    | element | parameter _ | apply _ =>
        simp [Bytecode.emit, haction, Action.emittedConstant]
  case register_read =>
    intro register hregister
    obtain ⟨i, hi⟩ := List.mem_iff_getElem?.mp (hfits.read _ (List.getElem_mem hregister))
    refine ⟨i, by rw [hi]; rfl, ?_⟩
    simp [Bytecode.emit, hi, Action.register, Action.parameter?,
      hfits.nodup.idxOf_getElem register hregister]
  case height_pos => exact fun n hn hle => (hbetween n hn hle).1
  case height_end => rw [← hdeltas, List.take_length, hend]
  case height_le => exact fun n hn hle => (hbetween n hn hle).2
  case height_peak => exact hpeak

/-- The checks before a run of a compiled program pass, and give the steps of its code. -/
theorem prepared (h : Compiled equation element parameters p t u) {values : List T.Value}
    (hvalues : values.length = p.parameters.length)
    (hadmissible : ∀ a ∈ values, T.isAdmissible a = true) {source destination : List T.Value}
    (harrays : source.length = destination.length) {lanes : Nat} (hlanes : 0 < lanes)
    {memory : Scratch T} (hmemory : min (p.depth * lanes) sizeLimit ≤ memory.size) :
    p.bytecode.Prepared values memory source destination lanes
      (u.fold.code.map (Action.step T parameters)) p.depth := by
  have hproper := u.fold.proper_code
  have hlimit : u.fold.need + 2 ≤ sizeLimit := by
    rw [u.need_fold]
    exact Nat.le_trans (Nat.add_le_add_right h.need_le 2) (by decide)
  constructor
  case registers => simp [h.bytecode, Bytecode.emit]
  case constants => simp [h.bytecode, Bytecode.emit]
  case arrays => exact harrays
  case lanes_pos => exact hlanes
  case decoded =>
    rw [hvalues, h.names, h.bytecode]
    exact h.fits.decode_emit hproper
  case depth_eq =>
    rw [Action.deltas_step T parameters hproper, u.fold.required_deltas_code hlimit, h.depth,
      u.need_fold]
  case scratch => exact hmemory
  case admissible => exact hadmissible

end Program.Compiled

/-! ## Runs -/

/-- A run was made: it succeeded, or an operation faulted at an element. -/
def Outcome.Regular (o : Outcome T) : Prop :=
  o.error = none ∨ ∃ index op reason, o.error = some (.arithmeticFault index op reason)

/-- A run whose arguments pass is regular. -/
theorem Bytecode.regular_of_prepared {b : Bytecode T} {values : List T.Value}
    {memory : Scratch T} {source destination : List T.Value} {options : RunOptions}
    {steps : List (Step T)} {depth : Nat}
    (h : b.Prepared values memory source destination options.lanes steps depth) :
    (b.execute values memory source destination options).Regular := by
  rw [execute_eq_plain h]
  rcases Job.plain _ 0 (processed options.limit source) with ⟨results, _ | fault⟩
  · exact .inl rfl
  · exact .inr ⟨_, _, _, rfl⟩

/-- What a literal converts to may be bound to a parameter. -/
theorem ElementType.isAdmissible_of_ofLiteral? {l : Literal} {a : T.Value}
    (h : T.ofLiteral? l = some a) : T.isAdmissible a = true := by
  cases T with
  | int t => rfl
  | real p =>
      unfold ofLiteral? at h
      dsimp only at h
      split at h
      · rename_i hfinite
        cases h
        exact (Bool.and_eq_true_iff.mp hfinite).2
      · cases h

/-- Literals that all convert give as many values, which may be bound. -/
theorem Session.exists_convert {literals : List Literal}
    (h : ∀ l ∈ literals, ∃ a, T.ofLiteral? l = some a) (index : Nat) :
    ∃ values : List T.Value, convert index literals = .ok values ∧
      values.length = literals.length ∧ ∀ a ∈ values, T.isAdmissible a = true := by
  induction literals generalizing index with
  | nil => exact ⟨[], rfl, rfl, nofun⟩
  | cons l rest ih =>
      obtain ⟨⟨a, ha⟩, hrest⟩ := List.forall_mem_cons.mp h
      obtain ⟨values, hvalues, hlength, hadmissible⟩ := ih hrest (index + 1)
      refine ⟨a :: values, ?_, by simp [hlength], List.forall_mem_cons.mpr ⟨?_, hadmissible⟩⟩
      · rw [convert, ha]
        dsimp only
        rw [hvalues, ok_bind]
      · exact ElementType.isAdmissible_of_ofLiteral? ha

namespace Program.Compiled

variable {equation element : String} {parameters : List String} {p : Program T} {t : Expr}
  {u : Formula}

/-- A run of a compiled program with parameters that may be bound is regular. -/
theorem run_regular (h : Compiled equation element parameters p t u) {values : List T.Value}
    (hvalues : values.length = p.parameters.length)
    (hadmissible : ∀ a ∈ values, T.isAdmissible a = true) {source destination : List T.Value}
    (harrays : source.length = destination.length) (options : RunOptions) :
    (p.run values source destination options).Regular :=
  Bytecode.regular_of_prepared (h.prepared hvalues hadmissible harrays (by simp only; omega)
    (Nat.min_le_left _ _))

/-- Arrays of different lengths are refused before parameters are looked at. -/
theorem run_eq_of_arrays (h : Compiled equation element parameters p t u)
    {source destination : List T.Value} (harrays : source.length ≠ destination.length)
    (values : List T.Value) (options : RunOptions) :
    p.run values source destination options = ⟨destination,
      some (.invalidArguments (.arrayLengths source.length destination.length))⟩ := by
  have hlengths : ¬(p.bytecode.codes.length ≠ p.bytecode.registers.length ∨
      p.bytecode.codes.length ≠ p.bytecode.constants.length) := by
    simp [h.bytecode, Bytecode.emit]
  unfold Program.run Bytecode.execute Bytecode.prepare
  dsimp only
  rw [if_neg hlengths, if_pos harrays]

/-- A session with a compiled program never finds a parameter out of range once all literals
convert. -/
theorem execute_ne_parameterOutOfRange (h : Compiled equation element parameters p t u)
    {s : Session T} (hs : s.program = some p) {literals : List Literal}
    (hlength : literals.length = p.parameters.length)
    (hconverts : ∀ l ∈ literals, ∃ a, T.ofLiteral? l = some a)
    (source destination : List T.Value) (options : RunOptions) (index : Nat) (text : String)
    (U : ElementType) :
    (s.execute source destination literals options).error ≠
      some (.parameterOutOfRange index text U) := by
  obtain ⟨values, hvalues, hcount, hadmissible⟩ := Session.exists_convert hconverts 0
  have hexecute : s.execute source destination literals options =
      p.run values source destination options := by
    unfold Session.execute Session.bindParameters
    rw [hs]
    dsimp only
    rw [if_neg (Classical.not_not.mpr hlength), hvalues]
  rw [hexecute]
  by_cases harrays : source.length = destination.length
  · rcases h.run_regular (hcount.trans hlength) hadmissible harrays options with
      hnone | ⟨i, op, reason, hfault⟩
    · rw [hnone]
      exact nofun
    · rw [hfault]
      exact nofun
  · rw [h.run_eq_of_arrays harrays]
    exact nofun

end Program.Compiled

/-- **Validity.** A program that is compiled is valid for the machine. A run of it over arrays of
equal length, with as many parameters as it has names, all of which may be bound, succeeds or ends
with an arithmetic fault. In a session that holds it, literals that convert are never out of range.
-/
theorem Program.compile_valid {settings : Settings} {equation element : String}
    {parameters : List String} {p : Program T}
    (h : compile T settings equation element parameters = .ok p) :
    p.Valid ∧
      (∀ (values source destination : List T.Value) (options : RunOptions),
        values.length = p.parameters.length → (∀ a ∈ values, T.isAdmissible a = true) →
        source.length = destination.length →
        (p.run values source destination options).Regular) ∧
      ∀ (s : Session T) (source destination : List T.Value) (literals : List Literal)
        (options : RunOptions),
        s.program = some p → literals.length = p.parameters.length →
        (∀ l ∈ literals, ∃ a, T.ofLiteral? l = some a) →
        ∀ index text U, (s.execute source destination literals options).error ≠
          some (.parameterOutOfRange index text U) := by
  obtain ⟨t, u, hcompiled⟩ := exists_compiled h
  refine ⟨hcompiled.valid, fun values source destination options => ?_,
    fun s source destination literals options => ?_⟩
  · intro hvalues hadmissible harrays
    exact hcompiled.run_regular hvalues hadmissible harrays options
  · intro hs hlength hconverts index text U
    exact hcompiled.execute_ne_parameterOutOfRange hs hlength hconverts source destination options
      index text U

/-- A program that reads two parameters and folds a sign, run on three lanes over two bytes, the
second of which faults. -/
theorem Program.compile_valid_distance :
    ∃ p : Program (.int ⟨true, .w8⟩),
      compile _ .default "b - -(3) * abs(x - a)" "x" ["a", "b"] = .ok p ∧ p.Valid ∧
        (p.run [1#8, 2#8] [5#8, 100#8] [0#8, 0#8] ⟨3, true, 0⟩).Regular ∧
        ∀ index text U, (Session.execute ⟨.default, some p⟩ [5#8] [0#8] [.int 1, .int 2]
          .default).error ≠ some (.parameterOutOfRange index text U) := by
  have hcompile : compile (.int ⟨true, .w8⟩) .default "b - -(3) * abs(x - a)" "x" ["a", "b"] =
      .ok ⟨⟨[1, 0, 8, 27, 2, 9, 1, 8], [0, 0, 0, 0, 0, 0, 1, 0],
        [0#8, 0#8, 0#8, 0#8, 253#8, 0#8, 0#8, 0#8]⟩, 4, ["a", "b"]⟩ := rfl
  obtain ⟨hvalid, hrun, hsession⟩ := compile_valid hcompile
  have hconverts : ∀ l ∈ [Literal.int 1, .int 2], ∃ a,
      ElementType.ofLiteral? (.int ⟨true, .w8⟩) l = some a := by
    intro l hl
    simp only [List.mem_cons, List.not_mem_nil, or_false] at hl
    rcases hl with rfl | rfl
    · exact ⟨1#8, rfl⟩
    · exact ⟨2#8, rfl⟩
  refine ⟨_, hcompile, hvalid, ?_, ?_⟩
  · exact hrun _ _ _ _ rfl (fun _ _ => rfl) rfl
  · exact hsession _ _ _ _ _ rfl rfl hconverts

end Elementwise
