import Elementwise.Proofs.Formula.Analysis
import Elementwise.Proofs.Lanes
import Elementwise.Proofs.Literals

/-!
# Emitted bytecode

A compilation and a run check the same things on their own: the compiler on actions, with operations
and names, the machine on codes and registers. Here they are brought together. Code that fits a type
and its parameters (`Action.Fits`) is emitted as three lists of equal length (`Bytecode.emit`), and
what is emitted is decoded into one step for each action (`Action.Fits.decode_emit`). A program that
is assembled is such bytecode (`Program.assemble_eq_ok`).
-/

namespace Elementwise

variable {T : ElementType}

/-! ## Codes -/

/-- A code is decoded into the operation it was emitted for. -/
theorem Operation.ofCode?_of_codeFor {op : Operation} {family : Family} {number : Nat}
    (h : op.info.codeFor family = some number) : ofCode? family number = some op := by
  have hall : ∀ family ∈ Family.all, ∀ op ∈ all,
      (op.info.codeFor family).all (fun number => ofCode? family number == some op) = true := by
    decide +kernel
  have hfamily : family ∈ Family.all := by cases family <;> decide
  have hop := hall family hfamily op op.mem_all
  rw [h] at hop
  simpa using hop

namespace Action

/-- The step that an action is decoded into. -/
def step (T : ElementType) (parameters : List String) : Action → Step T
  | .element => .element
  | .parameter name => .parameter (parameters.idxOf name)
  | .constant value => .constant ((T.ofLiteral? value).getD T.zero)
  | .apply op => if op.info.arity = 1 then .unary op else .binary op

/-- The constant that is emitted for an action. -/
def emittedConstant (T : ElementType) : Action → T.Value
  | .constant value => (T.ofLiteral? value).getD T.zero
  | _ => T.zero

/-- The code number that is emitted for an action. -/
def emittedCode (family : Family) (action : Action) : Nat :=
  (action.operation.info.codeFor family).getD 0

/-- Code fits a type and parameters: its literals convert, its operations are legal, and exactly the
parameters are read, which are all different. -/
structure Fits (T : ElementType) (parameters : List String) (code : List Action) : Prop where
  converts : ∀ value, .constant value ∈ code → ∃ a, T.ofLiteral? value = some a
  legal : ∀ action ∈ code, ∃ number, action.operation.info.codeFor T.family = some number
  declared : ∀ name, .parameter name ∈ code → name ∈ parameters
  read : ∀ name ∈ parameters, .parameter name ∈ code
  nodup : parameters.Nodup

/-! ## What the compiler checks -/

/-- Only an action that pushes a parameter has one. -/
theorem parameter?_eq_some {action : Action} {name : String} :
    action.parameter? = some name ↔ action = .parameter name := by
  cases action <;> simp [parameter?]

/-- The parameters that are read are those that are pushed. -/
theorem mem_parametersRead {code : List Action} {name : String} :
    name ∈ parametersRead code ↔ .parameter name ∈ code := by
  simp [parametersRead, parameter?_eq_some]

/-- Names pass as parameters after earlier ones exactly if they differ from each other, from the
earlier ones and from the element, and if there are registers for all of them. -/
theorem checkDeclared_eq_ok_iff {element : String} {earlier names : List String}
    (hearlier : earlier.length ≤ registerCount) :
    checkDeclared element earlier names = .ok () ↔
      names.Nodup ∧ (∀ name ∈ names, name ≠ element ∧ name ∉ earlier) ∧
        earlier.length + names.length ≤ registerCount := by
  induction names generalizing earlier with
  | nil => simp [checkDeclared, hearlier]
  | cons name rest ih =>
      rw [checkDeclared, List.length_cons]
      split
      · rename_i hold
        refine ⟨nofun, fun h => ?_⟩
        exact absurd hold (not_or.mpr (h.2.1 name (List.mem_cons_self ..)))
      · rename_i hnew
        rw [not_or] at hnew
        split
        · rename_i hfull
          refine ⟨nofun, fun h => ?_⟩
          omega
        · rename_i hfree
          rw [ih (by rw [List.length_cons]; omega), List.nodup_cons, List.forall_mem_cons,
            List.length_cons, Nat.add_right_comm, Nat.add_assoc]
          simp only [List.mem_cons, not_or]
          constructor
          · rintro ⟨hrest, hothers, hlength⟩
            exact ⟨⟨fun hmem => (hothers name hmem).2.1 rfl, hrest⟩,
              ⟨hnew, fun other hother => ⟨(hothers other hother).1, (hothers other hother).2.2⟩⟩,
              hlength⟩
          · rintro ⟨⟨hname, hrest⟩, ⟨-, hothers⟩, hlength⟩
            refine ⟨hrest, fun other hother => ?_, hlength⟩
            refine ⟨(hothers other hother).1, ?_, (hothers other hother).2⟩
            rintro rfl
            exact hname hother

/-- Parameters pass exactly if they differ from each other and from the element, and if there are
registers for all of them. -/
theorem checkDeclared_nil_eq_ok_iff {element : String} {parameters : List String} :
    checkDeclared element [] parameters = .ok () ↔
      (element :: parameters).Nodup ∧ parameters.length ≤ registerCount := by
  rw [checkDeclared_eq_ok_iff (Nat.zero_le _), List.nodup_cons, List.length_nil, Nat.zero_add]
  constructor
  · rintro ⟨hnodup, hnew, hlength⟩
    exact ⟨⟨fun hmem => (hnew element hmem).1 rfl, hnodup⟩, hlength⟩
  · rintro ⟨⟨helement, hnodup⟩, hlength⟩
    refine ⟨hnodup, fun name hname => ⟨?_, List.not_mem_nil⟩, hlength⟩
    rintro rfl
    exact helement hname

/-- Nothing is undefined if all that is read is declared. -/
theorem undefined_eq_nil_iff {parameters : List String} {code : List Action} :
    (parametersRead code).filter (· ∉ parameters) = [] ↔
      ∀ name, .parameter name ∈ code → name ∈ parameters := by
  simp [mem_parametersRead]

/-- Nothing is unused if all that is declared is read. -/
theorem unused_eq_nil_iff {parameters : List String} {code : List Action} :
    parameters.filter (· ∉ parametersRead code) = [] ↔
      ∀ name ∈ parameters, .parameter name ∈ code := by
  simp [mem_parametersRead]

/-- Parameters pass exactly if they differ from each other and from the element, if there are
registers for all of them, and if they are the ones that are read. -/
theorem checkParameters_eq_ok_iff {element : String} {parameters : List String}
    {code : List Action} :
    checkParameters element parameters code = .ok () ↔
      ((element :: parameters).Nodup ∧ parameters.length ≤ registerCount) ∧
        ∀ name, .parameter name ∈ code ↔ name ∈ parameters := by
  have hsame : (∀ name, .parameter name ∈ code ↔ name ∈ parameters) ↔
      (∀ name, .parameter name ∈ code → name ∈ parameters) ∧
        ∀ name ∈ parameters, .parameter name ∈ code :=
    ⟨fun h => ⟨fun name => (h name).mp, fun name => (h name).mpr⟩,
      fun h name => ⟨h.1 name, h.2 name⟩⟩
  unfold checkParameters
  rw [check_bind_eq_ok_iff, checkDeclared_nil_eq_ok_iff, hsame]
  simp only [refuse_eq_ok_iff, undefined_eq_nil_iff, unused_eq_nil_iff, and_true]

/-- The literals of code convert. -/
def Converts (T : ElementType) (code : List Action) : Prop :=
  ∀ value, .constant value ∈ code → ∃ a, T.ofLiteral? value = some a

/-- The operations of code are legal for a family. -/
def Legal (family : Family) (code : List Action) : Prop :=
  ∀ op ∈ code.map operation, op.info.isLegalFor family = true

/-- The operations of code are available. -/
def Available (capabilities : Capabilities) (code : List Action) : Prop :=
  ∀ op ∈ code.map operation, capabilities.isAvailable op = true

/-- No operation is listed if none has the property. -/
theorem operationsWith_eq_nil_iff {has : Operation → Bool} {code : List Action} :
    operationsWith has code = [] ↔ ∀ op ∈ code.map operation, has op = false := by
  simp [operationsWith, List.eq_nil_iff_forall_not_mem]

/-- Operations pass exactly if they are legal and available. -/
theorem checkOperations_eq_ok_iff {family : Family} {capabilities : Capabilities}
    {code : List Action} :
    checkOperations family capabilities code = .ok () ↔
      Legal family code ∧ Available capabilities code := by
  unfold checkOperations
  dsimp only
  rw [refuse_eq_ok_iff, refuse_eq_ok_iff, operationsWith_eq_nil_iff, operationsWith_eq_nil_iff]
  simp [Legal, Available]

/-- Legal operations have codes. -/
theorem Legal.exists_code {family : Family} {code : List Action} (h : Legal family code) :
    ∀ action ∈ code, ∃ number, action.operation.info.codeFor family = some number :=
  fun _ haction => Option.isSome_iff_exists.mp (h _ (List.mem_map_of_mem haction))

/-- The constant of an action is found exactly if its literal converts. -/
theorem constantValue_eq_ok_iff {action : Action} {a : T.Value} :
    constantValue T action = .ok a ↔
      (∀ l, action = .constant l → ∃ b, T.ofLiteral? l = some b) ∧
        a = emittedConstant T action := by
  cases action with
  | element | parameter _ | apply _ => simp [constantValue, emittedConstant, eq_comm]
  | constant l =>
      rw [constantValue, emittedConstant]
      rcases hl : T.ofLiteral? l with _ | b
      · simp [hl]
      · simp [hl, eq_comm]

/-- Literals pass exactly if they convert, and the constants are what they stand for. -/
theorem constantValues_eq_ok_iff {code : List Action} {constants : List T.Value} :
    constantValues T code = .ok constants ↔
      Converts T code ∧ constants = code.map (emittedConstant T) := by
  constructor
  · intro h
    obtain ⟨hall, rfl⟩ := mapM_eq_ok (emittedConstant T)
      (fun action a ha => (constantValue_eq_ok_iff.mp ha).2) h
    refine ⟨fun l hl => ?_, rfl⟩
    exact (constantValue_eq_ok_iff.mp (hall _ hl)).1 l rfl
  · rintro ⟨hconverts, rfl⟩
    refine mapM_eq_ok_of_forall fun action haction => constantValue_eq_ok_iff.mpr ⟨?_, rfl⟩
    rintro l rfl
    exact hconverts l haction

/-- Code whose operations are legal has code numbers. -/
theorem Legal.mapM_code {family : Family} {code : List Action} (h : Legal family code) :
    code.mapM (Action.code family) = .ok (code.map (emittedCode family)) := by
  refine mapM_eq_ok_of_forall fun action haction => ?_
  obtain ⟨number, hnumber⟩ := h.exists_code action haction
  simp [Action.code, emittedCode, hnumber]

end Action

/-! ## Decoding what is emitted -/

/-- The bytecode of straight-line code. -/
def Bytecode.emit (T : ElementType) (parameters : List String) (code : List Action) : Bytecode T :=
  ⟨code.map (Action.emittedCode T.family), code.map (Action.register parameters),
    code.map (Action.emittedConstant T)⟩

/-- With names that may be declared and an equation that passes the analysis, a compilation is the
assembly of the folded code. -/
theorem Program.compile_eq_assemble {settings : Settings} {text element : String}
    {parameters : List String} {equation : Equation} {raw : List Action}
    (hnames : checkNames (element :: parameters) = .ok ())
    (hparse : Equation.parse text = .ok equation) (hraw : equation.analyze element = .ok raw) :
    compile T settings text element parameters =
      assemble T settings element parameters (Action.foldSigns raw) := by
  rw [compile, hnames, ok_bind, hparse, ok_bind, hraw, ok_bind]

/-- Code is assembled exactly if it passes every check, and the program is its bytecode with the
depth that it needs. -/
theorem Program.assemble_eq_ok_iff {settings : Settings} {element : String}
    {parameters : List String} {code : List Action} {p : Program T} :
    assemble T settings element parameters code = .ok p ↔
      Action.Converts T code ∧
        (Action.Legal T.family code ∧ Action.Available settings.capabilities code) ∧
        Depth.required settings.stackLimit (Action.deltas code) = .ok p.depth ∧
        (((element :: parameters).Nodup ∧ parameters.length ≤ Action.registerCount) ∧
          ∀ name, .parameter name ∈ code ↔ name ∈ parameters) ∧
        p.bytecode = .emit T parameters code ∧ p.parameters = parameters := by
  constructor
  · intro h
    obtain ⟨constants, hconstants, h⟩ := bind_eq_ok_iff.mp h
    obtain ⟨_, hoperations, h⟩ := bind_eq_ok_iff.mp h
    obtain ⟨depth, hdepth, h⟩ := bind_eq_ok_iff.mp h
    obtain ⟨_, hparameters, h⟩ := bind_eq_ok_iff.mp h
    obtain ⟨codes, hcodes, h⟩ := bind_eq_ok_iff.mp h
    cases h
    obtain ⟨hconverts, rfl⟩ := Action.constantValues_eq_ok_iff.mp hconstants
    have hboth := Action.checkOperations_eq_ok_iff.mp hoperations
    obtain rfl := Except.ok.inj (hboth.1.mapM_code.symm.trans hcodes)
    exact ⟨hconverts, hboth, hdepth, Action.checkParameters_eq_ok_iff.mp hparameters, rfl, rfl⟩
  · rintro ⟨hconverts, hboth, hdepth, hnames, hbytecode, hparameters⟩
    obtain ⟨bytecode, depth, names⟩ := p
    dsimp only at hdepth hbytecode hparameters
    subst hbytecode hparameters
    rw [assemble, Action.constantValues_eq_ok_iff.mpr ⟨hconverts, rfl⟩, ok_bind,
      Action.checkOperations_eq_ok_iff.mpr hboth, ok_bind, hdepth, ok_bind,
      Action.checkParameters_eq_ok_iff.mpr hnames, ok_bind, hboth.1.mapM_code, ok_bind]
    rfl

/-- **Assembling.** A program that is assembled is the bytecode of code that fits, with the depth
that the code needs. -/
theorem Program.assemble_eq_ok {settings : Settings} {element : String} {parameters : List String}
    {code : List Action} {p : Program T}
    (h : assemble T settings element parameters code = .ok p) :
    Action.Fits T parameters code ∧ p.bytecode = .emit T parameters code ∧
      Depth.required settings.stackLimit (Action.deltas code) = .ok p.depth ∧
      p.parameters = parameters := by
  obtain ⟨hconverts, ⟨hlegal, -⟩, hdepth, ⟨⟨hdistinct, -⟩, hnames⟩, hbytecode, hparameters⟩ :=
    assemble_eq_ok_iff.mp h
  have hfits : Action.Fits T parameters code :=
    ⟨hconverts, hlegal.exists_code, fun name => (hnames name).mp, fun name => (hnames name).mpr,
      (List.nodup_cons.mp hdistinct).2⟩
  exact ⟨hfits, hbytecode, hdepth, hparameters⟩

namespace Action

variable {parameters : List String} {code : List Action}

/-- What is emitted for one action is decoded into its step. -/
theorem decode_emitted {action : Action} (position : Nat)
    (hlegal : ∃ number, action.operation.info.codeFor T.family = some number)
    (hdeclared : ∀ name, action = .parameter name → name ∈ parameters)
    (harity : ∀ op, action = .apply op → op.info.arity = 1 ∨ op.info.arity = 2) :
    Step.decode parameters.length position (action.emittedCode T.family)
      (action.register parameters) (action.emittedConstant T) = .ok (action.step T parameters) := by
  obtain ⟨number, hnumber⟩ := hlegal
  have hcode :
      Operation.ofCode? T.family (action.emittedCode T.family) = some action.operation := by
    rw [emittedCode, hnumber, Option.getD_some]
    exact Operation.ofCode?_of_codeFor hnumber
  unfold Step.decode
  rw [hcode]
  cases action with
  | element => rfl
  | constant value => rfl
  | parameter name =>
      have hlt : parameters.idxOf name < parameters.length :=
        List.idxOf_lt_length_iff.mpr (hdeclared name rfl)
      exact if_neg (Nat.not_le.mpr hlt)
  | apply op =>
      have hop := harity op rfl
      dsimp only [operation]
      split
      · rename_i h
        cases h
      · rename_i h
        cases h
        exact absurd hop (by decide)
      · rename_i h
        cases h
        exact absurd hop (by decide)
      · rename_i h
        cases h
        exact absurd hop (by decide)
      · rename_i h
        cases h
        rw [step]
        split <;> rfl

/-- A step changes the height as its operation does. -/
theorem delta_step (T : ElementType) (parameters : List String) {action : Action}
    (harity : ∀ op, action = .apply op → op.info.arity = 1 ∨ op.info.arity = 2) :
    (action.step T parameters).delta = action.operation.info.stackDelta := by
  cases action with
  | element | parameter _ | constant _ => rfl
  | apply op =>
      rw [step, operation, OperationInfo.stackDelta]
      rcases harity op rfl with hone | htwo
      · rw [if_pos hone, hone]
        rfl
      · rw [if_neg (by omega), htwo]
        rfl

/-- The register of a step is that of its action. -/
theorem register?_step (T : ElementType) (parameters : List String) (action : Action) :
    (action.step T parameters).register? = action.parameter?.map parameters.idxOf := by
  cases action with
  | element | parameter _ | constant _ => rfl
  | apply op =>
      rw [step]
      split <;> rfl

/-- Operations in code take one value or two. -/
def Proper (code : List Action) : Prop :=
  ∀ op, .apply op ∈ code → op.info.arity = 1 ∨ op.info.arity = 2

/-- What is emitted is decoded into the steps of the actions. -/
theorem decodeFrom_emitted (hlegal : ∀ action ∈ code, ∃ number,
      action.operation.info.codeFor T.family = some number)
    (hdeclared : ∀ name, .parameter name ∈ code → name ∈ parameters) (hproper : Proper code)
    (position : Nat) :
    Bytecode.decodeFrom parameters.length position (code.map (emittedCode T.family))
      (code.map (register parameters)) (code.map (emittedConstant T)) =
      .ok (code.map (step T parameters)) := by
  induction code generalizing position with
  | nil => rfl
  | cons action rest ih =>
      have hfirst : Step.decode parameters.length position (action.emittedCode T.family)
          (action.register parameters) (action.emittedConstant T) =
            .ok (action.step T parameters) :=
        decode_emitted position (hlegal action (List.mem_cons_self ..))
          (fun name hname => hdeclared name (hname ▸ List.mem_cons_self ..))
          (fun op hop => hproper op (hop ▸ List.mem_cons_self ..))
      have hrest := ih (fun a ha => hlegal a (List.mem_cons_of_mem _ ha))
        (fun name hname => hdeclared name (List.mem_cons_of_mem _ hname))
        (fun op hop => hproper op (List.mem_cons_of_mem _ hop)) (position + 1)
      simp only [List.map_cons, Bytecode.decodeFrom, hfirst, hrest, ok_bind]

end Action

/-! ### Registers -/

/-- Dropping repetitions leaves none. -/
theorem nodup_eraseDups (list : List Nat) : list.eraseDups.Nodup := by
  induction hlength : list.length using Nat.strongRecOn generalizing list with
  | ind length ih =>
      cases list with
      | nil => exact List.nodup_nil
      | cons a rest =>
          have hshorter : (rest.filter fun b => !b == a).length < length := by
            have := List.length_filter_le (fun b => !b == a) rest
            rw [List.length_cons] at hlength
            omega
          rw [List.eraseDups_cons, List.nodup_cons, List.mem_eraseDups, List.mem_filter]
          exact ⟨by simp, ih _ hshorter _ rfl⟩

/-- Registers that are exactly the numbers below a count are that many. -/
theorem length_eraseDups_of_mem_iff {registers : List Nat} {count : Nat}
    (h : ∀ register, register ∈ registers ↔ register < count) :
    registers.eraseDups.length = count := by
  have hperm : registers.eraseDups.Perm (List.range count) := by
    rw [List.perm_ext_iff_of_nodup (nodup_eraseDups registers) List.nodup_range]
    intro register
    rw [List.mem_eraseDups, h, List.mem_range]
  rw [hperm.length_eq, List.length_range]

namespace Action

variable {parameters : List String} {code : List Action}

/-- The registers that fitting code reads are those of all parameters. -/
theorem Fits.mem_registers (h : Fits T parameters code) (register : Nat) :
    register ∈ (code.map (step T parameters)).filterMap Step.register? ↔
      register < parameters.length := by
  simp only [List.filterMap_map, List.mem_filterMap, Function.comp_apply, register?_step,
    Option.map_eq_some_iff, parameter?_eq_some]
  constructor
  · rintro ⟨action, hmem, name, rfl, rfl⟩
    exact List.idxOf_lt_length_iff.mpr (h.declared name hmem)
  · intro hlt
    exact ⟨_, h.read _ (List.getElem_mem hlt), _, rfl, h.nodup.idxOf_getElem register hlt⟩

/-- **Decoding.** Bytecode that is emitted for fitting code is decoded into the steps of the code,
for a run with as many parameters as there are names. -/
theorem Fits.decode_emit (h : Fits T parameters code) (hproper : Proper code) :
    (Bytecode.emit T parameters code).decode parameters.length =
      .ok (code.map (step T parameters)) := by
  have hused : Bytecode.registersUsed (code.map (step T parameters)) = parameters.length :=
    length_eraseDups_of_mem_iff h.mem_registers
  unfold Bytecode.decode Bytecode.emit
  simp only [decodeFrom_emitted h.legal h.declared hproper, ok_bind, hused]
  simp

/-- The deltas of the steps are those of the code. -/
theorem deltas_step (T : ElementType) (parameters : List String) (hproper : Proper code) :
    (code.map (step T parameters)).map Step.delta = deltas code := by
  rw [List.map_map, deltas]
  refine List.map_congr_left fun action haction => ?_
  exact delta_step T parameters fun op hop => hproper op (hop ▸ haction)

end Action

end Elementwise
