import Elementwise.Proofs.Validity

/-!
# Evaluation

`Expr.value` evaluates an expression over its tree, without code, registers or a stack. Operands are
evaluated from the last to the first, so of two faults the one of the last operand counts. A chain
of signs on a number or on a constant of `math` is one literal, which is converted with its sign.

The tree and the machine meet in the formula. The machine pushes the value of a formula when it runs
the steps of its code (`Formula.actAll_code`), and an expression has the value of its folded formula
(`Expr.value_of_formula?`). Hence a compiled program computes what its expression says
(`Program.execute_compile`).
-/

namespace Elementwise

variable {T : ElementType}

/-! ## Results -/

/-- The result of evaluating: none where an expression has no meaning, and otherwise a value or the
fault that came first. -/
abbrev Evaluation (α : Type) : Type :=
  ExceptT OperationFault Option α

namespace Evaluation

variable {α β : Type}

/-- No meaning. -/
def undefined : Evaluation α :=
  ExceptT.mk none

/-- A value or a fault. -/
def of (result : Except OperationFault α) : Evaluation α :=
  ExceptT.mk (some result)

/-- A value if there is one. -/
def ofOption : Option α → Evaluation α
  | some a => of (.ok a)
  | none => undefined

/-- Results in sequence. -/
theorem of_bind_of (first : Except OperationFault α) (others : α → Except OperationFault β) :
    (of first >>= fun a => of (others a)) = of (first >>= others) := by
  cases first <;> rfl

end Evaluation

/-! ## Expressions -/

/-- What an expression is evaluated with: the name and the value of the element, the names and the
values of the parameters, and whether overflow is checked. -/
structure Environment (T : ElementType) where
  element : String
  x : T.Value
  names : List String
  values : List T.Value
  checked : Bool

namespace Environment

/-- The value of a name: of the element, or of the parameter at the place of the name. -/
def lookup (env : Environment T) (word : String) : Evaluation T.Value :=
  if word = env.element then .of (.ok env.x)
  else .ofOption env.values[env.names.idxOf word]?

/-- The value of a literal. -/
def literal (_ : Environment T) (l : Literal) : Evaluation T.Value :=
  .ofOption (T.ofLiteral? l)

/-- The result of an operation on the values of its operands. -/
def apply (env : Environment T) (op : Operation) : List T.Value → Evaluation T.Value
  | [a] => .of (op.blame (T.unary op env.checked a))
  | [left, right] => .of (op.blame (T.binary op env.checked left right))
  | _ => .undefined

end Environment

namespace Expr

/-- The literal of a chain of signs on a number or on a constant of `math`, negated once for each
minus. -/
def signedLiteral? : Expr → Option Literal
  | .unary .plus operand => operand.signedLiteral?
  | .unary .minus operand => operand.signedLiteral?.map Literal.negate
  | e => e.literal?

mutual
/-- The value of an expression. -/
def value (env : Environment T) : Expr → Evaluation T.Value
  | .number l => env.literal l
  | .name word => env.lookup word
  | .member root field =>
    match (Expr.member root field).literal? with
    | some l => env.literal l
    | none => .undefined
  | .unary op operand =>
    match (Expr.unary op operand).signedLiteral? with
    | some l => env.literal l
    | none => do
      let a ← operand.value env
      env.apply op.operation [a]
  | .binary op left right => do
    let b ← right.value env
    let a ← left.value env
    env.apply op.operation [a, b]
  | .call function arguments => do
    let op ← .ofOption function.callee?
    let operands ← valuesOfAll env arguments
    env.apply op operands
  | .quoted _ | .conditional .. => .undefined

/-- The values of arguments; the last one is evaluated first. -/
def valuesOfAll (env : Environment T) : List Expr → Evaluation (List T.Value)
  | [] => .of (.ok [])
  | e :: rest => do
    let others ← valuesOfAll env rest
    let first ← e.value env
    .of (.ok (first :: others))
end

end Expr

/-! ## Formulas -/

namespace Formula

variable (env : Environment T)

/-- The value of a formula; a literal that does not convert and a name that is not declared count as
zero. -/
def value : Formula → Except OperationFault T.Value
  | .element => .ok env.x
  | .parameter name => .ok (env.values.getD (env.names.idxOf name) T.zero)
  | .constant l => .ok ((T.ofLiteral? l).getD T.zero)
  | .unary op _ operand => do
    let a ← operand.value
    op.blame (T.unary op env.checked a)
  | .binary op _ left right => do
    let b ← right.value
    let a ← left.value
    op.blame (T.binary op env.checked a b)

/-- The values of formulas with their signs folded; the last one is evaluated first. -/
def valuesOfAll : List Formula → Except OperationFault (List T.Value)
  | [] => .ok []
  | u :: rest => do
    let others ← valuesOfAll rest
    let first ← u.fold.value env
    .ok (first :: others)

/-- **Code.** The steps of a formula's code push its value, or fault as it does. -/
theorem actAll_code (u : Formula) (stack : List T.Value) :
    Step.actAll env.values env.checked env.x (u.code.map (Action.step T env.names)) stack =
      u.value env >>= fun a => .ok (a :: stack) := by
  induction u generalizing stack with
  | element | parameter _ | constant _ => rfl
  | unary op arity operand ih =>
      rw [code, List.map_append, Step.actAll_append, ih, value]
      rcases operand.value env with fault | a
      · rfl
      · simp only [ok_bind, List.map_cons, List.map_nil, Action.step, if_pos arity, Step.actAll,
          Step.act]
        rcases op.blame (T.unary op env.checked a) with fault | b <;> rfl
  | binary op arity left right ihleft ihright =>
      have hne : ¬op.info.arity = 1 := by omega
      rw [code, List.map_append, List.map_append, Step.actAll_append, Step.actAll_append, ihright,
        value]
      rcases right.value env with fault | b
      · rfl
      · rw [ok_bind, ok_bind, ihleft]
        rcases left.value env with fault | a
        · rfl
        · simp only [ok_bind, List.map_cons, List.map_nil, Action.step, if_neg hne, Step.actAll,
            Step.act]
          rcases op.blame (T.binary op env.checked a b) with fault | c <;> rfl

/-- A formula has a value: its literals convert, and its parameters are declared. -/
structure Defined (T : ElementType) (names : List String) (u : Formula) : Prop where
  converts : ∀ l, .constant l ∈ u.code → ∃ a, T.ofLiteral? l = some a
  declared : ∀ name, .parameter name ∈ u.code → name ∈ names

/-- A formula has a value if one has whose code contains its code. -/
theorem Defined.of_subset {names : List String} {u v : Formula} (h : Defined T names v)
    (hsubset : u.code ⊆ v.code) : Defined T names u :=
  ⟨fun l hl => h.converts l (hsubset hl), fun name hname => h.declared name (hsubset hname)⟩

theorem Defined.operand {names : List String} {op : Operation} {arity : op.info.arity = 1}
    {u : Formula} (h : Defined T names (.unary op arity u)) : Defined T names u :=
  h.of_subset fun action haction => by simp [code, haction]

theorem Defined.operands {names : List String} {op : Operation} {arity : op.info.arity = 2}
    {u v : Formula} (h : Defined T names (.binary op arity u v)) :
    Defined T names u ∧ Defined T names v :=
  ⟨h.of_subset fun action haction => by simp [code, haction],
    h.of_subset fun action haction => by simp [code, haction]⟩

/-! ### Chains of signs -/

/-- The literal that a formula is. -/
def constant? : Formula → Option Literal
  | .constant l => some l
  | _ => none

/-- An operation that is no sign stays. -/
theorem foldUnary_of_ne {op : Operation} (hplus : op ≠ .plus) (hnegate : op ≠ .negate)
    (arity : op.info.arity = 1) (operand : Formula) :
    foldUnary op arity operand = .unary op arity operand :=
  foldUnary_eq_unary (fun _ _ => ⟨hplus, hnegate⟩) arity

/-- A plus keeps the literal of its operand. -/
theorem constant?_foldUnary_plus (arity : Operation.plus.info.arity = 1) (operand : Formula) :
    (foldUnary .plus arity operand).constant? = operand.constant? := by
  cases operand <;> rfl

/-- A minus negates the literal of its operand. -/
theorem constant?_foldUnary_negate (arity : Operation.negate.info.arity = 1) (operand : Formula) :
    (foldUnary .negate arity operand).constant? = operand.constant?.map Literal.negate := by
  cases operand <;> rfl

end Formula

namespace Expr

/-- Folding makes a literal of an expression exactly if the expression is a chain of signs on one.
-/
theorem constant?_of_formula? {element : String} {e : Expr} {u : Formula}
    (h : e.formula? element = some u) : u.fold.constant? = e.signedLiteral? := by
  fun_induction signedLiteral? e generalizing u with
  | case1 operand ih =>
      obtain ⟨v, hv, h⟩ := Option.bind_eq_some_iff.mp h
      cases h
      rw [Formula.fold, ← ih hv]
      exact Formula.constant?_foldUnary_plus _ _
  | case2 operand ih =>
      obtain ⟨v, hv, h⟩ := Option.bind_eq_some_iff.mp h
      cases h
      rw [Formula.fold, ← ih hv]
      exact Formula.constant?_foldUnary_negate _ _
  | case3 e hplus hminus =>
      cases e with
      | number _ =>
          cases h
          rfl
      | quoted _ | conditional _ _ _ => cases h
      | name word =>
          rcases formula?_name_cases h with ⟨-, rfl⟩ | ⟨-, rfl⟩
          · rfl
          · rfl
      | member root field =>
          obtain ⟨l, hl, rfl⟩ := Option.map_eq_some_iff.mp h
          exact hl.symm
      | unary op operand =>
          obtain ⟨v, -, h⟩ := Option.bind_eq_some_iff.mp h
          cases h
          rw [Formula.fold, Formula.foldUnary_of_ne]
          · rfl
          · intro hop
            cases op <;> cases hop
            exact hplus operand rfl
          · intro hop
            cases op <;> cases hop
            exact hminus operand rfl
      | binary op left right =>
          obtain ⟨v, -, h⟩ := Option.bind_eq_some_iff.mp h
          obtain ⟨w, -, h⟩ := Option.bind_eq_some_iff.mp h
          cases h
          rfl
      | call function arguments =>
          obtain ⟨op, hop, h⟩ := Option.bind_eq_some_iff.mp h
          obtain ⟨us, -, h⟩ := Option.bind_eq_some_iff.mp h
          obtain ⟨hplus, hnegate⟩ := not_sign_of_callee? hop
          rcases Formula.ofOperands?_cases h with ⟨_, _, rfl, rfl⟩ | ⟨_, _, _, rfl, rfl⟩
          · rw [Formula.fold, Formula.foldUnary_of_ne hplus hnegate]
            rfl
          · rfl

/-! ### Values of expressions -/

variable {env : Environment T}

/-- A literal that converts has the value of its formula. -/
theorem literal_of_converts {l : Literal} (h : ∃ a, T.ofLiteral? l = some a) :
    env.literal l = .of ((Formula.constant l).value env) := by
  obtain ⟨a, ha⟩ := h
  rw [Environment.literal, Formula.value, ha]
  rfl

mutual
/-- **Values.** An expression has the value of its folded formula. -/
theorem value_of_formula? (hvalues : env.values.length = env.names.length) : (e : Expr) →
    {u : Formula} → e.formula? env.element = some u → u.fold.Defined T env.names →
    e.value env = .of (u.fold.value env)
  | .number l, _, h, hdefined => by
      cases h
      exact literal_of_converts (hdefined.converts l (List.mem_singleton_self _))
  | .quoted _, _, h, _ => by cases h
  | .name word, _, h, hdefined => by
      rw [value, Environment.lookup]
      rcases formula?_name_cases h with ⟨hword, rfl⟩ | ⟨hword, rfl⟩
      · rw [if_pos hword]
        rfl
      · have hlt : env.names.idxOf word < env.values.length := by
          rw [hvalues]
          exact List.idxOf_lt_length_iff.mpr (hdefined.declared word (List.mem_singleton_self _))
        rw [if_neg hword, Formula.fold, Formula.value, List.getD_eq_getElem?_getD,
          List.getElem?_eq_getElem hlt]
        · rfl
        · exact nofun
        · exact nofun
  | .member root field, _, h, hdefined => by
      obtain ⟨l, hl, rfl⟩ := Option.map_eq_some_iff.mp h
      rw [value, hl]
      exact literal_of_converts (hdefined.converts l (List.mem_singleton_self _))
  | .unary op operand, _, h, hdefined => by
      have hchain := constant?_of_formula? h
      obtain ⟨v, hv, h⟩ := Option.bind_eq_some_iff.mp h
      cases h
      rw [Formula.fold] at hchain hdefined ⊢
      rw [value, ← hchain]
      rcases Formula.foldUnary_cases op.operation op.arity_operation v.fold with
        ⟨l, -, ⟨-, hfold⟩ | ⟨-, hfold⟩⟩ | ⟨-, hfold⟩
      · rw [hfold] at hdefined ⊢
        exact literal_of_converts (hdefined.converts _ (List.mem_singleton_self _))
      · rw [hfold] at hdefined ⊢
        exact literal_of_converts (hdefined.converts _ (List.mem_singleton_self _))
      · rw [hfold] at hdefined ⊢
        dsimp only [Formula.constant?]
        rw [value_of_formula? hvalues operand hv hdefined.operand]
        exact Evaluation.of_bind_of _ _
  | .binary op left right, _, h, hdefined => by
      obtain ⟨v, hv, h⟩ := Option.bind_eq_some_iff.mp h
      obtain ⟨w, hw, h⟩ := Option.bind_eq_some_iff.mp h
      cases h
      rw [Formula.fold] at hdefined ⊢
      rw [value, value_of_formula? hvalues right hw hdefined.operands.2,
        value_of_formula? hvalues left hv hdefined.operands.1, Formula.value]
      rcases w.fold.value env with fault | b
      · rfl
      · exact Evaluation.of_bind_of _ _
  | .call function arguments, u, h, hdefined => by
      obtain ⟨op, hop, h⟩ := Option.bind_eq_some_iff.mp h
      obtain ⟨us, hus, h⟩ := Option.bind_eq_some_iff.mp h
      obtain ⟨hplus, hnegate⟩ := not_sign_of_callee? hop
      have hoperands := valuesOfAll_of_formulasOfAll? hvalues arguments hus
      rw [value, hop]
      rcases Formula.ofOperands?_cases h with ⟨_, v, rfl, rfl⟩ | ⟨_, v, w, rfl, rfl⟩
      · rw [Formula.fold, Formula.foldUnary_of_ne hplus hnegate] at hdefined ⊢
        rw [hoperands (List.forall_mem_singleton.mpr hdefined.operand), Formula.value,
          Formula.valuesOfAll, Formula.valuesOfAll]
        rcases v.fold.value env with fault | a <;> rfl
      · rw [Formula.fold] at hdefined ⊢
        have hboth : ∀ x ∈ [v, w], x.fold.Defined T env.names :=
          List.forall_mem_cons.mpr
            ⟨hdefined.operands.1, List.forall_mem_singleton.mpr hdefined.operands.2⟩
        rw [hoperands hboth, Formula.value, Formula.valuesOfAll, Formula.valuesOfAll,
          Formula.valuesOfAll]
        rcases w.fold.value env with fault | b
        · rfl
        · rcases v.fold.value env with fault | a <;> rfl
  | .conditional .., _, h, _ => by cases h

/-- The same of several expressions. -/
theorem valuesOfAll_of_formulasOfAll? (hvalues : env.values.length = env.names.length) :
    (es : List Expr) → {us : List Formula} → formulasOfAll? env.element es = some us →
    (∀ u ∈ us, u.fold.Defined T env.names) →
    valuesOfAll env es = .of (Formula.valuesOfAll env us)
  | [], _, h, _ => by
      cases h
      rfl
  | e :: rest, _, h, hdefined => by
      obtain ⟨u, hu, h⟩ := Option.bind_eq_some_iff.mp h
      obtain ⟨us, hus, h⟩ := Option.bind_eq_some_iff.mp h
      cases h
      obtain ⟨hfirst, hothers⟩ := List.forall_mem_cons.mp hdefined
      rw [valuesOfAll, valuesOfAll_of_formulasOfAll? hvalues rest hus hothers,
        value_of_formula? hvalues e hu hfirst, Formula.valuesOfAll]
      rcases Formula.valuesOfAll env us with fault | others
      · rfl
      · exact Evaluation.of_bind_of _ _
end

end Expr

/-! ## Programs -/

/-- What a run over one element leaves, if its slot held `before`. -/
def Outcome.ofResult (before : T.Value) : Except OperationFault T.Value → Outcome T
  | .ok a => ⟨[a], none⟩
  | .error fault => ⟨[before], some (.arithmeticFault 0 fault.operation fault.reason)⟩

/-- The job of a formula's code gives the value of the formula. -/
theorem Formula.value_job (env : Environment T) (u : Formula) :
    Job.value ⟨u.code.map (Action.step T env.names), env.values, env.checked⟩ env.x =
      u.value env := by
  rw [Job.value, u.actAll_code env []]
  rcases u.value env with fault | a <;> rfl

/-- A run over one element leaves the result of its job. -/
theorem Bytecode.execute_singleton {b : Bytecode T} {values : List T.Value} {memory : Scratch T}
    {x before : T.Value} {options : RunOptions} {steps : List (Step T)} {depth : Nat}
    (h : b.Prepared values memory [x] [before] options.lanes steps depth) :
    b.execute values memory [x] [before] options =
      .ofResult before (Job.value ⟨steps, values, options.checked⟩ x) := by
  have hinput : processed options.limit [x] = [x] := by
    unfold processed
    split
    · rfl
    · exact List.take_of_length_le (Nat.one_le_iff_ne_zero.mpr ‹_›)
  rw [execute_eq_plain h, hinput, Job.plain]
  rcases Job.value ⟨steps, values, options.checked⟩ x with fault | a <;> rfl

/-- A compiled program evaluates to the value of its folded formula, or faults as the formula does.
-/
theorem Program.Compiled.evaluate_eq {equation element : String} {parameters : List String}
    {p : Program T} {t : Expr} {u : Formula} (h : p.Compiled equation element parameters t u)
    {values : List T.Value} (hvalues : values.length = p.parameters.length)
    (hadmissible : ∀ a ∈ values, T.isAdmissible a = true) (x : T.Value) :
    p.evaluate x values = (u.fold.value ⟨element, x, parameters, values, true⟩).mapError
      fun fault => .arithmeticFault 0 fault.operation fault.reason := by
  have hrun : p.run values [x] [T.zero] .default =
      .ofResult T.zero (u.fold.value ⟨element, x, parameters, values, true⟩) := by
    have harrays : [x].length = [T.zero].length := rfl
    have hprepared : p.bytecode.Prepared values (.zeros T (p.depth * 1)) [x] [T.zero]
        RunOptions.default.lanes (u.fold.code.map (Action.step T parameters)) p.depth :=
      h.prepared hvalues hadmissible harrays Nat.one_pos (Nat.min_le_left _ _)
    rw [← Formula.value_job]
    exact Bytecode.execute_singleton hprepared
  rw [evaluate, hrun]
  rcases u.fold.value ⟨element, x, parameters, values, true⟩ with fault | a <;> rfl

/-- **Compiler correctness.** Running a compiled program over one element gives the value of its
expression, or faults as the expression does. -/
theorem Program.execute_compile {settings : Settings} {equation element : String}
    {parameters : List String} {p : Program T}
    (h : compile T settings equation element parameters = .ok p) :
    ∃ t, Equation.parse equation = .ok ⟨t⟩ ∧
      ∀ (x : T.Value) (values : List T.Value) (options : RunOptions),
        values.length = p.parameters.length → (∀ a ∈ values, T.isAdmissible a = true) →
        0 < options.lanes →
        ∃ result, t.value ⟨element, x, parameters, values, options.checked⟩ = .of result ∧
          ∀ (memory : Scratch T) (before : T.Value),
            min (p.depth * options.lanes) sizeLimit ≤ memory.size →
            p.bytecode.execute values memory [x] [before] options = .ofResult before result := by
  obtain ⟨t, u, hcompiled⟩ := exists_compiled h
  refine ⟨t, hcompiled.parsed, fun x values options hvalues hadmissible hlanes => ?_⟩
  have hdefined : u.fold.Defined T parameters :=
    ⟨hcompiled.fits.converts, hcompiled.fits.declared⟩
  refine ⟨_, t.value_of_formula? (hcompiled.names ▸ hvalues) hcompiled.formula hdefined, ?_⟩
  intro memory before hmemory
  have harrays : [x].length = [before].length := rfl
  rw [Bytecode.execute_singleton (hcompiled.prepared hvalues hadmissible harrays hlanes hmemory)]
  exact congrArg _ (Formula.value_job ⟨element, x, parameters, values, options.checked⟩ u.fold)

/-- `b - -(3) * abs(x - a)` over bytes: at 100 the product overflows, in the tree and on the
machine. -/
theorem Program.execute_compile_distance :
    ∃ p : Program (.int ⟨true, .w8⟩),
      compile _ .default "b - -(3) * abs(x - a)" "x" ["a", "b"] = .ok p ∧
      ∃ t, Equation.parse "b - -(3) * abs(x - a)" = .ok ⟨t⟩ ∧
        t.value (T := .int ⟨true, .w8⟩) ⟨"x", 100#8, ["a", "b"], [1#8, 2#8], true⟩ =
          .of (.error ⟨.mul, .overflow⟩) ∧
        p.bytecode.execute [1#8, 2#8] (.zeros _ 4) [100#8] [7#8] .default =
          ⟨[7#8], some (.arithmeticFault 0 .mul .overflow)⟩ := by
  have hcompile : compile (.int ⟨true, .w8⟩) .default "b - -(3) * abs(x - a)" "x" ["a", "b"] =
      .ok ⟨⟨[1, 0, 8, 27, 2, 9, 1, 8], [0, 0, 0, 0, 0, 0, 1, 0],
        [0#8, 0#8, 0#8, 0#8, 253#8, 0#8, 0#8, 0#8]⟩, 4, ["a", "b"]⟩ := rfl
  have hparse : Equation.parse "b - -(3) * abs(x - a)" =
      .ok ⟨.binary .sub (.name "b") (.binary .mul (.unary .minus (.number (.int 3)))
        (.call (.name "abs") [.binary .sub (.name "x") (.name "a")]))⟩ := rfl
  obtain ⟨t, ht, hrun⟩ := execute_compile hcompile
  cases hparse.symm.trans ht
  obtain ⟨result, hvalue, hexecute⟩ :=
    hrun 100#8 [1#8, 2#8] .default rfl (fun _ _ => rfl) (by decide)
  have hfault : result = .error ⟨.mul, .overflow⟩ := (Option.some.inj hvalue).symm
  refine ⟨_, hcompile, _, hparse, ?_, ?_⟩
  · rw [← hfault]
    exact hvalue
  · rw [hexecute (.zeros _ 4) 7#8 (by decide), hfault]
    rfl

end Elementwise
