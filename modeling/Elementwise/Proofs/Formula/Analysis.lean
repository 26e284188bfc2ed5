import Elementwise.Proofs.Formula

/-!
# From expressions to formulas

`Expr.formula?` gives the formula of a permitted expression. The analysis of an equation is a check
of the whole tree followed by flattening; an equation that passes has a formula, and the
straight-line code is the code of that formula (`Equation.formula_of_analyze`). The formula needs no
more stack than the tree is high (`Expr.need_le_height`), and its constants are the numbers of the
tree and the constants of `math` (`Expr.constant_of_formula?`).
-/

namespace Elementwise

theorem UnaryOp.arity_operation (op : UnaryOp) : op.operation.info.arity = 1 := by
  cases op <;> rfl

theorem BinaryOp.arity_operation (op : BinaryOp) : op.operation.info.arity = 2 := by
  cases op <;> rfl

/-- A function of `math` is named by the library, a point and a word without one. -/
theorem Operation.name_of_isMathCall {op : Operation} (h : op.info.isMathCall = true) :
    ∃ word, op.name.toList = "math".toList ++ '.' :: word ∧ '.' ∉ word := by
  have hall : ∀ op ∈ all, op.info.isMathCall = true →
      op.name.toList.take 5 = "math".toList ++ ['.'] ∧ '.' ∉ op.name.toList.drop 5 := by
    decide +kernel
  obtain ⟨hfront, hpoint⟩ := hall op op.mem_all h
  refine ⟨op.name.toList.drop 5, ?_, hpoint⟩
  conv_lhs => rw [← List.take_append_drop 5 op.name.toList, hfront]
  exact List.append_assoc _ _ _

/-- The formula of an operation on as many operands as it takes. -/
def Formula.ofOperands? (op : Operation) : List Formula → Option Formula
  | [operand] => if h : op.info.arity = 1 then some (.unary op h operand) else none
  | [left, right] => if h : op.info.arity = 2 then some (.binary op h left right) else none
  | _ => none

/-- The actions of several formulas, the last formula first. -/
def Formula.codeOfAll : List Formula → List Action
  | [] => []
  | u :: rest => codeOfAll rest ++ u.code

namespace Expr

/-- Whether a node can be called: it is the name of a function. -/
def IsCallee (function : Expr) : Prop :=
  ∃ word, function.dottedName? = some word ∧ Operation.isCallable word = true

/-- The operation that a call applies. -/
def callee? (function : Expr) : Option Operation :=
  match function.dottedName? with
  | some word => if Operation.isCallable word then Operation.ofName? word else none
  | none => none

/-- The literal that a node is: a number or a constant of `math`. -/
def literal? : Expr → Option Literal
  | .number value => some value
  | .member (.name base) field => if base = "math" then (mathConstant? field).map .float else none
  | _ => none

mutual
/-- The formula of an expression, where `element` names the array element; none if the expression is
not permitted. -/
def formula? (element : String) : Expr → Option Formula
  | .number value => some (.constant value)
  | .quoted _ => none
  | .name word =>
    if word = element then some .element
    else if word ∈ reservedNames then none
    else some (.parameter word)
  | .member value field => ((Expr.member value field).literal?).map .constant
  | .unary op operand => do
    let u ← operand.formula? element
    some (.unary op.operation op.arity_operation u)
  | .binary op left right => do
    let u ← left.formula? element
    let v ← right.formula? element
    some (.binary op.operation op.arity_operation u v)
  | .call function arguments => do
    let op ← function.callee?
    let us ← formulasOfAll? element arguments
    Formula.ofOperands? op us
  | .conditional .. => none

/-- The formulas of several expressions. -/
def formulasOfAll? (element : String) : List Expr → Option (List Formula)
  | [] => some []
  | e :: rest => do
    let u ← e.formula? element
    let us ← formulasOfAll? element rest
    some (u :: us)
end

/-- There are as many formulas as expressions. -/
theorem length_formulasOfAll? {element : String} {es : List Expr} {us : List Formula}
    (h : formulasOfAll? element es = some us) : us.length = es.length := by
  induction es generalizing us with
  | nil =>
      cases h
      rfl
  | cons e rest ih =>
      obtain ⟨u, -, h⟩ := Option.bind_eq_some_iff.mp h
      obtain ⟨others, hothers, h⟩ := Option.bind_eq_some_iff.mp h
      cases h
      simp [ih hothers]

/-- The formula of a name is the element or a parameter. -/
theorem formula?_name_cases {element word : String} {u : Formula}
    (h : (name word).formula? element = some u) :
    word = element ∧ u = .element ∨ word ≠ element ∧ u = .parameter word := by
  rw [formula?] at h
  split at h
  · rename_i hword
    exact .inl ⟨hword, (Option.some.inj h).symm⟩
  · rename_i hword
    split at h
    · cases h
    · exact .inr ⟨hword, (Option.some.inj h).symm⟩

/-! ## Callees -/

/-- A called operation is `abs` or a function of `math`. -/
theorem callee?_cases {function : Expr} {op : Operation} (h : function.callee? = some op) :
    op = .abs ∨ op.info.isMathCall = true := by
  unfold callee? at h
  split at h
  · split at h
    · rename_i word _ hcallable
      rw [Operation.isCallable, h, Bool.or_eq_true, decide_eq_true_eq] at hcallable
      rcases hcallable with hbuiltin | hmath
      · rw [Operation.builtins, List.mem_singleton] at hbuiltin
        subst hbuiltin
        have habs : Operation.ofName? "abs" = some .abs := by decide +kernel
        rw [habs] at h
        cases h
        exact .inl rfl
      · exact .inr hmath
    · cases h
  · cases h

/-- A called operation is not a sign. -/
theorem not_sign_of_callee? {function : Expr} {op : Operation} (h : function.callee? = some op) :
    op ≠ .plus ∧ op ≠ .negate := by
  rcases callee?_cases h with rfl | hmath
  · decide
  · constructor <;> rintro rfl <;> cases hmath

/-- A called operation takes one value or two. -/
theorem arity_of_callee? {function : Expr} {op : Operation} (h : function.callee? = some op) :
    op.info.arity = 1 ∨ op.info.arity = 2 := by
  rcases callee?_cases h with rfl | hmath
  · exact .inl rfl
  · have hall : ∀ op ∈ Operation.all, op.info.isMathCall = true →
        op.info.arity = 1 ∨ op.info.arity = 2 := by decide +kernel
    exact hall op op.mem_all hmath

/-- A callee is the name of its operation, or it refers to a member of `math`. -/
theorem function_of_callee? {function : Expr} {op : Operation} (h : function.callee? = some op) :
    function = .name op.name ∨
      ∃ field, function = .member (.name "math") field ∧ op.name = "math" ++ "." ++ field := by
  have hop := callee?_cases h
  unfold callee? at h
  split at h
  · rename_i word hword
    split at h
    · have hname : op.name = word := by simpa using List.find?_some h
      subst hname
      unfold dottedName? at hword
      split at hword
      · rename_i word'
        exact .inl (by rw [Option.some.inj hword])
      · rename_i base field
        have hdotted : base.toList ++ '.' :: field.toList = op.name.toList := by
          simp [← Option.some.inj hword]
        rcases hop with rfl | hmath
        · have hpoint : '.' ∈ Operation.abs.name.toList := by simp [← hdotted]
          exact absurd hpoint (by decide)
        · obtain ⟨rest, hrest, hpoint⟩ := Operation.name_of_isMathCall hmath
          have hsplit := (List.append_cons_inj_of_notMem (by decide) hpoint).mp
            (hrest.symm.trans hdotted.symm)
          have hbase : "math" = base := String.toList_inj.mp hsplit.1
          subst hbase
          exact .inr ⟨field, rfl, (Option.some.inj hword).symm⟩
      · cases hword
    · cases h
  · cases h

/-- A callee whose call passes the count of arguments is the operation that is applied. -/
theorem callee?_of_callOperation {function : Expr} {given : Nat} {op : Operation}
    (hcallee : function.IsCallee) (h : callOperation function given = .ok op) :
    function.callee? = some op ∧ given = op.info.arity := by
  obtain ⟨word, hword, hcallable⟩ := hcallee
  unfold callOperation at h
  rw [hword, Option.getD_some] at h
  unfold callee?
  rw [hword]
  dsimp only at h ⊢
  rw [if_pos hcallable]
  split at h
  · rename_i found hfound
    split at h
    · rename_i hgiven
      cases h
      exact ⟨hfound, hgiven⟩
    · cases h
  · cases h

end Expr

/-- Operands in the number of the arity form a formula. -/
theorem Formula.ofOperands?_of_arity {op : Operation} {us : List Formula}
    (hlength : us.length = op.info.arity) (harity : op.info.arity = 1 ∨ op.info.arity = 2) :
    ∃ u, ofOperands? op us = some u := by
  rcases harity with hone | htwo
  · obtain ⟨operand, rfl⟩ := List.length_eq_one_iff.mp (hlength.trans hone)
    exact ⟨.unary op hone operand, dif_pos hone⟩
  · match us, hlength.trans htwo with
    | [left, right], _ => exact ⟨.binary op htwo left right, dif_pos htwo⟩

/-- What an operation forms is its formula on one operand or on two. -/
theorem Formula.ofOperands?_cases {op : Operation} {us : List Formula} {u : Formula}
    (h : ofOperands? op us = some u) :
    (∃ arity operand, us = [operand] ∧ u = .unary op arity operand) ∨
      ∃ arity left right, us = [left, right] ∧ u = .binary op arity left right := by
  unfold ofOperands? at h
  split at h
  · obtain ⟨arity, hu⟩ := Option.dite_none_right_eq_some.mp h
    exact .inl ⟨arity, _, rfl, (Option.some.inj hu).symm⟩
  · obtain ⟨arity, hu⟩ := Option.dite_none_right_eq_some.mp h
    exact .inr ⟨arity, _, _, rfl, (Option.some.inj hu).symm⟩
  · cases h

/-- The code of an operation on formulas is theirs, and the operation. -/
theorem Formula.code_of_ofOperands? {op : Operation} {us : List Formula} {u : Formula}
    (h : ofOperands? op us = some u) : u.code = codeOfAll us ++ [.apply op] := by
  rcases ofOperands?_cases h with ⟨_, _, rfl, rfl⟩ | ⟨_, _, _, rfl, rfl⟩
  · rfl
  · rfl

namespace Expr

/-! ## Analysis -/

mutual
/-- A tree that has no forbidden construct and calls functions only, and that is flattened, has a
formula, whose code is that of the tree. -/
theorem exists_formula (element : String) : (e : Expr) →
    (∀ node ∈ e.visits isOpen, node.construct? = none) →
    (∀ function arguments, .call function arguments ∈ e.visits (fun _ => true) →
      function.IsCallee) →
    ∀ {code : List Action}, e.actions element = .ok code →
    ∃ u, e.formula? element = some u ∧ u.code = code
  | .number value, _, _, _, h => by
      cases h
      exact ⟨.constant value, rfl, rfl⟩
  | .quoted content, _, _, _, h => by cases h
  | .name word, _, _, code, h => by
      obtain ⟨action, haction, h⟩ := bind_eq_ok_iff.mp h
      cases h
      unfold nameAction at haction
      split at haction
      · rename_i hword
        cases haction
        exact ⟨.element, by rw [formula?, if_pos hword], rfl⟩
      · rename_i hword
        split at haction
        · cases haction
        · rename_i hfree
          cases haction
          exact ⟨.parameter word, by rw [formula?, if_neg hword, if_neg hfree], rfl⟩
  | .member value field, hopen, _, code, h => by
      obtain ⟨action, haction, h⟩ := bind_eq_ok_iff.mp h
      cases h
      have hnode : (Expr.member value field).construct? = none := hopen _ (by simp [visits])
      unfold memberAction at haction
      split at haction
      · rename_i x hx
        cases haction
        match value with
        | .name base =>
            have hbase : base = "math" := by simpa [construct?] using hnode
            exact ⟨.constant (.float x), by simp [formula?, literal?, hbase, hx], rfl⟩
        | .number _ | .quoted _ | .member .. | .unary .. | .binary .. | .call .. |
          .conditional .. => simp [construct?] at hnode
      · cases haction
  | .unary op operand, hopen, hcalls, code, h => by
      obtain ⟨inner, hinner, h⟩ := bind_eq_ok_iff.mp h
      cases h
      obtain ⟨u, hu, hcode⟩ := exists_formula element operand
        (fun node hnode => hopen node (by simp [visits, isOpen, hnode]))
        (fun f as hcall => hcalls f as (by simp [visits, hcall])) hinner
      exact ⟨.unary op.operation op.arity_operation u, by simp [formula?, hu],
        by rw [Formula.code, hcode]⟩
  | .binary op left right, hopen, hcalls, code, h => by
      obtain ⟨first, hfirst, h⟩ := bind_eq_ok_iff.mp h
      obtain ⟨second, hsecond, h⟩ := bind_eq_ok_iff.mp h
      cases h
      obtain ⟨u, hu, hucode⟩ := exists_formula element left
        (fun node hnode => hopen node (by simp [visits, isOpen, hnode]))
        (fun f as hcall => hcalls f as (by simp [visits, hcall])) hfirst
      obtain ⟨v, hv, hvcode⟩ := exists_formula element right
        (fun node hnode => hopen node (by simp [visits, isOpen, hnode]))
        (fun f as hcall => hcalls f as (by simp [visits, hcall])) hsecond
      exact ⟨.binary op.operation op.arity_operation u v, by simp [formula?, hu, hv],
        by rw [Formula.code, hucode, hvcode]⟩
  | .call function arguments, hopen, hcalls, code, h => by
      obtain ⟨op, hop, h⟩ := bind_eq_ok_iff.mp h
      obtain ⟨inner, hinner, h⟩ := bind_eq_ok_iff.mp h
      cases h
      obtain ⟨hcallee, hgiven⟩ :=
        callee?_of_callOperation (hcalls function arguments (by simp [visits])) hop
      obtain ⟨us, hus, hlength, hcode⟩ := exists_formulas element arguments
        (fun node hnode => hopen node (by simp [visits, isOpen, hnode]))
        (fun f as hcall => hcalls f as (by simp [visits, hcall])) hinner
      obtain ⟨u, hu⟩ :=
        Formula.ofOperands?_of_arity (hlength.trans hgiven) (arity_of_callee? hcallee)
      exact ⟨u, by simp [formula?, hcallee, hus, hu], by rw [Formula.code_of_ofOperands? hu, hcode]⟩
  | .conditional .., _, _, _, h => by cases h

/-- The same of several trees. -/
theorem exists_formulas (element : String) : (es : List Expr) →
    (∀ node ∈ visitsOfAll isOpen es, node.construct? = none) →
    (∀ function arguments, .call function arguments ∈ visitsOfAll (fun _ => true) es →
      function.IsCallee) →
    ∀ {code : List Action}, actionsOfAll element es = .ok code →
    ∃ us, formulasOfAll? element es = some us ∧ us.length = es.length ∧
      Formula.codeOfAll us = code
  | [], _, _, _, h => by
      cases h
      exact ⟨[], rfl, rfl, rfl⟩
  | e :: rest, hopen, hcalls, code, h => by
      obtain ⟨first, hfirst, h⟩ := bind_eq_ok_iff.mp h
      obtain ⟨others, hothers, h⟩ := bind_eq_ok_iff.mp h
      cases h
      obtain ⟨u, hu, hucode⟩ := exists_formula element e
        (fun node hnode => hopen node (by simp [visitsOfAll, hnode]))
        (fun f as hcall => hcalls f as (by simp [visitsOfAll, hcall])) hfirst
      obtain ⟨us, hus, hlength, huscode⟩ := exists_formulas element rest
        (fun node hnode => hopen node (by simp [visitsOfAll, hnode]))
        (fun f as hcall => hcalls f as (by simp [visitsOfAll, hcall])) hothers
      exact ⟨u :: us, by simp [formulasOfAll?, hu, hus], by simp [hlength],
        by rw [Formula.codeOfAll, hucode, huscode]⟩
end

/-- The first look passes a tree exactly if it goes past no forbidden construct. -/
theorem checkConstructs_eq_ok_iff {e : Expr} :
    e.checkConstructs = .ok () ↔ ∀ node ∈ e.visits isOpen, node.construct? = none := by
  unfold checkConstructs
  rw [← List.findSome?_eq_none_iff]
  split
  · rename_i construct hsome
    simp [hsome]
  · rename_i hnone
    simp [hnone]

/-- A callee is a plain name exactly if it has no kind to be refused by. -/
theorem computedKind?_eq_none_iff {function : Expr} :
    function.computedKind? = none ↔ ∃ word, function.dottedName? = some word := by
  unfold computedKind?
  rw [← Option.isSome_iff_exists]
  split
  · rename_i h
    simp [h]
  · rename_i h
    simp [h]

/-- The second look passes a tree exactly if everything called in it is a function. -/
theorem checkCalls_eq_ok_iff {e : Expr} :
    e.checkCalls = .ok () ↔ ∀ function ∈ e.callees, function.IsCallee := by
  unfold checkCalls
  split
  · rename_i kind hkind
    obtain ⟨function, hmem, hfunction⟩ := List.exists_of_findSome?_eq_some hkind
    refine ⟨nofun, fun h => ?_⟩
    obtain ⟨word, hword, -⟩ := h function hmem
    have hplain := computedKind?_eq_none_iff.mpr ⟨word, hword⟩
    rw [hplain] at hfunction
    cases hfunction
  · rename_i hnone
    have hplain : ∀ function ∈ e.callees, ∃ word, function.dottedName? = some word :=
      fun function hmem =>
        computedKind?_eq_none_iff.mp (List.findSome?_eq_none_iff.mp hnone function hmem)
    have hempty : ((e.callees.filterMap dottedName?).filter
        fun name => !Operation.isCallable name).isEmpty = true ↔
          ∀ function ∈ e.callees, function.IsCallee := by
      rw [List.isEmpty_iff, List.filter_eq_nil_iff]
      constructor
      · intro h function hmem
        obtain ⟨word, hword⟩ := hplain function hmem
        refine ⟨word, hword, ?_⟩
        simpa using h word (List.mem_filterMap.mpr ⟨function, hmem, hword⟩)
      · intro h word hword
        obtain ⟨function, hmem, hfunction⟩ := List.mem_filterMap.mp hword
        obtain ⟨word', hword', hcallable⟩ := h function hmem
        obtain rfl := Option.some.inj (hfunction.symm.trans hword')
        simp [hcallable]
    dsimp only
    rw [← hempty]
    split
    · rename_i h
      simp [h]
    · rename_i h
      simp [h]

/-- What is called in a tree is the function of one of its calls. -/
theorem mem_callees {e function : Expr} :
    function ∈ e.callees ↔ ∃ arguments, .call function arguments ∈ e.visits fun _ => true := by
  unfold callees
  rw [List.mem_filterMap]
  constructor
  · rintro ⟨node, hnode, hfunction⟩
    split at hfunction
    · cases hfunction
      exact ⟨_, hnode⟩
    · cases hfunction
  · rintro ⟨arguments, hcall⟩
    exact ⟨_, hcall, rfl⟩

end Expr

/-- **Analysis.** An equation that passes the analysis has a formula, and the code is its code. -/
theorem Equation.formula_of_analyze {equation : Equation} {element : String} {code : List Action}
    (h : equation.analyze element = .ok code) :
    ∃ u, equation.body.formula? element = some u ∧ u.code = code := by
  obtain ⟨_, hconstructs, h⟩ := bind_eq_ok_iff.mp h
  obtain ⟨_, hcalls, h⟩ := bind_eq_ok_iff.mp h
  exact Expr.exists_formula element equation.body (Expr.checkConstructs_eq_ok_iff.mp hconstructs)
    (fun function arguments hcall =>
      Expr.checkCalls_eq_ok_iff.mp hcalls function (Expr.mem_callees.mpr ⟨arguments, hcall⟩)) h

namespace Expr

/-! ## Heights and constants -/

/-- What an operation on formulas needs is at most one more than what one of them needs. -/
theorem need_of_ofOperands? {op : Operation} {us : List Formula} {u : Formula} {height : Nat}
    (h : Formula.ofOperands? op us = some u) (hheight : ∀ v ∈ us, v.need ≤ height) :
    u.need ≤ height + 1 := by
  rcases Formula.ofOperands?_cases h with ⟨_, _, rfl, rfl⟩ | ⟨_, _, _, rfl, rfl⟩
  · have hneed := hheight _ (List.mem_singleton_self _)
    rw [Formula.need]
    omega
  · have hleft := hheight _ (List.mem_cons_self ..)
    have hright := hheight _ (List.mem_cons_of_mem _ (List.mem_singleton_self _))
    rw [Formula.need]
    omega

mutual
/-- A formula needs no more than the height of its tree. -/
theorem need_le_height {element : String} : (e : Expr) → {u : Formula} →
    e.formula? element = some u → u.need ≤ e.height
  | .number _, _, h => by
      cases h
      exact Nat.le_refl 1
  | .quoted _, _, h => by cases h
  | .name _, u, h => by
      rcases formula?_name_cases h with ⟨-, rfl⟩ | ⟨-, rfl⟩
      · exact Nat.le_refl 1
      · exact Nat.le_refl 1
  | .member value field, u, h => by
      obtain ⟨l, -, rfl⟩ := Option.map_eq_some_iff.mp h
      exact Nat.succ_le_succ (Nat.zero_le _)
  | .unary op operand, u, h => by
      obtain ⟨v, hv, h⟩ := Option.bind_eq_some_iff.mp h
      cases h
      have hneed := need_le_height operand hv
      rw [Formula.need, height]
      omega
  | .binary op left right, u, h => by
      obtain ⟨v, hv, h⟩ := Option.bind_eq_some_iff.mp h
      obtain ⟨w, hw, h⟩ := Option.bind_eq_some_iff.mp h
      cases h
      have hleft := need_le_height left hv
      have hright := need_le_height right hw
      rw [Formula.need, height]
      omega
  | .call function arguments, u, h => by
      obtain ⟨op, -, h⟩ := Option.bind_eq_some_iff.mp h
      obtain ⟨us, hus, h⟩ := Option.bind_eq_some_iff.mp h
      have hneed := need_of_ofOperands? h (need_le_heightOfAll arguments hus)
      rw [height]
      omega
  | .conditional .., _, h => by cases h

/-- The same of several trees. -/
theorem need_le_heightOfAll {element : String} : (es : List Expr) → {us : List Formula} →
    formulasOfAll? element es = some us → ∀ u ∈ us, u.need ≤ heightOfAll es
  | [], _, h => by
      cases h
      exact nofun
  | e :: rest, _, h => by
      obtain ⟨v, hv, h⟩ := Option.bind_eq_some_iff.mp h
      obtain ⟨vs, hvs, h⟩ := Option.bind_eq_some_iff.mp h
      cases h
      have hfirst := need_le_height e hv
      have hothers := need_le_heightOfAll rest hvs
      rw [heightOfAll, List.forall_mem_cons]
      exact ⟨by omega, fun u hu => Nat.le_trans (hothers u hu) (Nat.le_max_right _ _)⟩
end

mutual
/-- A constant in the code of a tree is a number of the tree or a constant of `math`. -/
theorem constant_of_formula? {element : String} {l : Literal} : (e : Expr) → {u : Formula} →
    e.formula? element = some u → Action.constant l ∈ u.code →
    .number l ∈ e.visits (fun _ => true) ∨ ∃ field x, mathConstant? field = some x ∧ l = .float x
  | .number value, _, h, hl => by
      cases h
      rw [Formula.code, List.mem_singleton] at hl
      cases hl
      exact .inl (List.mem_singleton_self _)
  | .quoted _, _, h, _ => by cases h
  | .name _, u, h, hl => by
      rcases formula?_name_cases h with ⟨-, rfl⟩ | ⟨-, rfl⟩
      · simp [Formula.code] at hl
      · simp [Formula.code] at hl
  | .member value field, u, h, hl => by
      obtain ⟨l', hl', rfl⟩ := Option.map_eq_some_iff.mp h
      rw [Formula.code, List.mem_singleton] at hl
      cases hl
      unfold literal? at hl'
      split at hl'
      · rename_i hnumber
        cases hnumber
      · split at hl'
        · obtain ⟨x, hx, rfl⟩ := Option.map_eq_some_iff.mp hl'
          exact .inr ⟨_, x, hx, rfl⟩
        · cases hl'
      · cases hl'
  | .unary op operand, u, h, hl => by
      obtain ⟨v, hv, h⟩ := Option.bind_eq_some_iff.mp h
      cases h
      have hinner : Action.constant l ∈ v.code := by simpa [Formula.code] using hl
      exact (constant_of_formula? operand hv hinner).imp_left fun hmem => by simp [visits, hmem]
  | .binary op left right, u, h, hl => by
      obtain ⟨v, hv, h⟩ := Option.bind_eq_some_iff.mp h
      obtain ⟨w, hw, h⟩ := Option.bind_eq_some_iff.mp h
      cases h
      have hinner : Action.constant l ∈ w.code ∨ Action.constant l ∈ v.code := by
        simpa [Formula.code] using hl
      rcases hinner with hinner | hinner
      · exact (constant_of_formula? right hw hinner).imp_left fun hmem => by simp [visits, hmem]
      · exact (constant_of_formula? left hv hinner).imp_left fun hmem => by simp [visits, hmem]
  | .call function arguments, u, h, hl => by
      obtain ⟨op, -, h⟩ := Option.bind_eq_some_iff.mp h
      obtain ⟨us, hus, h⟩ := Option.bind_eq_some_iff.mp h
      have hinner : Action.constant l ∈ Formula.codeOfAll us := by
        simpa [Formula.code_of_ofOperands? h] using hl
      exact (constant_of_formulasOfAll? arguments hus hinner).imp_left fun hmem => by
        simp [visits, hmem]
  | .conditional .., _, h, _ => by cases h

/-- The same of several trees. -/
theorem constant_of_formulasOfAll? {element : String} {l : Literal} : (es : List Expr) →
    {us : List Formula} → formulasOfAll? element es = some us →
    Action.constant l ∈ Formula.codeOfAll us →
    .number l ∈ visitsOfAll (fun _ => true) es ∨
      ∃ field x, mathConstant? field = some x ∧ l = .float x
  | [], _, h, hl => by
      cases h
      cases hl
  | e :: rest, _, h, hl => by
      obtain ⟨v, hv, h⟩ := Option.bind_eq_some_iff.mp h
      obtain ⟨vs, hvs, h⟩ := Option.bind_eq_some_iff.mp h
      cases h
      rw [Formula.codeOfAll, List.mem_append] at hl
      rcases hl with hl | hl
      · exact (constant_of_formulasOfAll? rest hvs hl).imp_left fun hmem => by
          simp [visitsOfAll, hmem]
      · exact (constant_of_formula? e hv hl).imp_left fun hmem => by simp [visitsOfAll, hmem]
end

end Expr

end Elementwise
