import Elementwise.Proofs.Formula.Analysis
import Elementwise.Proofs.Names

/-!
# Permitted expressions

`Expr.Permitted` says by recursion on the tree which expressions can be compiled. The analysis is
not made that way: it looks at the whole tree twice, each time going down by rules of its own, and
then flattens it and trusts what the looks have found. It accepts exactly the permitted trees
(`Equation.analyze_exact`).

The formula stands between the two. A tree is analyzed exactly if it has a formula
(`Equation.analyze_eq_ok_iff`), and it has one exactly if it is permitted. The second needs that no
point stands in a name, which holds in the tree of a text: there is a tree, not of any text, with a
callee that is one name `math.sin`.
-/

namespace Elementwise

/-- Every operation is found by its name. -/
theorem Operation.ofName?_name (op : Operation) : ofName? op.name = some op := by
  have hall : ∀ op ∈ all, ofName? op.name = some op := by decide +kernel
  exact hall op op.mem_all

/-- An operation forms a formula of as many operands as it takes. -/
theorem Formula.length_of_ofOperands? {op : Operation} {us : List Formula} {u : Formula}
    (h : ofOperands? op us = some u) : us.length = op.info.arity := by
  rcases ofOperands?_cases h with ⟨arity, _, rfl, -⟩ | ⟨arity, _, _, rfl, -⟩
  · exact arity.symm
  · exact arity.symm

namespace Expr

/-- `Calls function op`: a call of `function` applies `op`. The functions are `abs` and, as members
of `math`, those of the library. -/
inductive Calls : Expr → Operation → Prop
  | abs : Calls (.name "abs") .abs
  | math {op : Operation} {field : String} : op.info.isMathCall = true →
      op.name = "math." ++ field → Calls (.member (.name "math") field) op

mutual
/-- The expressions that can be compiled, where `element` names the array element. -/
def Permitted (element : String) : Expr → Prop
  | .number _ => True
  | .quoted _ => False
  | .name word => word = element ∨ word ≠ "math" ∧ word ≠ "abs"
  | .member root field => root = .name "math" ∧ (field = "pi" ∨ field = "e" ∨ field = "tau")
  | .unary _ operand => operand.Permitted element
  | .binary _ left right => left.Permitted element ∧ right.Permitted element
  | .call function arguments =>
    ∃ op, Calls function op ∧ arguments.length = op.info.arity ∧ PermittedAll element arguments
  | .conditional .. => False

/-- All of several expressions can be compiled. -/
def PermittedAll (element : String) : List Expr → Prop
  | [] => True
  | e :: rest => e.Permitted element ∧ PermittedAll element rest
end

/-! ## Formulas of permitted expressions -/

/-- A function that may be called is a callee. -/
theorem Calls.callee?_eq {function : Expr} {op : Operation} (h : Calls function op) :
    function.callee? = some op := by
  cases h with
  | abs => decide +kernel
  | math hmath hname =>
      rename_i field
      have hdotted : (member (.name "math") field).dottedName? = some op.name := by
        rw [dottedName?, hname]
        rfl
      have hcallable : Operation.isCallable op.name = true := by
        simp [Operation.isCallable, Operation.ofName?_name, hmath]
      simp [callee?, hdotted, hcallable, Operation.ofName?_name]

/-- A callee that is no name with a point in it may be called. -/
theorem calls_of_callee? {function : Expr} {op : Operation} (h : function.callee? = some op)
    (hpoint : ∀ word, function = .name word → '.' ∉ word.toList) : Calls function op := by
  rcases callee?_cases h with rfl | hmath
  · rcases function_of_callee? h with rfl | ⟨field, -, hname⟩
    · exact .abs
    · have hmem : '.' ∈ Operation.abs.name.toList := by simp [hname]
      exact absurd hmem (by decide)
  · rcases function_of_callee? h with hname | ⟨field, rfl, hname⟩
    · obtain ⟨rest, hrest, -⟩ := Operation.name_of_isMathCall hmath
      exact absurd (by simp [hrest]) (hpoint _ hname)
    · exact .math hmath hname

/-- The constants of `math` are the members that are literals. -/
theorem exists_literal?_member {root : Expr} {field : String} :
    (∃ l, (member root field).literal? = some l) ↔
      root = .name "math" ∧ (field = "pi" ∨ field = "e" ∨ field = "tau") := by
  have hconstant : (∃ x, mathConstant? field = some x) ↔
      field = "pi" ∨ field = "e" ∨ field = "tau" := by
    rw [← Option.isSome_iff_exists, mathConstant?, List.lookup_isSome_iff]
    simp [mathConstants]
  cases root with
  | name base => simp [literal?, ← hconstant]
  | number _ | quoted _ | member _ _ | unary _ _ | binary _ _ _ | call _ _ | conditional _ _ _ =>
      simp [literal?]

mutual
/-- A permitted expression has a formula. -/
theorem exists_formula?_of_permitted {element : String} : (e : Expr) → e.Permitted element →
    ∃ u, e.formula? element = some u
  | .number value, _ => ⟨.constant value, rfl⟩
  | .quoted _, h => by simp [Permitted] at h
  | .name word, h => by
      simp only [Permitted] at h
      by_cases hword : word = element
      · exact ⟨.element, by simp [formula?, hword]⟩
      · have hfree : word ∉ reservedNames := by simpa [reservedNames, hword] using h
        exact ⟨.parameter word, by simp [formula?, hword, hfree]⟩
  | .member root field, h => by
      simp only [Permitted] at h
      obtain ⟨l, hl⟩ := exists_literal?_member.mpr h
      exact ⟨.constant l, by simp [formula?, hl]⟩
  | .unary op operand, h => by
      simp only [Permitted] at h
      obtain ⟨u, hu⟩ := exists_formula?_of_permitted operand h
      exact ⟨_, by simp [formula?, hu]; rfl⟩
  | .binary op left right, h => by
      simp only [Permitted] at h
      obtain ⟨u, hu⟩ := exists_formula?_of_permitted left h.1
      obtain ⟨v, hv⟩ := exists_formula?_of_permitted right h.2
      exact ⟨_, by simp [formula?, hu, hv]; rfl⟩
  | .call function arguments, h => by
      simp only [Permitted] at h
      obtain ⟨op, hcalls, hlength, harguments⟩ := h
      obtain ⟨us, hus⟩ := exists_formulasOfAll?_of_permittedAll arguments harguments
      obtain ⟨u, hu⟩ := Formula.ofOperands?_of_arity ((length_formulasOfAll? hus).trans hlength)
        (arity_of_callee? hcalls.callee?_eq)
      exact ⟨u, by simp [formula?, hcalls.callee?_eq, hus, hu]⟩
  | .conditional .., h => by simp [Permitted] at h

/-- The same of several expressions. -/
theorem exists_formulasOfAll?_of_permittedAll {element : String} : (es : List Expr) →
    PermittedAll element es → ∃ us, formulasOfAll? element es = some us
  | [], _ => ⟨[], rfl⟩
  | e :: rest, h => by
      simp only [PermittedAll] at h
      obtain ⟨u, hu⟩ := exists_formula?_of_permitted e h.1
      obtain ⟨us, hus⟩ := exists_formulasOfAll?_of_permittedAll rest h.2
      exact ⟨u :: us, by simp [formulasOfAll?, hu, hus]⟩
end

mutual
/-- An expression that has a formula is permitted, if no point stands in its names. -/
theorem permitted_of_formula? {element : String} : (e : Expr) → {u : Formula} →
    e.formula? element = some u →
    (∀ word, .name word ∈ e.visits (fun _ => true) → '.' ∉ word.toList) → e.Permitted element
  | .number _, _, _, _ => by simp [Permitted]
  | .quoted _, _, h, _ => by cases h
  | .name word, u, h, _ => by
      simp only [Permitted]
      by_cases hword : word = element
      · exact .inl hword
      · have hfree : word ∉ reservedNames := by
          intro hreserved
          simp [formula?, hword, hreserved] at h
        exact .inr (by simpa [reservedNames] using hfree)
  | .member root field, u, h, _ => by
      simp only [Permitted]
      obtain ⟨l, hl, -⟩ := Option.map_eq_some_iff.mp h
      exact exists_literal?_member.mp ⟨l, hl⟩
  | .unary op operand, u, h, hpoint => by
      simp only [Permitted]
      obtain ⟨v, hv, -⟩ := Option.bind_eq_some_iff.mp h
      exact permitted_of_formula? operand hv fun word hword => hpoint word (by simp [visits, hword])
  | .binary op left right, u, h, hpoint => by
      simp only [Permitted]
      obtain ⟨v, hv, h⟩ := Option.bind_eq_some_iff.mp h
      obtain ⟨w, hw, -⟩ := Option.bind_eq_some_iff.mp h
      constructor
      · exact permitted_of_formula? left hv fun word hword => hpoint word (by simp [visits, hword])
      · exact permitted_of_formula? right hw fun word hword => hpoint word (by simp [visits, hword])
  | .call function arguments, u, h, hpoint => by
      simp only [Permitted]
      obtain ⟨op, hop, h⟩ := Option.bind_eq_some_iff.mp h
      obtain ⟨us, hus, h⟩ := Option.bind_eq_some_iff.mp h
      have hcalls : Calls function op := by
        refine calls_of_callee? hop ?_
        rintro word rfl
        exact hpoint word (by simp [visits])
      have hlength : arguments.length = op.info.arity := by
        rw [← length_formulasOfAll? hus, Formula.length_of_ofOperands? h]
      refine ⟨op, hcalls, hlength, ?_⟩
      exact permittedAll_of_formulasOfAll? arguments hus fun word hword =>
        hpoint word (by simp [visits, hword])
  | .conditional .., _, h, _ => by cases h

/-- The same of several expressions. -/
theorem permittedAll_of_formulasOfAll? {element : String} : (es : List Expr) →
    {us : List Formula} → formulasOfAll? element es = some us →
    (∀ word, .name word ∈ visitsOfAll (fun _ => true) es → '.' ∉ word.toList) →
    PermittedAll element es
  | [], _, _, _ => by simp [PermittedAll]
  | e :: rest, _, h, hpoint => by
      simp only [PermittedAll]
      obtain ⟨u, hu, h⟩ := Option.bind_eq_some_iff.mp h
      obtain ⟨us, hus, -⟩ := Option.bind_eq_some_iff.mp h
      constructor
      · exact permitted_of_formula? e hu fun word hword =>
          hpoint word (by simp [visitsOfAll, hword])
      · exact permittedAll_of_formulasOfAll? rest hus fun word hword =>
          hpoint word (by simp [visitsOfAll, hword])
end

/-! ## Analysis of expressions with a formula -/

/-- What the analysis finds in an expression: no forbidden construct, only calls of functions, and
the code of a formula. -/
structure Analyzed (element : String) (e : Expr) (u : Formula) : Prop where
  constructs : ∀ node ∈ e.visits isOpen, node.construct? = none
  calls : ∀ node ∈ e.visits fun _ => true, ∀ function arguments,
    node = .call function arguments → function.IsCallee
  actions : e.actions element = .ok u.code

/-- The same of several expressions. -/
structure AnalyzedAll (element : String) (es : List Expr) (us : List Formula) : Prop where
  constructs : ∀ node ∈ visitsOfAll isOpen es, node.construct? = none
  calls : ∀ node ∈ visitsOfAll (fun _ => true) es, ∀ function arguments,
    node = .call function arguments → function.IsCallee
  actions : actionsOfAll element es = .ok (Formula.codeOfAll us)

/-- The looks at a callee find nothing to refuse. -/
theorem visits_of_callee? {function : Expr} {op : Operation} (h : function.callee? = some op) :
    (∀ node ∈ function.visits isOpen, node.construct? = none) ∧
      ∀ node ∈ function.visits fun _ => true, ∀ f as, node = .call f as → f.IsCallee := by
  rcases function_of_callee? h with rfl | ⟨field, rfl, -⟩
  · simp [visits, construct?]
  · simp [visits, isOpen, construct?]

/-- A callee passes the count of arguments that its operation takes. -/
theorem callOperation_of_callee? {function : Expr} {op : Operation} (h : function.callee? = some op)
    {given : Nat} (hgiven : given = op.info.arity) :
    function.IsCallee ∧ callOperation function given = .ok op := by
  unfold callee? at h
  split at h
  · rename_i word hword
    split at h
    · rename_i hcallable
      refine ⟨⟨word, hword, hcallable⟩, ?_⟩
      simp [callOperation, hword, h, hgiven]
    · cases h
  · cases h

/-- The action of a name with a formula is the code of the formula. -/
theorem nameAction_of_formula? {element word : String} {u : Formula}
    (h : (name word).formula? element = some u) :
    ∃ action, nameAction element word = .ok action ∧ u.code = [action] := by
  rw [formula?] at h
  unfold nameAction
  split at h
  · rename_i hword
    cases h
    exact ⟨.element, if_pos hword, rfl⟩
  · rename_i hword
    split at h
    · cases h
    · rename_i hfree
      cases h
      exact ⟨.parameter word, by rw [if_neg hword, if_neg hfree], rfl⟩

/-- A member that is a literal is one of `math`, and its action pushes the literal. -/
theorem memberAction_of_literal? {root : Expr} {field : String} {l : Literal}
    (h : (member root field).literal? = some l) :
    root = .name "math" ∧ memberAction field = .ok (.constant l) := by
  obtain ⟨rfl, -⟩ := exists_literal?_member.mp ⟨l, h⟩
  obtain ⟨x, hx, rfl⟩ : ∃ x, mathConstant? field = some x ∧ .float x = l := by
    simpa [literal?] using h
  exact ⟨rfl, by rw [memberAction, hx]⟩

mutual
/-- An expression with a formula passes the analysis. -/
theorem analyzed_of_formula? {element : String} : (e : Expr) → {u : Formula} →
    e.formula? element = some u → e.Analyzed element u
  | .number _, _, h => by
      cases h
      exact ⟨by simp [visits, construct?], by simp [visits], rfl⟩
  | .quoted _, _, h => by cases h
  | .name word, u, h => by
      obtain ⟨action, haction, hcode⟩ := nameAction_of_formula? h
      exact ⟨by simp [visits, construct?], by simp [visits], by simp [actions, haction, hcode]⟩
  | .member root field, u, h => by
      obtain ⟨l, hl, rfl⟩ := Option.map_eq_some_iff.mp h
      obtain ⟨rfl, haction⟩ := memberAction_of_literal? hl
      exact ⟨by simp [visits, isOpen, construct?], by simp [visits],
        by simp [actions, haction, Formula.code]⟩
  | .unary op operand, u, h => by
      obtain ⟨v, hv, h⟩ := Option.bind_eq_some_iff.mp h
      cases h
      have hinner := analyzed_of_formula? operand hv
      constructor
      · rw [visits, show isOpen (.unary op operand) = true from rfl, if_pos rfl,
          List.forall_mem_cons]
        exact ⟨rfl, hinner.constructs⟩
      · rw [visits, if_pos rfl, List.forall_mem_cons]
        exact ⟨nofun, hinner.calls⟩
      · simp [actions, hinner.actions, Formula.code]
  | .binary op left right, u, h => by
      obtain ⟨v, hv, h⟩ := Option.bind_eq_some_iff.mp h
      obtain ⟨w, hw, h⟩ := Option.bind_eq_some_iff.mp h
      cases h
      have hleft := analyzed_of_formula? left hv
      have hright := analyzed_of_formula? right hw
      constructor
      · rw [visits, show isOpen (.binary op left right) = true from rfl, if_pos rfl,
          List.forall_mem_cons, List.forall_mem_append]
        exact ⟨rfl, hleft.constructs, hright.constructs⟩
      · rw [visits, if_pos rfl, List.forall_mem_cons, List.forall_mem_append]
        exact ⟨nofun, hleft.calls, hright.calls⟩
      · simp [actions, hleft.actions, hright.actions, Formula.code]
  | .call function arguments, u, h => by
      obtain ⟨op, hop, h⟩ := Option.bind_eq_some_iff.mp h
      obtain ⟨us, hus, h⟩ := Option.bind_eq_some_iff.mp h
      have hoperands := analyzedAll_of_formulasOfAll? arguments hus
      have hlength := (length_formulasOfAll? hus).symm.trans (Formula.length_of_ofOperands? h)
      obtain ⟨hconstructs, hcalls⟩ := visits_of_callee? hop
      obtain ⟨hcallee, hoperation⟩ := callOperation_of_callee? hop hlength
      constructor
      · rw [visits, show isOpen (.call function arguments) = true from rfl, if_pos rfl,
          List.forall_mem_cons, List.forall_mem_append]
        exact ⟨rfl, hconstructs, hoperands.constructs⟩
      · rw [visits, if_pos rfl, List.forall_mem_cons, List.forall_mem_append]
        refine ⟨?_, hcalls, hoperands.calls⟩
        rintro f as ⟨⟩
        exact hcallee
      · simp [actions, hoperation, hoperands.actions, Formula.code_of_ofOperands? h]
  | .conditional .., _, h => by cases h

/-- The same of several expressions. -/
theorem analyzedAll_of_formulasOfAll? {element : String} : (es : List Expr) → {us : List Formula} →
    formulasOfAll? element es = some us → AnalyzedAll element es us
  | [], _, h => by
      cases h
      exact ⟨by simp [visitsOfAll], by simp [visitsOfAll], rfl⟩
  | e :: rest, _, h => by
      obtain ⟨u, hu, h⟩ := Option.bind_eq_some_iff.mp h
      obtain ⟨us, hus, h⟩ := Option.bind_eq_some_iff.mp h
      cases h
      have hfirst := analyzed_of_formula? e hu
      have hothers := analyzedAll_of_formulasOfAll? rest hus
      constructor
      · rw [visitsOfAll, List.forall_mem_append]
        exact ⟨hfirst.constructs, hothers.constructs⟩
      · rw [visitsOfAll, List.forall_mem_append]
        exact ⟨hfirst.calls, hothers.calls⟩
      · simp [actionsOfAll, hfirst.actions, hothers.actions, Formula.codeOfAll]
end

/-! ## Refusals -/

mutual
/-- What flattening refuses is not permitted. -/
theorem kind_of_actions {element : String} {error : Error} : (e : Expr) →
    e.actions element = .error error → error.kind = .validation
  | .number _, h => by cases h
  | .quoted _, h => by
      cases h
      rfl
  | .name word, h => by
      rcases bind_eq_error_iff.mp h with h | ⟨action, -, h⟩
      · unfold nameAction at h
        split_ifs at h
        cases h
        rfl
      · cases h
  | .member root field, h => by
      rcases bind_eq_error_iff.mp h with h | ⟨action, -, h⟩
      · unfold memberAction at h
        split at h
        · cases h
        · cases h
          rfl
      · cases h
  | .unary op operand, h => by
      rcases bind_eq_error_iff.mp h with h | ⟨inner, -, h⟩
      · exact kind_of_actions operand h
      · cases h
  | .binary op left right, h => by
      rcases bind_eq_error_iff.mp h with h | ⟨first, -, h⟩
      · exact kind_of_actions left h
      · rcases bind_eq_error_iff.mp h with h | ⟨second, -, h⟩
        · exact kind_of_actions right h
        · cases h
  | .call function arguments, h => by
      rcases bind_eq_error_iff.mp h with h | ⟨op, -, h⟩
      · unfold callOperation at h
        dsimp only at h
        split at h
        · split_ifs at h
          cases h
          rfl
        · cases h
          rfl
      · rcases bind_eq_error_iff.mp h with h | ⟨inner, -, h⟩
        · exact kind_of_actionsOfAll arguments h
        · cases h
  | .conditional .., h => by
      cases h
      rfl

/-- The same of several expressions. -/
theorem kind_of_actionsOfAll {element : String} {error : Error} : (es : List Expr) →
    actionsOfAll element es = .error error → error.kind = .validation
  | [], h => by cases h
  | e :: rest, h => by
      rcases bind_eq_error_iff.mp h with h | ⟨first, -, h⟩
      · exact kind_of_actions e h
      · rcases bind_eq_error_iff.mp h with h | ⟨others, -, h⟩
        · exact kind_of_actionsOfAll rest h
        · cases h
end

end Expr

namespace Equation

/-- An equation is analyzed exactly if it has a formula, and its code is that of the formula. -/
theorem analyze_eq_ok_iff {equation : Equation} {element : String} {code : List Action} :
    equation.analyze element = .ok code ↔
      ∃ u, equation.body.formula? element = some u ∧ u.code = code := by
  refine ⟨formula_of_analyze, ?_⟩
  rintro ⟨u, hu, rfl⟩
  obtain ⟨hconstructs, hcalls, hactions⟩ := equation.body.analyzed_of_formula? hu
  have hcallees : ∀ function ∈ equation.body.callees, function.IsCallee := by
    intro function hmem
    obtain ⟨arguments, hcall⟩ := Expr.mem_callees.mp hmem
    exact hcalls _ hcall function arguments rfl
  rw [analyze, Expr.checkConstructs_eq_ok_iff.mpr hconstructs, ok_bind,
    Expr.checkCalls_eq_ok_iff.mpr hcallees, ok_bind, hactions]

/-- What the analysis refuses is not permitted. -/
theorem kind_of_analyze {equation : Equation} {element : String} {error : Error}
    (h : equation.analyze element = .error error) : error.kind = .validation := by
  rcases bind_eq_error_iff.mp h with h | ⟨_, -, h⟩
  · unfold Expr.checkConstructs at h
    split at h
    · cases h
      rfl
    · cases h
  · rcases bind_eq_error_iff.mp h with h | ⟨_, -, h⟩
    · unfold Expr.checkCalls at h
      split at h
      · cases h
        rfl
      · dsimp only at h
        split_ifs at h
        cases h
        rfl
    · exact equation.body.kind_of_actions h

/-- **The analysis is exact.** The equation of a text passes the analysis exactly if its expression
is permitted; one that does not is refused as not permitted. -/
theorem analyze_exact {text : String} {equation : Equation} (h : parse text = .ok equation)
    (element : String) :
    ((∃ code, equation.analyze element = .ok code) ↔ equation.body.Permitted element) ∧
      ∀ error, equation.analyze element = .error error → error.kind = .validation := by
  refine ⟨⟨?_, ?_⟩, fun error => kind_of_analyze⟩
  · rintro ⟨code, hcode⟩
    obtain ⟨u, hu, -⟩ := analyze_eq_ok_iff.mp hcode
    refine equation.body.permitted_of_formula? hu fun word hword => ?_
    exact point_not_mem_of_isIdentifier (isIdentifier_of_parse h hword).1
  · intro hpermitted
    obtain ⟨u, hu⟩ := equation.body.exists_formula?_of_permitted hpermitted
    exact ⟨u.code, analyze_eq_ok_iff.mpr ⟨u, hu, rfl⟩⟩

/-- A call on a sign and a constant of `math` is permitted; a function in the place
of a value is not, however deep it stands. -/
theorem analyze_exact_nested :
    (∃ equation, parse "math.atan2(-k, math.pi) + abs(x)" = .ok equation ∧
      equation.body.Permitted "x" ∧ ∃ code, equation.analyze "x" = .ok code) ∧
    ∃ equation, parse "abs(x - math.sin)" = .ok equation ∧ ¬equation.body.Permitted "x" ∧
      ∃ error, equation.analyze "x" = .error error ∧ error.kind = .validation := by
  have hfirst : parse "math.atan2(-k, math.pi) + abs(x)" = .ok ⟨.binary .add
      (.call (.member (.name "math") "atan2")
        [.unary .minus (.name "k"), .member (.name "math") "pi"])
      (.call (.name "abs") [.name "x"])⟩ := rfl
  have hsecond : parse "abs(x - math.sin)" = .ok ⟨.call (.name "abs")
      [.binary .sub (.name "x") (.member (.name "math") "sin")]⟩ := rfl
  constructor
  · have hpermitted : Expr.Permitted "x" (.binary .add
        (.call (.member (.name "math") "atan2")
          [.unary .minus (.name "k"), .member (.name "math") "pi"])
        (.call (.name "abs") [.name "x"])) := by
      simp only [Expr.Permitted, Expr.PermittedAll]
      exact ⟨⟨.atan2, .math rfl rfl, rfl, by decide, by simp, trivial⟩,
        ⟨.abs, .abs, rfl, .inl trivial, trivial⟩⟩
    exact ⟨_, hfirst, hpermitted, (analyze_exact hfirst "x").1.mpr hpermitted⟩
  · have hrefused : ¬Expr.Permitted "x"
        (.call (.name "abs") [.binary .sub (.name "x") (.member (.name "math") "sin")]) := by
      simp [Expr.Permitted, Expr.PermittedAll]
    obtain ⟨hok, hkind⟩ := analyze_exact hsecond "x"
    refine ⟨_, hsecond, hrefused, ?_⟩
    rcases hresult : analyze _ "x" with error | code
    · exact ⟨error, rfl, hkind error hresult⟩
    · exact absurd (hok.mp ⟨code, hresult⟩) hrefused

end Equation

end Elementwise
