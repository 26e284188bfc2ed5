import Elementwise.Proofs.StackLimit

/-!
# Depths are read off trees

Code computes the last operand first, so on a stack the first operand of two is computed on top of
one value more. `Expr.need` counts this on the tree, without its code. The depth of a program is two
more (`Program.depth_eq_need`), and folding signs does not change it, since a formula needs what its
tree needs (`Expr.need_of_formula?`) before and after.
-/

namespace Elementwise

namespace Expr

/-- The number of values that are on the stack at a time while a permitted tree is computed. -/
def need : Expr → Nat
  | .number _ | .name _ | .member .. => 1
  | .unary _ operand => operand.need
  | .binary _ left right => max right.need (1 + left.need)
  | .call _ [operand] => operand.need
  | .call _ [first, second] => max second.need (1 + first.need)
  | .quoted _ | .call .. | .conditional .. => 0
termination_by structural e => e

/-- A formula needs what its tree needs. -/
theorem need_of_formula? {element : String} : (e : Expr) → {u : Formula} →
    e.formula? element = some u → u.need = e.need
  | .number _, _, h => by
      cases h
      rfl
  | .quoted _, _, h => by cases h
  | .name _, _, h => by
      rcases formula?_name_cases h with ⟨-, rfl⟩ | ⟨-, rfl⟩
      · rfl
      · rfl
  | .member value field, _, h => by
      obtain ⟨l, -, rfl⟩ := Option.map_eq_some_iff.mp h
      rfl
  | .unary op operand, _, h => by
      obtain ⟨v, hv, h⟩ := Option.bind_eq_some_iff.mp h
      cases h
      rw [Formula.need, need, need_of_formula? operand hv]
  | .binary op left right, _, h => by
      obtain ⟨v, hv, h⟩ := Option.bind_eq_some_iff.mp h
      obtain ⟨w, hw, h⟩ := Option.bind_eq_some_iff.mp h
      cases h
      rw [Formula.need, need, need_of_formula? left hv, need_of_formula? right hw]
  | .call function [operand], _, h => by
      obtain ⟨op, -, h⟩ := Option.bind_eq_some_iff.mp h
      obtain ⟨us, hus, h⟩ := Option.bind_eq_some_iff.mp h
      obtain ⟨v, hv, rfl⟩ : ∃ v, operand.formula? element = some v ∧ [v] = us := by
        simpa [formulasOfAll?, Option.bind_eq_some_iff] using hus
      obtain ⟨arity, hu⟩ := Option.dite_none_right_eq_some.mp h
      rw [← Option.some.inj hu, Formula.need, need, need_of_formula? operand hv]
  | .call function [first, second], _, h => by
      obtain ⟨op, -, h⟩ := Option.bind_eq_some_iff.mp h
      obtain ⟨us, hus, h⟩ := Option.bind_eq_some_iff.mp h
      obtain ⟨v, hv, w, hw, rfl⟩ : ∃ v, first.formula? element = some v ∧
          ∃ w, second.formula? element = some w ∧ [v, w] = us := by
        simpa [formulasOfAll?, Option.bind_eq_some_iff] using hus
      obtain ⟨arity, hu⟩ := Option.dite_none_right_eq_some.mp h
      rw [← Option.some.inj hu, Formula.need, need, need_of_formula? first hv,
        need_of_formula? second hw]
  | .call function [], _, h => by
      obtain ⟨op, -, h⟩ := Option.bind_eq_some_iff.mp h
      cases h
  | .call function (_ :: _ :: _ :: _), _, h => by
      -- no operation takes three operands
      obtain ⟨op, -, h⟩ := Option.bind_eq_some_iff.mp h
      obtain ⟨us, hus, h⟩ := Option.bind_eq_some_iff.mp h
      have hlength := length_formulasOfAll? hus
      rcases Formula.ofOperands?_cases h with ⟨_, _, rfl, -⟩ | ⟨_, _, _, rfl, -⟩
      · simp at hlength
      · simp at hlength
  | .conditional .., _, h => by cases h

end Expr

namespace Program

variable {T : ElementType} {settings : Settings} {element : String} {parameters : List String}
  {depth limit : Nat}

/-- The code of a formula is refused for its depth exactly if it passes the checks before and needs
too much. -/
theorem assemble_eq_stackOverflow_iff {u : Formula} :
    assemble T settings element parameters u.code = .error (.stackOverflow depth limit) ↔
      (∃ constants, Action.constantValues T u.code = .ok constants) ∧
        Action.checkOperations T.family settings.capabilities u.code = .ok () ∧
        settings.stackLimit < u.need + 2 ∧ depth = u.need + 2 ∧ limit = settings.stackLimit := by
  have hpeak := Depth.peak_of_run u.run_deltas_code_alone
  rw [Action.assemble_eq_error_iff u.run_deltas_code_alone, Action.checkOperations_eq_ok_iff]
  constructor
  · intro h
    cases h with
    | deep hconverts hlegal havailable hdepth hdeep =>
        exact ⟨⟨_, Action.constantValues_eq_ok_iff.mpr ⟨hconverts, rfl⟩⟩, ⟨hlegal, havailable⟩,
          by omega, by omega, rfl⟩
  · rintro ⟨⟨constants, hconstants⟩, ⟨hlegal, havailable⟩, hdeep, rfl, rfl⟩
    exact .deep (Action.constantValues_eq_ok_iff.mp hconstants).1 hlegal havailable (by omega) hdeep

/-- What is refused for its depth has passed the checks of names, the parser and the analysis. -/
theorem analyzed_of_stackOverflow {text : String}
    (h : compile T settings text element parameters = .error (.stackOverflow depth limit)) :
    ∃ t raw, checkNames (element :: parameters) = .ok () ∧ Equation.parse text = .ok ⟨t⟩ ∧
      Equation.analyze ⟨t⟩ element = .ok raw := by
  rcases bind_eq_error_iff.mp h with h | ⟨_, hnames, h⟩
  · cases kind_of_checkNames h
  · rcases bind_eq_error_iff.mp h with h | ⟨⟨t⟩, hparse, h⟩
    · cases Equation.kind_of_parse h
    · rcases bind_eq_error_iff.mp h with h | ⟨raw, hraw, -⟩
      · cases Equation.kind_of_analyze h
      · exact ⟨t, raw, hnames, hparse, hraw⟩

/-- **Depth of a tree.** The depth of a program is two more than its tree needs. An equation is
refused for its depth, with that depth and the limit, exactly if everything that is checked before
passes and the depth exceeds the limit. -/
theorem depth_eq_need (T : ElementType) (settings : Settings) (text element : String)
    (parameters : List String) :
    (∀ p, compile T settings text element parameters = .ok p →
      ∃ t, Equation.parse text = .ok ⟨t⟩ ∧ p.depth = t.need + 2) ∧
    ∀ depth limit,
      compile T settings text element parameters = .error (.stackOverflow depth limit) ↔
        ∃ t raw constants, checkNames (element :: parameters) = .ok () ∧
          Equation.parse text = .ok ⟨t⟩ ∧ Equation.analyze ⟨t⟩ element = .ok raw ∧
          Action.constantValues T (Action.foldSigns raw) = .ok constants ∧
          Action.checkOperations T.family settings.capabilities (Action.foldSigns raw) = .ok () ∧
          settings.stackLimit < t.need + 2 ∧ depth = t.need + 2 ∧ limit = settings.stackLimit := by
  constructor
  · intro p hp
    obtain ⟨t, u, hcompiled⟩ := exists_compiled hp
    exact ⟨t, hcompiled.parsed, by rw [hcompiled.depth, t.need_of_formula? hcompiled.formula]⟩
  · intro depth limit
    -- once the equation is analyzed, its folded code is that of a formula with the need of the tree
    have hanalyzed : ∀ {t : Expr} {raw : List Action}, checkNames (element :: parameters) = .ok () →
        Equation.parse text = .ok ⟨t⟩ → Equation.analyze ⟨t⟩ element = .ok raw →
        (compile T settings text element parameters = .error (.stackOverflow depth limit) ↔
          (∃ constants, Action.constantValues T (Action.foldSigns raw) = .ok constants) ∧
            Action.checkOperations T.family settings.capabilities (Action.foldSigns raw) = .ok () ∧
            settings.stackLimit < t.need + 2 ∧ depth = t.need + 2 ∧
            limit = settings.stackLimit) := by
      intro t raw hnames hparse hraw
      obtain ⟨u, hformula, -, hfolded, -⟩ := Equation.folded_of_analyze hparse hraw
      have hneed : u.fold.need = t.need := u.need_fold.trans (t.need_of_formula? hformula)
      rw [compile_eq_assemble hnames hparse hraw, hfolded, assemble_eq_stackOverflow_iff, hneed]
    constructor
    · intro h
      obtain ⟨t, raw, hnames, hparse, hraw⟩ := analyzed_of_stackOverflow h
      obtain ⟨⟨constants, hconstants⟩, hdeep⟩ := (hanalyzed hnames hparse hraw).mp h
      exact ⟨t, raw, constants, hnames, hparse, hraw, hconstants, hdeep⟩
    · rintro ⟨t, raw, constants, hnames, hparse, hraw, hconstants, hdeep⟩
      exact (hanalyzed hnames hparse hraw).mpr ⟨⟨constants, hconstants⟩, hdeep⟩

/-- Four operands that are grouped to the right fit a stack of four slots. Grouped to the left they
need six, which a limit of five refuses. -/
theorem depth_eq_need_grouped :
    (∃ p t, compile (.int ⟨true, .w8⟩) ⟨.full, 4⟩ "k - (2 - abs(1 - x))" "x" ["k"] = .ok p ∧
      Equation.parse "k - (2 - abs(1 - x))" = .ok ⟨t⟩ ∧ t.need = 2 ∧ p.depth = t.need + 2) ∧
    ∃ t, Equation.parse "1 - x - 2 - k" = .ok ⟨t⟩ ∧ t.need = 4 ∧
      compile (.int ⟨true, .w8⟩) ⟨.full, 5⟩ "1 - x - 2 - k" "x" ["k"] =
        .error (.stackOverflow (t.need + 2) 5) := by
  constructor
  · have hcompile : compile (.int ⟨true, .w8⟩) ⟨.full, 4⟩ "k - (2 - abs(1 - x))" "x" ["k"] =
        .ok ⟨⟨[0, 2, 8, 27, 2, 8, 1, 8], [0, 0, 0, 0, 0, 0, 0, 0],
          [0#8, 1#8, 0#8, 0#8, 2#8, 0#8, 0#8, 0#8]⟩, 4, ["k"]⟩ := rfl
    obtain ⟨t, ht, hdepth⟩ := (depth_eq_need _ _ _ _ _).1 _ hcompile
    have hneed : t.need = 2 := Nat.add_right_cancel hdepth.symm
    exact ⟨_, t, hcompile, ht, hneed, hdepth⟩
  · have hparse : Equation.parse "1 - x - 2 - k" = .ok ⟨.binary .sub (.binary .sub
        (.binary .sub (.number (.int 1)) (.name "x")) (.number (.int 2))) (.name "k")⟩ := rfl
    have hraw : Equation.analyze ⟨.binary .sub (.binary .sub
        (.binary .sub (.number (.int 1)) (.name "x")) (.number (.int 2))) (.name "k")⟩ "x" =
        .ok [.parameter "k", .constant (.int 2), .element, .constant (.int 1), .apply .sub,
          .apply .sub, .apply .sub] := rfl
    refine ⟨_, hparse, rfl, ((depth_eq_need _ _ _ _ _).2 _ _).mpr
      ⟨_, _, [0#8, 2#8, 0#8, 1#8, 0#8, 0#8, 0#8], rfl, hparse, hraw, rfl, rfl, ?_, rfl, rfl⟩⟩
    show 5 < 6
    decide

end Program

end Elementwise
