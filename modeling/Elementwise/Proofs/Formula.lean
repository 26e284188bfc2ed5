import Elementwise.Program.Compile
import Elementwise.Proofs.Depth

/-!
# Formulas

A formula is what a permitted expression says: names are resolved, and every operator and every
function is an operation applied to as many formulas as it takes. Its code is the straight-line code
of the expression (`Formula.code`).

* Folding the signs of constants in the code of a formula gives the code of the formula in which the
  signs of constants are folded (`Formula.foldSigns_code`).
* The code of a formula takes the stack from any height to one more, and as high above it as the
  formula needs (`Formula.run_deltas_code`).
-/

namespace Elementwise

/-- A permitted expression with its names resolved. -/
inductive Formula where
  | element
  | parameter (name : String)
  | constant (value : Literal)
  | unary (op : Operation) (arity : op.info.arity = 1) (operand : Formula)
  | binary (op : Operation) (arity : op.info.arity = 2) (left right : Formula)

namespace Formula

/-- The actions of a formula; the right operand comes first. -/
def code : Formula → List Action
  | .element => [.element]
  | .parameter name => [.parameter name]
  | .constant value => [.constant value]
  | .unary op _ operand => operand.code ++ [.apply op]
  | .binary op _ left right => right.code ++ left.code ++ [.apply op]

/-- The code of a formula starts with a push. -/
theorem code_head (u : Formula) (more : List Action) :
    ∃ action rest, u.code ++ more = action :: rest ∧ action.isSign = false := by
  induction u generalizing more with
  | element => exact ⟨.element, more, rfl, rfl⟩
  | parameter name => exact ⟨.parameter name, more, rfl, rfl⟩
  | constant value => exact ⟨.constant value, more, rfl, rfl⟩
  | unary op _ operand ih =>
      rw [code, List.append_assoc]
      exact ih _
  | binary op _ left right _ ih =>
      rw [code, List.append_assoc, List.append_assoc]
      exact ih _

/-- What code applies takes one value or two. -/
theorem arity_of_mem_code {u : Formula} {op : Operation} (h : Action.apply op ∈ u.code) :
    op.info.arity = 1 ∨ op.info.arity = 2 := by
  induction u with
  | element | parameter _ | constant _ => simp [code] at h
  | unary op' arity operand ih =>
      rw [code, List.mem_append, List.mem_singleton] at h
      rcases h with h | h
      · exact ih h
      · cases h
        exact .inl arity
  | binary op' arity left right ihleft ihright =>
      rw [code, List.mem_append, List.mem_append, List.mem_singleton] at h
      rcases h with (h | h) | h
      · exact ihright h
      · exact ihleft h
      · cases h
        exact .inr arity

/-! ## Signs of constants -/

/-- The formula of a sign, or of another operation, on an operand whose signs are folded. -/
def foldUnary (op : Operation) (arity : op.info.arity = 1) : Formula → Formula
  | .constant value =>
    if op = .plus then .constant value
    else if op = .negate then .constant value.negate
    else .unary op arity (.constant value)
  | operand => .unary op arity operand

/-- The formula in which every chain of signs on a constant is replaced by the constant, negated
once for each minus. -/
def fold : Formula → Formula
  | .unary op arity operand => foldUnary op arity operand.fold
  | .binary op arity left right => .binary op arity left.fold right.fold
  | u => u

/-- An operation folds if it is a sign on a constant, and stays otherwise. -/
theorem foldUnary_cases (op : Operation) (arity : op.info.arity = 1) (operand : Formula) :
    (∃ value, operand = .constant value ∧
        (op = .plus ∧ foldUnary op arity operand = .constant value ∨
          op = .negate ∧ foldUnary op arity operand = .constant value.negate)) ∨
      (∀ value, operand = .constant value → op ≠ .plus ∧ op ≠ .negate) ∧
        foldUnary op arity operand = .unary op arity operand := by
  cases operand with
  | constant value =>
      rw [foldUnary]
      by_cases hplus : op = .plus
      · exact .inl ⟨value, rfl, .inl ⟨hplus, if_pos hplus⟩⟩
      · by_cases hnegate : op = .negate
        · refine .inl ⟨value, rfl, .inr ⟨hnegate, ?_⟩⟩
          rw [if_neg hplus, if_pos hnegate]
        · refine .inr ⟨fun _ _ => ⟨hplus, hnegate⟩, ?_⟩
          rw [if_neg hplus, if_neg hnegate]
  | element | parameter _ | unary _ _ _ | binary _ _ _ _ => exact .inr ⟨nofun, rfl⟩

/-- An operation stays on anything but a literal, and one that is no sign stays on literals too. -/
theorem foldUnary_eq_unary {op : Operation} {operand : Formula}
    (h : ∀ value, operand = .constant value → op ≠ .plus ∧ op ≠ .negate)
    (arity : op.info.arity = 1) : foldUnary op arity operand = .unary op arity operand := by
  rcases foldUnary_cases op arity operand with ⟨value, hvalue, ⟨hop, -⟩ | ⟨hop, -⟩⟩ | ⟨-, hkept⟩
  · exact absurd hop (h value hvalue).1
  · exact absurd hop (h value hvalue).2
  · exact hkept

/-- The code of a formula whose signs are folded, put before code whose signs are folded: a constant
takes up the signs that follow it. -/
def placed : Formula → List Action → List Action
  | .constant value, more => Action.foldStep (.constant value) more
  | u, more => u.code ++ more

/-- Nothing is taken up if no sign follows a constant. -/
theorem placed_of_head {u : Formula} {action : Action} {rest : List Action}
    (h : ∀ value, u = .constant value → action.isSign = false) :
    u.placed (action :: rest) = u.code ++ action :: rest := by
  cases u with
  | constant value => simp [placed, Action.foldStep, Action.signed, code, h value rfl]
  | element | parameter _ | unary _ _ _ | binary _ _ _ _ => rfl

/-- Nothing is taken up at the end. -/
theorem placed_nil (u : Formula) : u.placed [] = u.code := by
  cases u with
  | constant value => rfl
  | element | parameter _ | unary _ _ _ | binary _ _ _ _ => exact List.append_nil _

/-- Plus and minus are the only signs. -/
theorem isSign_apply {op : Operation} (hplus : op ≠ .plus) (hnegate : op ≠ .negate) :
    (Action.apply op).isSign = false := by
  unfold Action.isSign
  split
  · rename_i h
    cases h
    exact absurd rfl hnegate
  · rename_i h
    cases h
    exact absurd rfl hplus
  · rfl

/-- A minus more negates the literal first, if it is its own double negative. -/
theorem signed_cons_negate {value : Literal} (h : value.negate.negate = value)
    (signs : List Action) :
    Action.signed value (.apply .negate :: signs) = Action.signed value.negate signs := by
  unfold Action.signed
  rw [List.count_cons_self]
  by_cases hodd : signs.count (Action.apply .negate) % 2 = 1
  · rw [if_pos hodd, if_neg (by omega), h]
  · rw [if_neg hodd, if_pos (by omega)]

/-- A plus more changes nothing. -/
theorem signed_cons_plus (value : Literal) (signs : List Action) :
    Action.signed value (.apply .plus :: signs) = Action.signed value signs := by
  unfold Action.signed
  rw [List.count_cons_of_ne (by decide)]

/-- A constant takes up the sign after it. -/
theorem foldStep_of_sign {sign : Action} (h : sign.isSign = true) (value : Literal)
    (more : List Action) :
    Action.foldStep (.constant value) (sign :: more) =
      .constant (Action.signed value (sign :: more.takeWhile Action.isSign)) ::
        more.dropWhile Action.isSign := by
  simp [Action.foldStep, h]

/-- An operation after an operand whose signs are folded is the folded operation. -/
theorem placed_foldUnary {op : Operation} (arity : op.info.arity = 1) {operand : Formula}
    (h : ∀ value, operand = .constant value → value.negate.negate = value) (more : List Action) :
    (foldUnary op arity operand).placed more = operand.placed (.apply op :: more) := by
  rcases foldUnary_cases op arity operand with
    ⟨value, rfl, ⟨rfl, hfold⟩ | ⟨rfl, hfold⟩⟩ | ⟨hkept, hfold⟩
  · rw [hfold, placed, placed, foldStep_of_sign rfl, signed_cons_plus]
    rfl
  · rw [hfold, placed, placed, foldStep_of_sign rfl, signed_cons_negate (h value rfl)]
    rfl
  · have hsign : ∀ value, operand = .constant value → (Action.apply op).isSign = false :=
      fun value hvalue => isSign_apply (hkept value hvalue).1 (hkept value hvalue).2
    rw [hfold, placed_of_head hsign, placed, code, List.append_assoc]
    · rfl
    · exact nofun

/-- A constant that signs are folded into is its own double negative if the constants are. -/
theorem reversible_of_fold {u : Formula}
    (h : ∀ value, Action.constant value ∈ u.code → value.negate.negate = value) {value : Literal}
    (hvalue : u.fold = .constant value) : value.negate.negate = value := by
  induction u generalizing value with
  | element | parameter _ | binary _ _ _ _ _ _ => cases hvalue
  | constant value' =>
      cases hvalue
      exact h value' (by simp [code])
  | unary op arity operand ih =>
      have hoperand : ∀ l, operand.fold = .constant l → l.negate.negate = l :=
        fun l => ih fun v hv => h v (by simp [code, hv])
      rw [fold] at hvalue
      rcases foldUnary_cases op arity operand.fold with
        ⟨l, hl, ⟨-, hfold⟩ | ⟨-, hfold⟩⟩ | ⟨-, hfold⟩
      · cases hfold.symm.trans hvalue
        exact hoperand _ hl
      · cases hfold.symm.trans hvalue
        rw [hoperand _ hl]
      · cases hfold.symm.trans hvalue

/-- Signs are folded in code that is followed by other code. -/
theorem foldSigns_code_append {u : Formula}
    (h : ∀ value, Action.constant value ∈ u.code → value.negate.negate = value)
    (more : List Action) :
    Action.foldSigns (u.code ++ more) = u.fold.placed (Action.foldSigns more) := by
  induction u generalizing more with
  | element | parameter _ | constant _ => rfl
  | unary op arity operand ih =>
      have hoperand : ∀ v, Action.constant v ∈ operand.code → v.negate.negate = v :=
        fun v hv => h v (by simp [code, hv])
      rw [code, List.append_assoc, ih hoperand, fold,
        placed_foldUnary arity fun value => reversible_of_fold hoperand]
      rfl
  | binary op arity left right ihleft ihright =>
      have hsign : (Action.apply op).isSign = false := by
        refine isSign_apply ?_ ?_ <;> rintro rfl <;> cases arity
      have hafter : Action.foldSigns (left.code ++ ([.apply op] ++ more)) =
          left.fold.code ++ .apply op :: Action.foldSigns more := by
        rw [ihleft fun v hv => h v (by simp [code, hv])]
        exact placed_of_head fun _ _ => hsign
      obtain ⟨action, rest, hhead, haction⟩ :=
        left.fold.code_head (.apply op :: Action.foldSigns more)
      rw [code, List.append_assoc, List.append_assoc,
        ihright fun v hv => h v (by simp [code, hv]), hafter, hhead,
        placed_of_head fun _ _ => haction, ← hhead, fold, placed, code, List.append_assoc,
        List.append_assoc]
      · rfl
      · exact nofun

/-- **Signs of constants.** Folding signs in the code of a formula is folding them in the formula.
-/
theorem foldSigns_code {u : Formula}
    (h : ∀ value, Action.constant value ∈ u.code → value.negate.negate = value) :
    Action.foldSigns u.code = u.fold.code := by
  have hnil := foldSigns_code_append h []
  rw [List.append_nil] at hnil
  rw [hnil]
  exact placed_nil _

/-! ## Stack heights -/

/-- The greatest height that the code of a formula adds to a stack. -/
def need : Formula → Nat
  | .element | .parameter _ | .constant _ => 1
  | .unary _ _ operand => operand.need
  | .binary _ _ left right => max right.need (1 + left.need)

/-- A folded sign leaves the height. -/
theorem need_foldUnary (op : Operation) (arity : op.info.arity = 1) (operand : Formula) :
    (foldUnary op arity operand).need = operand.need := by
  rcases foldUnary_cases op arity operand with
    ⟨value, rfl, ⟨-, hfold⟩ | ⟨-, hfold⟩⟩ | ⟨-, hfold⟩ <;> rw [hfold] <;> rfl

/-- Folding signs leaves the height. -/
theorem need_fold (u : Formula) : u.fold.need = u.need := by
  induction u with
  | element | parameter _ | constant _ => rfl
  | unary op arity operand ih => rw [fold, need_foldUnary, ih, need]
  | binary op arity left right ihleft ihright => rw [fold, need, need, ihleft, ihright]

/-- Code of a formula adds to the height. -/
theorem need_pos (u : Formula) : 0 < u.need := by
  induction u with
  | element | parameter _ | constant _ => exact Nat.one_pos
  | unary op arity operand ih => exact ih
  | binary op arity left right _ ih =>
      rw [need]
      omega

/-- The changes of two codes, one after the other. -/
theorem deltas_append (first second : List Action) :
    Action.deltas (first ++ second) = Action.deltas first ++ Action.deltas second :=
  List.map_append

/-- **Heights of code.** From any height, code leads one up, and as high as the formula needs. -/
theorem run_deltas_code (u : Formula) {position : Nat} {height peak : Int} (hheight : 0 ≤ height)
    (more : List Int) :
    Depth.run position height peak (Action.deltas u.code ++ more) =
      Depth.run (position + u.code.length) (height + 1) (max peak (height + u.need)) more := by
  induction u generalizing position height peak more with
  | element | parameter _ | constant _ => exact if_neg (show ¬height + 1 ≤ 0 by omega)
  | unary op arity operand ih =>
      have hdelta : Action.deltas [.apply op] = [0] := by
        simp [Action.deltas, Action.operation, OperationInfo.stackDelta, arity]
      have hpos := operand.need_pos
      rw [code, deltas_append, List.append_assoc, ih hheight, hdelta, List.singleton_append,
        Depth.run, if_neg (by omega), List.length_append, List.length_singleton, Nat.add_assoc,
        need]
      congr 1
      · omega
      · omega
  | binary op arity left right ihleft ihright =>
      have hdelta : Action.deltas [.apply op] = [-1] := by
        simp [Action.deltas, Action.operation, OperationInfo.stackDelta, arity]
      have hpos := left.need_pos
      rw [code, deltas_append, deltas_append, List.append_assoc, List.append_assoc,
        ihright hheight, ihleft (by omega), hdelta, List.singleton_append, Depth.run,
        if_neg (by omega), List.length_append, List.length_append, List.length_singleton,
        ← Nat.add_assoc, ← Nat.add_assoc, need]
      congr 1
      · omega
      · omega

/-- On its own, the code of a formula leaves one value, and is as high as the formula needs. -/
theorem run_deltas_code_alone (u : Formula) :
    Depth.run 0 0 0 (Action.deltas u.code) = .ok (1, (u.need : Int)) := by
  have hrun : Depth.run 0 0 0 (Action.deltas u.code ++ []) = _ :=
    u.run_deltas_code (Int.le_refl 0) []
  rw [List.append_nil, Depth.run, Int.zero_add, Int.zero_add,
    Int.max_eq_right (Int.natCast_nonneg _)] at hrun
  exact hrun

/-- The code of a formula is balanced; its depth is two more than what it needs. -/
theorem required_deltas_code {u : Formula} {limit : Nat} (h : u.need + 2 ≤ limit) :
    Depth.required limit (Action.deltas u.code) = .ok (u.need + 2) :=
  Depth.required_of_run u.run_deltas_code_alone h

/-- Where the code of a formula passes the depth analysis, its depth is two more than what the
formula needs. -/
theorem depth_of_required {u : Formula} {limit depth : Nat}
    (h : Depth.required limit (Action.deltas u.code) = .ok depth) : depth = u.need + 2 := by
  obtain ⟨top, hrun, rfl, -⟩ := Depth.run_of_required h
  rw [u.run_deltas_code_alone, Except.ok.injEq, Prod.mk.injEq] at hrun
  omega

end Formula

end Elementwise
