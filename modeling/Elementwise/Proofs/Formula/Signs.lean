import Elementwise.Proofs.Formula.Permitted
import Elementwise.Proofs.Integer.Exact

/-!
# Signs of literals

Signs are folded in flat code by what stands next to what: a constant takes up the signs that
directly follow it. That this is right for trees is shown in two ways.

* The code of a tree, folded, is the code of the folded tree (`Expr.formula?_foldSigns`), in which a
  chain of signs on a literal has become one literal and everything else has stayed.
* A `Place` leads to an operand. The code of a tree is that of the operand between code that depends
  on the place only (`Expr.Place.code_plug`), and no sign comes right after an operand that has
  none. So an integer anywhere in a tree is found in the folded code with the sign of its own chain
  (`Expr.IntegerAt.foldSigns_code`), and its range is checked with that sign.

Both need literals that are their own double negatives. Those of a text are
(`Equation.negate_negate_of_parse`); the least integer, which has no negative, is not written.
-/

namespace Elementwise

namespace Action

/-! ## Folding in code -/

/-- Code does not start with a sign. -/
def StartsUnsigned (code : List Action) : Prop :=
  ∀ action ∈ code.head?, action.isSign = false

/-- Code with another action than a sign at its front does not start with a sign. -/
theorem StartsUnsigned.cons {action : Action} (h : action.isSign = false) (code : List Action) :
    StartsUnsigned (action :: code) := by
  simpa [StartsUnsigned] using h

/-- A run of signs ends where code starts that has none. -/
theorem StartsUnsigned.takeWhile_append {after : List Action} (h : StartsUnsigned after)
    (before : List Action) :
    (before ++ after).takeWhile isSign = before.takeWhile isSign ∧
      (before ++ after).dropWhile isSign = before.dropWhile isSign ++ after := by
  induction before with
  | nil =>
      cases after with
      | nil => exact ⟨rfl, rfl⟩
      | cons action rest =>
          have hsign : action.isSign = false := h action rfl
          simp [hsign]
  | cons action rest ih =>
      by_cases hsign : action.isSign = true
      · simp [hsign, ih]
      · simp [hsign]

/-- What starts with no sign still starts with none when its signs are folded. -/
theorem StartsUnsigned.foldSigns {code : List Action} (h : StartsUnsigned code) :
    StartsUnsigned (foldSigns code) := by
  cases code with
  | nil => exact h
  | cons action rest =>
      cases action with
      | constant value => exact .cons rfl _
      | element | parameter _ | apply _ => exact .cons (h _ rfl) _

/-- Signs are folded on each side of a place where no sign stands. -/
theorem foldSigns_append {after : List Action} (h : StartsUnsigned after) (before : List Action) :
    foldSigns (before ++ after) = foldSigns before ++ foldSigns after := by
  induction before with
  | nil => rfl
  | cons action rest ih =>
      change foldStep action (foldSigns (rest ++ after)) =
        foldStep action (foldSigns rest) ++ foldSigns after
      rw [ih]
      cases action with
      | constant value =>
          obtain ⟨htake, hdrop⟩ := h.foldSigns.takeWhile_append (foldSigns rest)
          simp [foldStep, htake, hdrop]
      | element | parameter _ | apply _ => rfl

/-- Signs that follow no constant stay. -/
theorem foldSigns_signs {signs : List Action} (h : ∀ sign ∈ signs, sign.isSign = true)
    (code : List Action) : foldSigns (signs ++ code) = signs ++ foldSigns code := by
  induction signs with
  | nil => rfl
  | cons sign rest ih =>
      obtain ⟨hsign, hrest⟩ := List.forall_mem_cons.mp h
      change foldStep sign (foldSigns (rest ++ code)) = _
      rw [ih hrest]
      cases sign with
      | constant value => cases hsign
      | element | parameter _ | apply _ => rfl

/-- **A chain in code.** A constant takes up the signs after it, and what stands before and after
the chain is folded as if it stood alone. -/
theorem foldSigns_chain {signs after : List Action} (hsigns : ∀ sign ∈ signs, sign.isSign = true)
    (hafter : StartsUnsigned after) (value : Literal) (before : List Action) :
    foldSigns (before ++ .constant value :: (signs ++ after)) =
      foldSigns before ++ .constant (signed value signs) :: foldSigns after := by
  obtain ⟨htake, hdrop⟩ := hafter.foldSigns.takeWhile_append signs
  have hall : signs.takeWhile isSign = signs := List.takeWhile_eq_self_iff.mpr hsigns
  have hnone : signs.dropWhile isSign = [] := List.dropWhile_eq_nil_iff.mpr hsigns
  rw [foldSigns_append (.cons rfl _)]
  congr 1
  change foldStep (.constant value) (foldSigns (signs ++ after)) = _
  rw [foldSigns_signs hsigns, foldStep, htake, hdrop, hall, hnone, List.nil_append]

/-- Dropping the signs that come first keeps code folded. -/
theorem foldSigns_dropWhile {code : List Action} (h : foldSigns code = code) :
    foldSigns (code.dropWhile isSign) = code.dropWhile isSign := by
  induction code with
  | nil => rfl
  | cons action rest ih =>
      by_cases hsign : action.isSign = true
      · have hrest : foldSigns rest = rest := by
          cases action with
          | constant value => cases hsign
          | element | parameter _ | apply _ => exact (List.cons.inj h).2
        rw [List.dropWhile_cons_of_pos hsign]
        exact ih hrest
      · rw [List.dropWhile_cons_of_neg hsign]
        exact h

/-- Code whose signs are folded has none to fold. -/
theorem foldSigns_foldSigns (code : List Action) : foldSigns (foldSigns code) = foldSigns code := by
  induction code with
  | nil => rfl
  | cons action rest ih =>
      cases action with
      | constant value =>
          -- The constant has taken the signs after it, so it is a chain of none now.
          have hrest : StartsUnsigned ((foldSigns rest).dropWhile isSign) := by
            intro action haction
            have hhead := List.head?_dropWhile_not isSign (foldSigns rest)
            rwa [Option.mem_def.mp haction] at hhead
          have hchain := foldSigns_chain (List.forall_mem_nil _) hrest
            (signed value ((foldSigns rest).takeWhile isSign)) []
          rw [foldSigns_dropWhile ih] at hchain
          exact hchain
      | element | parameter _ | apply _ => exact congrArg (List.cons _) ih

/-- A literal that is an integer and its own double negative changes its sign with each minus. -/
theorem signed_int {n : ℤ} (h : (Literal.int n).negate.negate = .int n) (signs : List Action) :
    signed (.int n) signs = .int ((-1) ^ signs.count (.apply .negate) * n) := by
  have hnegate : (Literal.int n).negate = .int (-n) := by
    rw [Literal.negate] at h ⊢
    split at h
    · cases h
    · rename_i hleast
      rw [if_neg hleast]
  rw [signed, hnegate]
  split
  · rename_i hodd
    rw [(Nat.odd_iff.mpr hodd).neg_one_pow, neg_one_mul]
  · rename_i heven
    rw [(Nat.not_odd_iff_even.mp (mt Nat.odd_iff.mp heven)).neg_one_pow, one_mul]

end Action

namespace Expr

variable {element : String}

/-! ## Folding in trees -/

mutual
/-- The tree in which every chain of signs on a number or on a constant of `math` is replaced by its
literal, negated once for each minus. -/
def foldSigns : Expr → Expr
  | .unary op operand =>
    match (Expr.unary op operand).signedLiteral? with
    | some l => .number l
    | none => .unary op operand.foldSigns
  | .binary op left right => .binary op left.foldSigns right.foldSigns
  | .call function arguments => .call function (foldSignsOfAll arguments)
  | e => e

/-- The same of several trees. -/
def foldSignsOfAll : List Expr → List Expr
  | [] => []
  | e :: rest => e.foldSigns :: foldSignsOfAll rest
end

end Expr

/-- The signs of an operation on operands, if it is none itself, are folded in the operands. -/
theorem Formula.ofOperands?_fold {op : Operation} {us : List Formula} {u : Formula}
    (hplus : op ≠ .plus) (hnegate : op ≠ .negate) (h : ofOperands? op us = some u) :
    ofOperands? op (us.map fold) = some u.fold := by
  rcases ofOperands?_cases h with ⟨arity, operand, rfl, rfl⟩ | ⟨arity, left, right, rfl, rfl⟩
  · rw [fold, foldUnary_of_ne hplus hnegate]
    exact dif_pos arity
  · exact dif_pos arity

namespace Expr

mutual
/-- **Trees and formulas.** The formula of the folded tree is the folded formula. -/
theorem formula?_foldSigns : (e : Expr) → {u : Formula} → e.formula? element = some u →
    e.foldSigns.formula? element = some u.fold
  | .number _, _, h => by
      cases h
      rfl
  | .quoted _, _, h => by cases h
  | .name word, _, h => by
      rw [foldSigns, h]
      · rcases formula?_name_cases h with ⟨-, rfl⟩ | ⟨-, rfl⟩
        · rfl
        · rfl
      all_goals exact nofun
  | .member root field, _, h => by
      rw [foldSigns, h]
      · obtain ⟨l, -, rfl⟩ := Option.map_eq_some_iff.mp h
        rfl
      all_goals exact nofun
  | .unary op operand, _, h => by
      -- The operand folds to a literal in the formula exactly where the tree has a chain.
      have hchain := constant?_of_formula? h
      obtain ⟨v, hv, h⟩ := Option.bind_eq_some_iff.mp h
      cases h
      rw [foldSigns, ← hchain, Formula.fold]
      rcases Formula.foldUnary_cases op.operation op.arity_operation v.fold with
        ⟨l, -, ⟨-, hfold⟩ | ⟨-, hfold⟩⟩ | ⟨-, hfold⟩
      · rw [hfold]
        rfl
      · rw [hfold]
        rfl
      · rw [hfold]
        simp [Formula.constant?, formula?, formula?_foldSigns operand hv]
  | .binary op left right, _, h => by
      obtain ⟨v, hv, h⟩ := Option.bind_eq_some_iff.mp h
      obtain ⟨w, hw, h⟩ := Option.bind_eq_some_iff.mp h
      cases h
      simp [foldSigns, formula?, formula?_foldSigns left hv, formula?_foldSigns right hw,
        Formula.fold]
  | .call function arguments, _, h => by
      obtain ⟨op, hop, h⟩ := Option.bind_eq_some_iff.mp h
      obtain ⟨us, hus, h⟩ := Option.bind_eq_some_iff.mp h
      obtain ⟨hplus, hnegate⟩ := not_sign_of_callee? hop
      simp [foldSigns, formula?, hop, formulasOfAll?_foldSigns arguments hus,
        Formula.ofOperands?_fold hplus hnegate h]
  | .conditional .., _, h => by cases h

/-- The same of several trees. -/
theorem formulasOfAll?_foldSigns : (es : List Expr) → {us : List Formula} →
    formulasOfAll? element es = some us →
    formulasOfAll? element (foldSignsOfAll es) = some (us.map Formula.fold)
  | [], _, h => by
      cases h
      rfl
  | e :: rest, _, h => by
      obtain ⟨u, hu, h⟩ := Option.bind_eq_some_iff.mp h
      obtain ⟨us, hus, h⟩ := Option.bind_eq_some_iff.mp h
      cases h
      simp [foldSignsOfAll, formulasOfAll?, formula?_foldSigns e hu,
        formulasOfAll?_foldSigns rest hus]
end

/-! ## Places in trees -/

/-- One step down to an operand, with what stands beside it. -/
inductive Frame where
  | unary (op : UnaryOp)
  | left (op : BinaryOp) (other : Expr)
  | right (op : BinaryOp) (other : Expr)
  | argument (function : Expr) (earlier later : List Expr)

/-- The code of a tree; none if it is refused. -/
def code (element : String) (e : Expr) : List Action :=
  (e.actions element).toOption.getD []

/-- The code of arguments. -/
def codeOfAll (element : String) (es : List Expr) : List Action :=
  (actionsOfAll element es).toOption.getD []

namespace Frame

/-- The tree with a given operand. -/
def plug : Frame → Expr → Expr
  | .unary op, e => .unary op e
  | .left op other, e => .binary op e other
  | .right op other, e => .binary op other e
  | .argument function earlier later, e => .call function (earlier ++ e :: later)

/-- Whether the operand has a sign. -/
def isSign : Frame → Bool
  | .unary .plus | .unary .minus => true
  | _ => false

/-- The code before that of the operand: of the operands to its right. -/
def before (element : String) : Frame → List Action
  | .unary _ | .right .. => []
  | .left _ other => other.code element
  | .argument _ _ later => codeOfAll element later

/-- The code after that of the operand: of the operands to its left, and the operation. -/
def after (element : String) : Frame → List Action
  | .unary op => [.apply op.operation]
  | .left op _ => [.apply op.operation]
  | .right op other => other.code element ++ [.apply op.operation]
  | .argument function earlier _ =>
    codeOfAll element earlier ++ function.callee?.toList.map .apply

end Frame

/-- The steps that lead to an operand, the last one first. -/
abbrev Place : Type :=
  List Frame

namespace Place

/-- The tree with a given operand at a place. -/
def plug (place : Place) (e : Expr) : Expr :=
  place.foldl (fun inner frame => frame.plug inner) e

/-- The code before that of the operand. -/
def before (element : String) : Place → List Action
  | [] => []
  | frame :: outer => before element outer ++ frame.before element

/-- The code after that of the operand. -/
def after (element : String) : Place → List Action
  | [] => []
  | frame :: outer => frame.after element ++ after element outer

end Place

/-- The code of an expression is that of its formula. -/
theorem code_of_formula? {e : Expr} {u : Formula} (h : e.formula? element = some u) :
    e.code element = u.code := by
  rw [code, (analyzed_of_formula? e h).actions]
  rfl

/-- The code of arguments is that of their formulas. -/
theorem codeOfAll_of_formulasOfAll? {es : List Expr} {us : List Formula}
    (h : formulasOfAll? element es = some us) : codeOfAll element es = Formula.codeOfAll us := by
  rw [codeOfAll, (analyzedAll_of_formulasOfAll? es h).actions]
  rfl

/-- Formulas of arguments around one of them. -/
theorem formulasOfAll?_append {earlier later : List Expr} {e : Expr} {us : List Formula}
    (h : formulasOfAll? element (earlier ++ e :: later) = some us) :
    ∃ vs v ws, formulasOfAll? element earlier = some vs ∧ e.formula? element = some v ∧
      formulasOfAll? element later = some ws ∧ us = vs ++ v :: ws := by
  induction earlier generalizing us with
  | nil =>
      obtain ⟨v, hv, h⟩ := Option.bind_eq_some_iff.mp h
      obtain ⟨ws, hws, h⟩ := Option.bind_eq_some_iff.mp h
      cases h
      exact ⟨[], v, ws, rfl, hv, hws, rfl⟩
  | cons first rest ih =>
      obtain ⟨u, hu, h⟩ := Option.bind_eq_some_iff.mp h
      obtain ⟨us, hus, h⟩ := Option.bind_eq_some_iff.mp h
      cases h
      obtain ⟨vs, v, ws, hvs, hv, hws, rfl⟩ := ih hus
      exact ⟨u :: vs, v, ws, by simp [formulasOfAll?, hu, hvs], hv, hws, rfl⟩

end Expr

namespace Formula

/-- The code of the last arguments comes first. -/
theorem codeOfAll_append (vs : List Formula) (v : Formula) (ws : List Formula) :
    codeOfAll (vs ++ v :: ws) = codeOfAll ws ++ v.code ++ codeOfAll vs := by
  induction vs with
  | nil => simp [codeOfAll]
  | cons u rest ih => simp [codeOfAll, ih]

/-- The code of a formula starts with no sign. -/
theorem startsUnsigned_code (u : Formula) (more : List Action) :
    Action.StartsUnsigned (u.code ++ more) := by
  obtain ⟨action, rest, hcode, haction⟩ := u.code_head more
  rw [hcode]
  exact .cons haction rest

/-- The code of formulas starts with no sign if what follows does not. -/
theorem startsUnsigned_codeOfAll {more : List Action} (h : Action.StartsUnsigned more) :
    (us : List Formula) → Action.StartsUnsigned (codeOfAll us ++ more)
  | [] => h
  | u :: rest => by
      rw [codeOfAll, List.append_assoc]
      exact startsUnsigned_codeOfAll (u.startsUnsigned_code more) rest

end Formula

namespace Expr

/-- **One step.** The code of a tree is that of an operand between the code before and after, and no
sign comes after an operand that has none. -/
theorem Frame.code_plug {frame : Frame} {e : Expr} {u : Formula}
    (h : (frame.plug e).formula? element = some u) :
    ∃ v, e.formula? element = some v ∧
      u.code = frame.before element ++ v.code ++ frame.after element ∧
      (frame.isSign = false → ∀ more, Action.StartsUnsigned (frame.after element ++ more)) := by
  cases frame with
  | unary op =>
      obtain ⟨v, hv, h⟩ := Option.bind_eq_some_iff.mp h
      cases h
      refine ⟨v, hv, rfl, fun hsign more => .cons ?_ more⟩
      cases op with
      | plus | minus => cases hsign
      | invert | not => rfl
  | left op other =>
      obtain ⟨v, hv, h⟩ := Option.bind_eq_some_iff.mp h
      obtain ⟨w, hw, h⟩ := Option.bind_eq_some_iff.mp h
      cases h
      refine ⟨v, hv, ?_, fun _ more => .cons ?_ more⟩
      · rw [before, after, code_of_formula? hw]
        rfl
      · cases op <;> rfl
  | right op other =>
      obtain ⟨w, hw, h⟩ := Option.bind_eq_some_iff.mp h
      obtain ⟨v, hv, h⟩ := Option.bind_eq_some_iff.mp h
      cases h
      refine ⟨v, hv, ?_, fun _ more => ?_⟩
      · rw [before, after, code_of_formula? hw, Formula.code]
        simp
      · rw [after, code_of_formula? hw, List.append_assoc]
        exact w.startsUnsigned_code _
  | argument function earlier later =>
      obtain ⟨op, hop, h⟩ := Option.bind_eq_some_iff.mp h
      obtain ⟨us, hus, h⟩ := Option.bind_eq_some_iff.mp h
      obtain ⟨vs, v, ws, hvs, hv, hws, rfl⟩ := formulasOfAll?_append hus
      have hafter : after element (.argument function earlier later) =
          Formula.codeOfAll vs ++ [.apply op] := by
        rw [after, codeOfAll_of_formulasOfAll? hvs, hop]
        rfl
      refine ⟨v, hv, ?_, fun _ more => ?_⟩
      · rw [hafter, before, codeOfAll_of_formulasOfAll? hws, Formula.code_of_ofOperands? h,
          Formula.codeOfAll_append]
        simp
      · obtain ⟨hplus, hnegate⟩ := not_sign_of_callee? hop
        rw [hafter, List.append_assoc]
        exact Formula.startsUnsigned_codeOfAll
          (.cons (Formula.isSign_apply hplus hnegate) more) vs

/-- **Places.** The code of a tree is that of an operand between the code before and after, however
deep the operand stands. -/
theorem Place.code_plug {place : Place} {e : Expr} {u : Formula}
    (h : (place.plug e).formula? element = some u) :
    ∃ v, e.formula? element = some v ∧
      u.code = place.before element ++ v.code ++ place.after element ∧
      ((∀ frame ∈ place.head?, frame.isSign = false) →
        Action.StartsUnsigned (place.after element)) := by
  induction place generalizing e with
  | nil => exact ⟨u, h, by simp [before, after], fun _ => nofun⟩
  | cons frame outer ih =>
      obtain ⟨v, hv, hcode, -⟩ := ih h
      obtain ⟨w, hw, hinner, hsign⟩ := Frame.code_plug hv
      refine ⟨w, hw, ?_, fun hfirst => hsign (hfirst frame rfl) _⟩
      rw [hcode, hinner, before, after]
      simp

/-! ## Integers under signs -/

/-- At a place of a tree stands an integer under a chain of signs, and no other sign is on the
chain. -/
structure IntegerAt (t : Expr) (place : Place) (signs : List UnaryOp) (n : ℤ) : Prop where
  tree : t = place.plug (signs.foldr .unary (.number (.int n)))
  chain : ∀ op ∈ signs, op = .plus ∨ op = .minus
  maximal : ∀ frame ∈ place.head?, frame.isSign = false

namespace IntegerAt

variable {t : Expr} {place : Place} {signs : List UnaryOp} {n : ℤ}

/-- A sign on a chain makes it longer. -/
theorem sign (h : t.IntegerAt [] signs n) {op : UnaryOp} (hop : op = .plus ∨ op = .minus) :
    (unary op t).IntegerAt [] (op :: signs) n :=
  ⟨congrArg (unary op) h.tree, List.forall_mem_cons.mpr ⟨hop, h.chain⟩, nofun⟩

/-- Anything else is one step more to the place. -/
theorem step (h : t.IntegerAt place signs n) (frame : Frame)
    (hframe : place = [] → frame.isSign = false) :
    (frame.plug t).IntegerAt (place ++ [frame]) signs n := by
  refine ⟨by simp [Place.plug, h.tree], h.chain, ?_⟩
  cases place with
  | nil => simpa using hframe rfl
  | cons first rest => exact h.maximal

end IntegerAt

mutual
/-- Every integer of a permitted tree stands under its signs at some place. -/
theorem exists_integerAt {n : ℤ} : (t : Expr) → t.Permitted element →
    .number (.int n) ∈ t.visits (fun _ => true) → ∃ place signs, t.IntegerAt place signs n
  | .number l, _, hn => by
      rw [visits, List.mem_singleton] at hn
      exact ⟨[], [], hn.symm, nofun, nofun⟩
  | .quoted _, h, _ => by simp [Permitted] at h
  | .name _, _, hn => by simp [visits] at hn
  | .member root field, h, hn => by
      simp only [Permitted] at h
      simp [visits, h.1] at hn
  | .unary op operand, h, hn => by
      simp only [Permitted] at h
      obtain ⟨place, signs, hat⟩ := exists_integerAt operand h (by simpa [visits] using hn)
      -- Only a sign directly on the chain belongs to it.
      by_cases hsign : place = [] ∧ (op = .plus ∨ op = .minus)
      · obtain ⟨rfl, hop⟩ := hsign
        exact ⟨[], op :: signs, hat.sign hop⟩
      · refine ⟨_, signs, hat.step (.unary op) fun hnil => ?_⟩
        cases op with
        | plus | minus => simp [hnil] at hsign
        | invert | not => rfl
  | .binary op left right, h, hn => by
      simp only [Permitted] at h
      have hside : (.number (.int n) ∈ left.visits fun _ => true) ∨
          .number (.int n) ∈ right.visits fun _ => true := by simpa [visits] using hn
      rcases hside with hn | hn
      · obtain ⟨place, signs, hat⟩ := exists_integerAt left h.1 hn
        exact ⟨_, signs, hat.step (.left op right) fun _ => rfl⟩
      · obtain ⟨place, signs, hat⟩ := exists_integerAt right h.2 hn
        exact ⟨_, signs, hat.step (.right op left) fun _ => rfl⟩
  | .call function arguments, h, hn => by
      simp only [Permitted] at h
      obtain ⟨op, hcalls, -, harguments⟩ := h
      have hargument : .number (.int n) ∈ visitsOfAll (fun _ => true) arguments := by
        cases hcalls with
        | abs => simpa [visits] using hn
        | math => simpa [visits] using hn
      obtain ⟨earlier, e, later, place, signs, rfl, hat⟩ :=
        exists_integerAtOfAll arguments harguments hargument
      exact ⟨_, signs, hat.step (.argument function earlier later) fun _ => rfl⟩
  | .conditional .., h, _ => by simp [Permitted] at h

/-- The same of several trees. -/
theorem exists_integerAtOfAll {n : ℤ} : (ts : List Expr) → PermittedAll element ts →
    .number (.int n) ∈ visitsOfAll (fun _ => true) ts →
    ∃ earlier e later place signs, ts = earlier ++ e :: later ∧ e.IntegerAt place signs n
  | [], _, hn => by cases hn
  | t :: rest, h, hn => by
      simp only [PermittedAll] at h
      rw [visitsOfAll, List.mem_append] at hn
      rcases hn with hn | hn
      · obtain ⟨place, signs, hat⟩ := exists_integerAt t h.1 hn
        exact ⟨[], t, rest, place, signs, rfl, hat⟩
      · obtain ⟨earlier, e, later, place, signs, rfl, hat⟩ := exists_integerAtOfAll rest h.2 hn
        exact ⟨t :: earlier, e, later, place, signs, rfl, hat⟩
end

/-- The code of a chain is the literal and its signs, the outermost last. -/
theorem code_chain {signs : List UnaryOp} {l : Literal} {u : Formula}
    (h : (signs.foldr unary (.number l)).formula? element = some u) :
    u.code = .constant l :: (signs.map fun op => .apply op.operation).reverse := by
  induction signs generalizing u with
  | nil =>
      cases h
      rfl
  | cons op rest ih =>
      obtain ⟨v, hv, h⟩ := Option.bind_eq_some_iff.mp h
      cases h
      simp [Formula.code, ih hv]

/-- The signs of a chain are signs in its code. -/
theorem isSign_of_chain {signs : List UnaryOp} (h : ∀ op ∈ signs, op = .plus ∨ op = .minus) :
    ∀ sign ∈ (signs.map fun op => Action.apply op.operation).reverse, sign.isSign = true := by
  intro sign hsign
  obtain ⟨op, hop, rfl⟩ := List.mem_map.mp (List.mem_reverse.mp hsign)
  rcases h op hop with rfl | rfl
  · rfl
  · rfl

/-- A chain has as many minuses as its code. -/
theorem count_of_chain (signs : List UnaryOp) :
    (signs.map fun op => Action.apply op.operation).reverse.count (.apply .negate) =
      signs.count .minus := by
  rw [List.count_reverse]
  induction signs with
  | nil => rfl
  | cons op rest ih =>
      rw [List.map_cons, List.count_cons, List.count_cons, ih]
      cases op <;> rfl

/-- **An integer under signs.** In folded code the integer stands at its place, with the sign of its
chain. -/
theorem IntegerAt.foldSigns_code {t : Expr} {place : Place} {signs : List UnaryOp} {n : ℤ}
    (h : t.IntegerAt place signs n) {u : Formula} (hu : t.formula? element = some u)
    (hreversible : ∀ l, .constant l ∈ u.code → l.negate.negate = l) :
    Action.foldSigns u.code = Action.foldSigns (place.before element) ++
      .constant (.int ((-1) ^ signs.count .minus * n)) ::
        Action.foldSigns (place.after element) := by
  rw [h.tree] at hu
  obtain ⟨v, hv, hcode, hafter⟩ := Place.code_plug hu
  have hchain := code_chain hv
  have hn : (Literal.int n).negate.negate = .int n :=
    hreversible _ (by simp [hcode, hchain])
  rw [hcode, hchain, List.append_assoc, List.cons_append,
    Action.foldSigns_chain (isSign_of_chain h.chain) (hafter h.maximal), Action.signed_int hn,
    count_of_chain]

end Expr

/-! ## Ranges -/

/-- An integer literal passes with the word that stands for it. -/
theorem Action.constantValue_int_iff {s : IntType} {n : ℤ} {a : s.Word} :
    constantValue (.int s) (.constant (.int n)) = .ok a ↔ s.toInt a = n := by
  have hliteral : (ElementType.int s).ofLiteral? (.int n) = some a ↔ s.toInt a = n := by
    rw [Literal.ofLiteral?_eq_some_iff, Literal.whole?_int, Option.some.injEq, eq_comm]
  rw [← hliteral, constantValue]
  rcases (ElementType.int s).ofLiteral? (.int n) with _ | b
  · simp
  · exact ⟨fun h => congrArg some (Except.ok.inj h),
      fun h => congrArg Except.ok (Option.some.inj h)⟩

/-- An integer literal passes exactly if it is in range. -/
theorem Action.exists_constantValue_int_iff {s : IntType} {n : ℤ} :
    (∃ a, constantValue (.int s) (.constant (.int n)) = .ok a) ↔ s.least ≤ n ∧ n ≤ s.greatest := by
  constructor
  · rintro ⟨a, ha⟩
    rw [← constantValue_int_iff.mp ha]
    exact s.fits_toInt a
  · intro hfits
    exact ⟨s.wrap n, constantValue_int_iff.mpr (s.toInt_wrap hfits)⟩

/-- The constants of a compiled program are those of its folded code. -/
theorem Program.Compiled.constantValue {T : ElementType} {equation element : String}
    {parameters : List String} {p : Program T} {t : Expr} {u : Formula}
    (h : p.Compiled equation element parameters t u) {before after : List Action} {action : Action}
    (hcode : u.fold.code = before ++ action :: after) :
    ∃ a, p.bytecode.constants[before.length]? = some a ∧ Action.constantValue T action = .ok a := by
  refine ⟨Action.emittedConstant T action, by simp [h.bytecode, Bytecode.emit, hcode], ?_⟩
  refine Action.constantValue_eq_ok_iff.mpr ⟨?_, rfl⟩
  rintro l rfl
  exact h.fits.converts l (by simp [hcode])

/-- **Signs of literals.** The code of a permitted tree, with its signs folded, is the code of the
folded tree, and folding again changes nothing. Every integer of the tree stands at some place under
its signs. There the folded code has the integer with the sign of the chain, which passes exactly if
it is in the range of the type, and is the constant that a program has there. The numbers are their
own double negatives, as in the tree of a text. -/
theorem Expr.foldSigns_exact {t : Expr} {element : String} (hpermitted : t.Permitted element)
    (hwritten : ∀ l, .number l ∈ t.visits (fun _ => true) → l.negate.negate = l) :
    ∃ raw, t.actions element = .ok raw ∧
      t.foldSigns.actions element = .ok (Action.foldSigns raw) ∧
      Action.foldSigns (Action.foldSigns raw) = Action.foldSigns raw ∧
      (∀ n, .number (.int n) ∈ t.visits (fun _ => true) →
        ∃ place signs, t.IntegerAt place signs n) ∧
      ∀ place signs n, t.IntegerAt place signs n →
        let value := (-1) ^ signs.count .minus * n
        let front := Action.foldSigns (place.before element)
        Action.foldSigns raw =
            front ++ .constant (.int value) :: Action.foldSigns (place.after element) ∧
          ∀ s : IntType,
            ((∃ a, Action.constantValue (.int s) (.constant (.int value)) = .ok a) ↔
                s.least ≤ value ∧ value ≤ s.greatest) ∧
              (∀ a, Action.constantValue (.int s) (.constant (.int value)) = .ok a →
                s.toInt a = value) ∧
              ∀ settings text parameters p, Equation.parse text = .ok ⟨t⟩ →
                Program.compile (.int s) settings text element parameters = .ok p →
                ∃ a, p.bytecode.constants[front.length]? = some a ∧ s.toInt a = value := by
  obtain ⟨u, hu⟩ := t.exists_formula?_of_permitted hpermitted
  have hreversible := t.negate_negate_of_formula? hu hwritten
  have hfold := Formula.foldSigns_code hreversible
  refine ⟨u.code, (t.analyzed_of_formula? hu).actions, ?_, Action.foldSigns_foldSigns _,
    fun n => t.exists_integerAt hpermitted, fun place signs n hat => ?_⟩
  · rw [hfold]
    exact (t.foldSigns.analyzed_of_formula? (t.formula?_foldSigns hu)).actions
  · intro value front
    have hcode := hat.foldSigns_code hu hreversible
    refine ⟨hcode, fun s => ⟨Action.exists_constantValue_int_iff,
      fun a => Action.constantValue_int_iff.mp, ?_⟩⟩
    intro settings text parameters p hparse hcompile
    obtain ⟨t', u', hcompiled⟩ := Program.exists_compiled hcompile
    cases hparse.symm.trans hcompiled.parsed
    cases hu.symm.trans hcompiled.formula
    obtain ⟨a, ha, hvalue⟩ := hcompiled.constantValue (hfold.symm.trans hcode)
    exact ⟨a, ha, Action.constantValue_int_iff.mp hvalue⟩

/-- In `-128 - -x` the first minus becomes part of the literal and the last one stays on `x`. The
literal is in the range of bytes with its sign, though it is not without, and is emitted so. -/
theorem Expr.foldSigns_exact_leastByte :
    ∃ t, Equation.parse "-128 - -x" = .ok ⟨t⟩ ∧
      t.IntegerAt [.left .sub (.unary .minus (.name "x"))] [.minus] 128 ∧
      t.foldSigns.actions "x" =
        .ok [.element, .apply .negate, .constant (.int (-128)), .apply .sub] ∧
      ∃ p, Program.compile (.int ⟨true, .w8⟩) .default "-128 - -x" "x" [] = .ok p ∧
        ∃ a : IntType.Word ⟨true, .w8⟩, p.bytecode.constants[2]? = some a ∧
          IntType.toInt ⟨true, .w8⟩ a = -128 := by
  have hparse : Equation.parse "-128 - -x" = .ok ⟨.binary .sub
      (.unary .minus (.number (.int 128))) (.unary .minus (.name "x"))⟩ := rfl
  have hcompile : Program.compile (.int ⟨true, .w8⟩) .default "-128 - -x" "x" [] =
      .ok ⟨⟨[0, 3, 2, 8], [0, 0, 0, 0], [0#8, 0#8, 128#8, 0#8]⟩, 4, []⟩ := rfl
  have hpermitted : (Expr.binary .sub (.unary .minus (.number (.int 128)))
      (.unary .minus (.name "x"))).Permitted "x" := by simp [Permitted]
  have hat : (Expr.binary .sub (.unary .minus (.number (.int 128)))
      (.unary .minus (.name "x"))).IntegerAt [.left .sub (.unary .minus (.name "x"))] [.minus]
      128 := ⟨rfl, by simp, by simp [Frame.isSign]⟩
  obtain ⟨raw, hraw, hfold, -, -, hplaces⟩ :=
    foldSigns_exact hpermitted fun l => Equation.negate_negate_of_parse hparse
  cases hraw
  obtain ⟨-, hranges⟩ := hplaces _ _ _ hat
  exact ⟨_, hparse, hat, hfold, _, hcompile,
    (hranges ⟨true, .w8⟩).2.2 .default _ [] _ hparse hcompile⟩

end Elementwise
