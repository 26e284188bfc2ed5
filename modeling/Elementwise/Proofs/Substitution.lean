import Elementwise.Proofs.Integer.Exact
import Elementwise.Proofs.Runs

/-!
# Parameters and constants agree

A parameter that is bound to a literal can be replaced by the literal. The two programs take
different ways: a parameter is converted first and gets its signs when the program runs, a number
gets its signs when the program is compiled and is converted then, and without the parameter all
later ones have other registers. `Session.execute_substitute` says that two runs that succeed give
the same.

* Substitution in an expression is substitution in its formula (`Expr.formula?_substitute`).
* Where the literals of folded code convert, folding signs in code is folding them in the formula,
  whatever the literals are (`Formula.foldSigns_code_of_converts`).
* A chain of signs over the parameter computes, at every sign, the word that the integer of the
  folded literal reduces to (`Formula.fold_substitute_constant`). This holds although the literal
  need not fit before the last sign, so it is stated of the integer and not of a converted literal.
* By induction on the formula the values agree wherever both exist (`Formula.value_substitute`).
-/

namespace Elementwise

/-! ## Substitution -/

/-- What is put in place of a name. -/
structure Substitution (α : Type) where
  name : String
  replacement : α

namespace Expr

mutual
/-- The expression with another one in place of a name. Functions and the roots of members are no
values, so they stay. -/
def substitute (σ : Substitution Expr) : Expr → Expr
  | .name word => if word = σ.name then σ.replacement else .name word
  | .unary op operand => .unary op (operand.substitute σ)
  | .binary op left right => .binary op (left.substitute σ) (right.substitute σ)
  | .call function arguments => .call function (substituteAll σ arguments)
  | .conditional test body alternative =>
    .conditional (test.substitute σ) (body.substitute σ) (alternative.substitute σ)
  | .number value => .number value
  | .quoted content => .quoted content
  | .member root field => .member root field

/-- Substitution in several expressions. -/
def substituteAll (σ : Substitution Expr) : List Expr → List Expr
  | [] => []
  | e :: rest => e.substitute σ :: substituteAll σ rest
end

end Expr

/-- The formula with another one in place of a parameter. -/
def Formula.substitute (σ : Substitution Formula) : Formula → Formula
  | .parameter name => if name = σ.name then σ.replacement else .parameter name
  | .unary op arity operand => .unary op arity (operand.substitute σ)
  | .binary op arity left right => .binary op arity (left.substitute σ) (right.substitute σ)
  | .element => .element
  | .constant value => .constant value

namespace Expr

variable {element : String} {σ : Substitution Expr} {w : Formula}

mutual
/-- The formula of an expression with a substitution is its formula with the substitution. -/
theorem formula?_substitute (hname : σ.name ≠ element)
    (hw : σ.replacement.formula? element = some w) :
    (e : Expr) → {u : Formula} → e.formula? element = some u →
    (e.substitute σ).formula? element = some (u.substitute ⟨σ.name, w⟩)
  | .number _, _, h => by
      cases h
      rfl
  | .quoted _, _, h => by cases h
  | .name word, _, h => by
      rw [substitute]
      rcases formula?_name_cases h with ⟨hword, rfl⟩ | ⟨hword, rfl⟩
      · rw [if_neg fun hsame => hname (hsame.symm.trans hword)]
        exact h
      · by_cases hsame : word = σ.name
        · rw [if_pos hsame, Formula.substitute, if_pos hsame]
          exact hw
        · rw [if_neg hsame, Formula.substitute, if_neg hsame]
          exact h
  | .member root field, _, h => by
      obtain ⟨l, hl, rfl⟩ := Option.map_eq_some_iff.mp h
      exact h
  | .unary op operand, _, h => by
      obtain ⟨v, hv, h⟩ := Option.bind_eq_some_iff.mp h
      cases h
      rw [substitute, formula?, formula?_substitute hname hw operand hv]
      rfl
  | .binary op left right, _, h => by
      obtain ⟨v, hv, h⟩ := Option.bind_eq_some_iff.mp h
      obtain ⟨v', hv', h⟩ := Option.bind_eq_some_iff.mp h
      cases h
      rw [substitute, formula?, formula?_substitute hname hw left hv,
        formula?_substitute hname hw right hv']
      rfl
  | .call function arguments, _, h => by
      obtain ⟨op, hop, h⟩ := Option.bind_eq_some_iff.mp h
      obtain ⟨us, hus, h⟩ := Option.bind_eq_some_iff.mp h
      rw [substitute, formula?, hop, formulasOfAll?_substituteAll hname hw arguments hus]
      rcases Formula.ofOperands?_cases h with ⟨harity, v, rfl, rfl⟩ | ⟨harity, v, v', rfl, rfl⟩
      · exact dif_pos harity
      · exact dif_pos harity
  | .conditional .., _, h => by cases h

/-- The same of several expressions. -/
theorem formulasOfAll?_substituteAll (hname : σ.name ≠ element)
    (hw : σ.replacement.formula? element = some w) :
    (es : List Expr) → {us : List Formula} → formulasOfAll? element es = some us →
    formulasOfAll? element (substituteAll σ es) = some (us.map (·.substitute ⟨σ.name, w⟩))
  | [], _, h => by
      cases h
      rfl
  | e :: rest, _, h => by
      obtain ⟨u, hu, h⟩ := Option.bind_eq_some_iff.mp h
      obtain ⟨us, hus, h⟩ := Option.bind_eq_some_iff.mp h
      cases h
      rw [substituteAll, formulasOfAll?, formula?_substitute hname hw e hu,
        formulasOfAll?_substituteAll hname hw rest hus]
      rfl
end

/-- A chain of signs on a literal has a formula, which folds to the signed literal. -/
theorem exists_formula?_of_signedLiteral? (element : String) {e : Expr} {l : Literal}
    (h : e.signedLiteral? = some l) :
    ∃ u, e.formula? element = some u ∧ u.fold = .constant l := by
  have hexists : ∃ u, e.formula? element = some u := by
    fun_induction signedLiteral? e generalizing l with
    | case1 operand ih =>
        obtain ⟨u, hu⟩ := ih h
        exact ⟨_, by rw [formula?, hu]; rfl⟩
    | case2 operand ih =>
        obtain ⟨l', hl', -⟩ := Option.map_eq_some_iff.mp h
        obtain ⟨u, hu⟩ := ih hl'
        exact ⟨_, by rw [formula?, hu]; rfl⟩
    | case3 e hplus hminus =>
        cases e with
        | number l' => exact ⟨_, rfl⟩
        | member root field => exact ⟨_, by rw [formula?, h]; rfl⟩
        | quoted _ | name _ | unary _ _ | binary _ _ _ | call _ _ | conditional _ _ _ => cases h
  obtain ⟨u, hu⟩ := hexists
  refine ⟨u, hu, ?_⟩
  have hconstant := constant?_of_formula? hu
  rw [h] at hconstant
  rcases hfold : u.fold with _ | _ | l' | _ | _ <;> rw [hfold] at hconstant <;> cases hconstant
  rfl

end Expr

/-! ## Signs of literals that convert -/

/-- Every literal of code is in the folded code, with some signs. -/
theorem Action.exists_signed_mem {code : List Action} {l : Literal} (h : .constant l ∈ code) :
    ∃ signs, .constant (signed l signs) ∈ foldSigns code := by
  induction code with
  | nil => cases h
  | cons action rest ih =>
      rw [foldSigns, List.foldr_cons, ← foldSigns]
      rcases List.mem_cons.mp h with rfl | hrest
      · exact ⟨_, List.mem_cons_self⟩
      · obtain ⟨signs, hsigned⟩ := ih hrest
        refine ⟨signs, ?_⟩
        cases action with
        | constant l' =>
            -- Only signs are taken away, and a constant is none.
            rw [← (foldSigns rest).takeWhile_append_dropWhile, List.mem_append] at hsigned
            refine List.mem_cons_of_mem _ (hsigned.resolve_left fun htaken => ?_)
            exact absurd (List.mem_takeWhile_imp htaken) Bool.false_ne_true
        | element | parameter _ | apply _ => exact List.mem_cons_of_mem _ hsigned

/-- A literal that converts to an integer element, with or without a minus, is its own double
negative. -/
theorem Literal.negate_negate_of_converts {t : IntType} {l : Literal} {signs : List Action}
    (h : ∃ a, (ElementType.int t).ofLiteral? (Action.signed l signs) = some a) :
    l.negate.negate = l := by
  obtain ⟨a, ha⟩ := h
  replace ha := ofLiteral?_eq_some_iff.mp ha
  rcases l with n | x
  · have hrange : t.Fits n ∨ t.Fits (-n) := by
      have hfits := t.fits_toInt a
      unfold Action.signed at ha
      split at ha
      · rw [whole?_negate, whole?_int] at ha
        rw [← Option.some.inj ha] at hfits
        exact .inr hfits
      · rw [whole?_int] at ha
        rw [← Option.some.inj ha] at hfits
        exact .inl hfits
    apply negate_negate_int
    have hbound : ∀ t : IntType, -(2 : ℤ) ^ 64 ≤ t.least ∧ t.greatest ≤ 2 ^ 64 := by
      rintro ⟨sign, width⟩
      cases sign <;> cases width <;> decide
    have hlarge : (2 : ℤ) ^ 64 < intBound := by decide
    obtain ⟨hleast, hgreatest⟩ := hbound t
    unfold IntType.Fits at hrange
    omega
  · exact negate_negate_float x

/-- Where the literals of folded code convert to integers, folding signs in the code of a formula is
folding them in the formula. -/
theorem Formula.foldSigns_code_of_converts {t : IntType} {u : Formula}
    (h : Action.Converts (.int t) (Action.foldSigns u.code)) :
    Action.foldSigns u.code = u.fold.code := by
  refine foldSigns_code fun l hl => ?_
  obtain ⟨signs, hsigned⟩ := Action.exists_signed_mem hl
  exact Literal.negate_negate_of_converts (h _ hsigned)

/-! ## Values -/

/-- A name other than the one taken out of a list has the value at its place in both lists. -/
theorem getD_idxOf_append_cons {α : Type} {k name : String} (hname : name ≠ k)
    {front back : List String} {earlier later : List α} (h : earlier.length = front.length)
    (a zero : α) :
    (earlier ++ a :: later).getD ((front ++ k :: back).idxOf name) zero =
      (earlier ++ later).getD ((front ++ back).idxOf name) zero := by
  induction front generalizing earlier with
  | nil =>
      obtain rfl := List.length_eq_zero_iff.mp h
      simp [List.idxOf_cons_ne _ hname.symm]
  | cons first front ih =>
      rcases earlier with _ | ⟨b, earlier⟩
      · cases h
      · by_cases hfirst : first = name
        · simp [hfirst]
        · simpa [List.idxOf_cons_ne _ hfirst] using ih (Nat.succ.inj h)

/-- The place of a name that is not among those before it. -/
theorem getD_idxOf_append_self {α : Type} {k : String} {front back : List String}
    (hk : k ∉ front) {earlier later : List α} (h : earlier.length = front.length) (a zero : α) :
    (earlier ++ a :: later).getD ((front ++ k :: back).idxOf k) zero = a := by
  have hindex : (front ++ k :: back).idxOf k = earlier.length := by
    rw [List.idxOf_append_of_notMem hk, List.idxOf_cons_self, h, Nat.add_zero]
  rw [hindex]
  simp

/-- Two environments that differ in the parameter `k` only, which has the value `a` in the first. -/
structure Environment.Binds {T : ElementType} (env env' : Environment T) (k : String)
    (a : T.Value) : Prop where
  element : env.x = env'.x
  checked : env.checked = env'.checked
  bound : env.parameter k = a
  others : ∀ name, name ≠ k → env.parameter name = env'.parameter name

/-- A parameter and its value taken out of the names and the values. -/
theorem Environment.binds_append {T : ElementType} (element : String) (x : T.Value) {k : String}
    {front : List String} (hk : k ∉ front) {earlier : List T.Value}
    (h : earlier.length = front.length) (back : List String) (a : T.Value) (later : List T.Value)
    (checked : Bool) :
    Binds ⟨element, x, front ++ k :: back, earlier ++ a :: later, checked⟩
      ⟨element, x, front ++ back, earlier ++ later, checked⟩ k a :=
  ⟨rfl, rfl, getD_idxOf_append_self hk h a _, fun _ hname => getD_idxOf_append_cons hname h a _⟩

namespace Formula

variable {t : IntType} {env env' : Environment (.int t)} {σ : Substitution Formula}
  {a : (ElementType.int t).Value} {v : Literal}

/-- Substitution leaves a literal that signs are folded into. -/
theorem fold_substitute_of_constant {u : Formula} {l : Literal} (h : u.fold = .constant l) :
    (u.substitute σ).fold = .constant l := by
  induction u generalizing l with
  | element | parameter _ | binary _ _ _ _ _ _ => cases h
  | constant _ => exact h
  | unary op arity operand ih =>
      rw [fold] at h
      rw [substitute, fold]
      rcases foldUnary_cases op arity operand.fold with ⟨l', hl', -⟩ | ⟨-, hkept⟩
      · rw [ih hl', ← hl']
        exact h
      · rw [hkept] at h
        cases h

/-- **Chains of signs.** If substitution makes a literal of a formula, then it was this literal
before, or its values are the words that the integer of the literal reduces to. -/
theorem fold_substitute_constant (hbound : env.parameter σ.name = a)
    (hσ : σ.replacement.fold = .constant v) (hv : v.whole? = some (t.toInt a)) {u : Formula}
    {l : Literal} (h : (u.substitute σ).fold = .constant l) :
    u.fold = .constant l ∨ (∀ l', u.fold ≠ .constant l') ∧
      ∀ s, u.fold.value env = .ok s → ∃ n, l.whole? = some n ∧ s = t.wrap n := by
  induction u generalizing l with
  | element | binary _ _ _ _ _ _ => cases h
  | constant _ => exact .inl h
  | parameter name =>
      rw [substitute] at h
      split at h
      · rename_i hname
        cases hσ.symm.trans h
        refine .inr ⟨by simp [fold], fun s hs => ⟨t.toInt a, hv, ?_⟩⟩
        have hvalue : env.parameter name = s := Except.ok.inj hs
        rw [hname, hbound] at hvalue
        exact hvalue.symm.trans (t.wrap_toInt a).symm
      · cases h
  | unary op arity operand ih =>
      rw [substitute, fold] at h
      rw [fold]
      rcases foldUnary_cases op arity (operand.substitute σ).fold with
        ⟨l', hl', hsign⟩ | ⟨-, hkept⟩
      · rcases ih hl' with hsame | ⟨hother, hvalue⟩
        · rw [hsame, ← hl']
          exact .inl h
        · -- The operand is no literal, so its sign stays and is applied to the word.
          rw [foldUnary_eq_unary fun l'' hl'' => absurd hl'' (hother l'')]
          refine .inr ⟨by simp, fun s hs => ?_⟩
          rw [value] at hs
          obtain ⟨s', hs', hs⟩ := bind_eq_ok_iff.mp hs
          obtain ⟨n, hn, rfl⟩ := hvalue s' hs'
          have hresult : t.unary op env.checked (t.wrap n) = .ok s :=
            Evaluation.of_blame_eq_ok_iff.mp (congrArg Evaluation.of hs)
          rcases hsign with ⟨rfl, hfold⟩ | ⟨rfl, hfold⟩
          · cases hfold.symm.trans h
            exact ⟨n, hn, (Except.ok.inj hresult).symm⟩
          · cases hfold.symm.trans h
            refine ⟨-n, by rw [Literal.whole?_negate, hn]; rfl, ?_⟩
            rw [IntType.eq_wrap_of_settle hresult, IntType.wrap_neg, IntType.wrap_neg, t.wrap_toInt]
      · rw [hkept] at h
        cases h

/-- Where substitution makes a literal of a formula, the value is the word of the literal. -/
theorem value_substitute_of_constant (hbinds : env.Binds env' σ.name a)
    (hσ : σ.replacement.fold = .constant v) (hv : v.whole? = some (t.toInt a)) (u : Formula)
    {l : Literal} (hl : (u.substitute σ).fold = .constant l)
    (hconverts : Action.Converts (.int t) (u.substitute σ).fold.code)
    {s s' : (ElementType.int t).Value} (hs : u.fold.value env = .ok s)
    (hs' : (u.substitute σ).fold.value env' = .ok s') : s = s' := by
  rw [hl] at hconverts hs'
  obtain ⟨c, hc⟩ := hconverts l (List.mem_singleton_self _)
  rw [value, hc] at hs'
  obtain rfl : c = s' := Except.ok.inj hs'
  rcases fold_substitute_constant hbinds.bound hσ hv hl with hsame | ⟨-, hvalue⟩
  · rw [hsame, value, hc] at hs
    exact (Except.ok.inj hs).symm
  · obtain ⟨n, hn, rfl⟩ := hvalue s hs
    rw [Option.some.inj (hn.symm.trans (Literal.ofLiteral?_eq_some_iff.mp hc))]
    exact t.wrap_toInt c

/-- **Substitution.** A formula with a parameter bound to what a literal stands for, and the formula
with the literal in its place, have the same value if both have one. -/
theorem value_substitute (hbinds : env.Binds env' σ.name a) (hσ : σ.replacement.fold = .constant v)
    (hv : v.whole? = some (t.toInt a)) {u : Formula}
    (hconverts : Action.Converts (.int t) (u.substitute σ).fold.code)
    {s s' : (ElementType.int t).Value} (hs : u.fold.value env = .ok s)
    (hs' : (u.substitute σ).fold.value env' = .ok s') : s = s' := by
  induction u generalizing s s' with
  | element =>
      cases hs
      cases hs'
      exact hbinds.element
  | constant l => exact value_substitute_of_constant hbinds hσ hv (.constant l) rfl hconverts hs hs'
  | parameter name =>
      by_cases hname : name = σ.name
      · have hfold : ((Formula.parameter name).substitute σ).fold = .constant v := by
          rw [substitute, if_pos hname, hσ]
        exact value_substitute_of_constant hbinds hσ hv _ hfold hconverts hs hs'
      · rw [substitute, if_neg hname] at hs'
        cases hs
        cases hs'
        exact hbinds.others name hname
  | unary op arity operand ih =>
      have hconstant := fun l hl => value_substitute_of_constant hbinds hσ hv
        (.unary op arity operand) (l := l) hl hconverts hs hs'
      rcases foldUnary_cases op arity (operand.substitute σ).fold with
        ⟨l, -, ⟨-, hfold⟩ | ⟨-, hfold⟩⟩ | ⟨hkept, hfold⟩
      · exact hconstant l hfold
      · exact hconstant l.negate hfold
      · -- A literal under a sign would have stayed one, so the sign stays on the left too.
        have hfold' : foldUnary op arity operand.fold = .unary op arity operand.fold :=
          foldUnary_eq_unary (fun l hl => hkept l (fold_substitute_of_constant hl)) arity
        rw [fold, hfold', value] at hs
        rw [substitute, fold, hfold] at hs' hconverts
        rw [value] at hs'
        obtain ⟨b, hb, hs⟩ := bind_eq_ok_iff.mp hs
        obtain ⟨b', hb', hs'⟩ := bind_eq_ok_iff.mp hs'
        have hoperand : Action.Converts (.int t) (operand.substitute σ).fold.code :=
          fun l hl => hconverts l (List.mem_append_left _ hl)
        rw [ih hoperand hb hb', hbinds.checked] at hs
        exact Except.ok.inj (hs.symm.trans hs')
  | binary op arity left right ihleft ihright =>
      rw [fold, value] at hs
      rw [substitute, fold] at hs' hconverts
      rw [value] at hs'
      obtain ⟨b, hb, hs⟩ := bind_eq_ok_iff.mp hs
      obtain ⟨c, hc, hs⟩ := bind_eq_ok_iff.mp hs
      obtain ⟨b', hb', hs'⟩ := bind_eq_ok_iff.mp hs'
      obtain ⟨c', hc', hs'⟩ := bind_eq_ok_iff.mp hs'
      have hright : Action.Converts (.int t) (right.substitute σ).fold.code :=
        fun l hl => hconverts l (List.mem_append_left _ (List.mem_append_left _ hl))
      have hleft : Action.Converts (.int t) (left.substitute σ).fold.code :=
        fun l hl => hconverts l (List.mem_append_left _ (List.mem_append_right _ hl))
      rw [ihright hright hb hb', ihleft hleft hc hc', hbinds.checked] at hs
      exact Except.ok.inj (hs.symm.trans hs')

end Formula

/-! ## Programs -/

/-- Compile an equation that is parsed already. -/
def Equation.compile (T : ElementType) (settings : Settings) (equation : Equation)
    (element : String) (parameters : List String) : Except Error (Program T) := do
  checkNames (element :: parameters)
  let code ← equation.analyze element
  Program.assemble T settings element parameters (Action.foldSigns code)

/-- The compilation of a text that can be parsed is that of its equation. -/
theorem Program.compile_of_parse {T : ElementType} {settings : Settings} {text element : String}
    {parameters : List String} {equation : Equation} (h : Equation.parse text = .ok equation) :
    compile T settings text element parameters =
      equation.compile T settings element parameters := by
  rw [compile, h]
  rfl

/-- A program over integers is the bytecode of the folded formula of its tree. -/
theorem Equation.formula_of_compile {t : IntType} {settings : Settings} {e : Expr}
    {element : String} {parameters : List String} {p : Program (.int t)}
    (h : Equation.compile (.int t) settings ⟨e⟩ element parameters = .ok p) :
    ∃ u, e.formula? element = some u ∧ Action.Fits (.int t) parameters u.fold.code ∧
      p.bytecode = .emit (.int t) parameters u.fold.code ∧ p.parameters = parameters ∧
      (element :: parameters).Nodup := by
  obtain ⟨_, -, h⟩ := bind_eq_ok_iff.mp h
  obtain ⟨code, hcode, h⟩ := bind_eq_ok_iff.mp h
  obtain ⟨u, hformula, rfl⟩ := formula_of_analyze hcode
  obtain ⟨hconverts, -, -, ⟨⟨hdistinct, -⟩, -⟩, -⟩ := Program.assemble_eq_ok_iff.mp h
  rw [Formula.foldSigns_code_of_converts hconverts] at h
  obtain ⟨hfits, hbytecode, -, hnames⟩ := Program.assemble_eq_ok h
  exact ⟨u, hformula, hfits, hbytecode, hnames, hdistinct⟩

namespace Session

variable {t : IntType}

/-- A run that succeeds gives the values of the formula whose bytecode the session holds, with
parameters that the literals stand for. -/
theorem execute_eq_of_none {s : Session (.int t)} {p : Program (.int t)} (hs : s.program = some p)
    {parameters : List String} {u : Formula} (hfits : Action.Fits (.int t) parameters u.code)
    (hbytecode : p.bytecode = .emit (.int t) parameters u.code)
    (hnames : p.parameters = parameters) {source destination : List (ElementType.int t).Value}
    {literals : List Literal} {options : RunOptions}
    (h : (s.execute source destination literals options).error = none) :
    ∃ values : List (ElementType.int t).Value,
      literals.map (ElementType.int t).ofLiteral? = values.map some ∧
      values.length = parameters.length ∧
      (∀ x ∈ Bytecode.processed options.limit source,
        ∃ c, (u.job parameters values options.checked).value x = .ok c) ∧
      s.execute source destination literals options =
        .ofPlain destination ((u.job parameters values options.checked).plain 0
          (Bytecode.processed options.limit source)) := by
  have hlength := length_of_execute hs h
  rcases execute_cases hs hlength source destination options with
    ⟨values, hvalues, hrun⟩ | ⟨-, index, text, hrefused⟩
  · have hcount : values.length = parameters.length := by
      have := congrArg List.length hvalues
      rw [List.length_map, List.length_map] at this
      rw [← this, hlength, hnames]
    rw [hrun] at h
    have hplain := Program.run_eq_of_none hfits hbytecode hcount h
    refine ⟨values, hvalues, hcount, ?_, hrun.trans hplain⟩
    rw [hplain] at h
    exact Job.plain_eq_none_iff.mp (Option.map_eq_none_iff.mp h)
  · rw [hrefused] at h
    cases h

/-- The values of literals, one of which is taken out. -/
theorem exists_values_of_split {α : Type} {f : Literal → Option α} {earlier later : List Literal}
    {v : Literal} {values : List α} (h : (earlier ++ v :: later).map f = values.map some) :
    ∃ first a others, values = first ++ a :: others ∧ first.length = earlier.length ∧
      f v = some a ∧ (earlier ++ later).map f = (first ++ others).map some := by
  rw [List.map_append, List.map_cons, eq_comm, List.map_eq_append_iff] at h
  obtain ⟨first, rest, rfl, hfirst, hrest⟩ := h
  obtain ⟨a, others, rfl, ha, hothers⟩ := List.map_eq_cons_iff.mp hrest
  refine ⟨first, a, others, rfl, ?_, ha.symm, ?_⟩
  · simpa using congrArg List.length hfirst
  · rw [List.map_append, List.map_append, hfirst, hothers]

/-- **Parameters and constants agree.** Over integers, take a program whose parameter `k` is bound
to a literal, and the program in whose equation the literal stands in place of `k`, as a number or
as a chain of signs on one, without the parameter. If both runs succeed, they leave the same. -/
theorem execute_substitute {settings settings' : Settings} {e replacement : Expr} {v : Literal}
    {element k : String} {front back : List String} {p q : Program (.int t)}
    {s s' : Session (.int t)} {earlier later : List Literal}
    (hreplacement : replacement.signedLiteral? = some v)
    (hp : Equation.compile (.int t) settings ⟨e⟩ element (front ++ k :: back) = .ok p)
    (hq : Equation.compile (.int t) settings' ⟨e.substitute ⟨k, replacement⟩⟩ element
      (front ++ back) = .ok q)
    (hs : s.program = some p) (hs' : s'.program = some q) (hplace : earlier.length = front.length)
    (source destination : List (ElementType.int t).Value) (options : RunOptions)
    (hsuccess : (s.execute source destination (earlier ++ v :: later) options).error = none)
    (hsuccess' : (s'.execute source destination (earlier ++ later) options).error = none) :
    s.execute source destination (earlier ++ v :: later) options =
      s'.execute source destination (earlier ++ later) options := by
  obtain ⟨u, hu, hfits, hbytecode, hnames, hdistinct⟩ := Equation.formula_of_compile hp
  obtain ⟨u', hu', hfits', hbytecode', hnames', -⟩ := Equation.formula_of_compile hq
  obtain ⟨w, hw, hconstant⟩ := Expr.exists_formula?_of_signedLiteral? element hreplacement
  have hk : k ≠ element ∧ k ∉ front := by
    rw [List.nodup_cons, List.nodup_append] at hdistinct
    obtain ⟨helement, -, -, hapart⟩ := hdistinct
    have hmem : k ∈ k :: back := List.mem_cons_self
    exact ⟨fun hsame => helement (hsame ▸ List.mem_append_right front hmem),
      fun hfront => hapart k hfront k hmem rfl⟩
  have hsubstitute : (e.substitute ⟨k, replacement⟩).formula? element =
      some (u.substitute ⟨k, w⟩) := Expr.formula?_substitute hk.1 hw e hu
  obtain rfl : u.substitute ⟨k, w⟩ = u' := Option.some.inj (hsubstitute.symm.trans hu')
  obtain ⟨values, hvalues, hcount, hok, hplain⟩ :=
    execute_eq_of_none hs hfits hbytecode hnames hsuccess
  obtain ⟨values', hvalues', hcount', hok', hplain'⟩ :=
    execute_eq_of_none hs' hfits' hbytecode' hnames' hsuccess'
  obtain ⟨first, a, others, rfl, hfirst, hv, hothers⟩ := exists_values_of_split hvalues
  obtain rfl : values' = first ++ others :=
    (Option.some_injective _).list_map (hvalues'.symm.trans hothers)
  have hagree : ∀ x ∈ Bytecode.processed options.limit source,
      (u.fold.job (front ++ k :: back) (first ++ a :: others) options.checked).value x =
        ((u.substitute ⟨k, w⟩).fold.job (front ++ back) (first ++ others) options.checked).value
          x := by
    intro x hx
    obtain ⟨c, hc⟩ := hok x hx
    obtain ⟨c', hc'⟩ := hok' x hx
    have hbinds := Environment.binds_append element x hk.2 (hfirst.trans hplace) back a others
      options.checked
    rw [hc, hc']
    rw [Formula.job_value _ element] at hc hc'
    exact congrArg _ (Formula.value_substitute hbinds hconstant
      (Literal.ofLiteral?_eq_some_iff.mp hv) hfits'.converts hc hc')
  rw [hplain, hplain', Job.plain_congr hagree]

/-- `b - -(-k) * x` over bytes, with -128.75 for `k`: the parameter is cut to -128 and reduced to it
again at each minus; the number is signed twice, over 128.75 which does not fit, and then cut.
Without `k` the register of `b` is another one. -/
theorem execute_substitute_leastByte :
    let e : Expr := .binary .sub (.name "b")
      (.binary .mul (.unary .minus (.unary .minus (.name "k"))) (.name "x"))
    let v : Literal := .float 0xC060180000000000#64
    ∃ p q : Program (.int ⟨true, .w8⟩),
      Equation.parse "b - -(-k) * x" = .ok ⟨e⟩ ∧
      Program.compile _ .default "b - -(-k) * x" "x" ["k", "b"] = .ok p ∧
      Equation.compile _ .default ⟨e.substitute ⟨"k", .number v⟩⟩ "x" ["b"] = .ok q ∧
      execute ⟨.default, some p⟩ [3#8] [0#8] [v, .int 10] ⟨1, false, 0⟩ =
        execute ⟨.default, some q⟩ [3#8] [0#8] [.int 10] ⟨1, false, 0⟩ := by
  intro e v
  have hparse : Equation.parse "b - -(-k) * x" = .ok ⟨e⟩ := rfl
  have hcompile : Program.compile (.int ⟨true, .w8⟩) .default "b - -(-k) * x" "x"
      ([] ++ "k" :: ["b"]) = .ok ⟨⟨[0, 1, 3, 3, 9, 1, 8], [0, 0, 0, 0, 0, 1, 0],
        [0#8, 0#8, 0#8, 0#8, 0#8, 0#8, 0#8]⟩, 4, ["k", "b"]⟩ := rfl
  have hcompile' : Equation.compile (.int ⟨true, .w8⟩) .default ⟨e.substitute ⟨"k", .number v⟩⟩ "x"
      ([] ++ ["b"]) = .ok ⟨⟨[0, 2, 9, 1, 8], [0, 0, 0, 0, 0],
        [0#8, 128#8, 0#8, 0#8, 0#8]⟩, 4, ["b"]⟩ := by
    simp only [e, v]
    rfl
  refine ⟨_, _, hparse, hcompile, hcompile', ?_⟩
  have hplace : ([] : List Literal).length = ([] : List String).length := rfl
  rw [Program.compile_of_parse hparse] at hcompile
  exact execute_substitute rfl hcompile hcompile' rfl rfl hplace _ _ _ rfl rfl

end Session

end Elementwise
