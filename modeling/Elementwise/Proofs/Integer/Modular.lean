import Elementwise.Proofs.Integer.Exact
import Elementwise.Proofs.Runs

/-!
# Unchecked arithmetic is exact modulo a power of two

`Expr.integer` gives an expression its value over all integers. Of polynomials, the expressions
built by sums, differences, products, signs, complements and powers with fixed exponents, an
evaluation without checking computes this value modulo `2 ^ bits`. Each operation respects
congruence (`IntType.unary_modEq`, `IntType.binary_modEq`, `IntType.power_modEq`), so it does not
matter how often results are reduced on the way, nor where. Exponents are not reduced: they are
literals, which are converted as they are. The congruences are carried through an expression by
`Expr.IsPolynomial.value_modEq`, and to runs of programs by `Program.run_modEq`.
-/

namespace Elementwise

/-! ## Operators -/

/-- The value of an operator over all integers; a negation of truth is left out. -/
def UnaryOp.integer : UnaryOp → ℤ → ℤ
  | .plus, a => a
  | .minus, a => -a
  | .invert, a => -a - 1
  | .not, _ => 0

/-- Sums, differences and products. -/
def BinaryOp.isRing : BinaryOp → Bool
  | .add | .sub | .mul => true
  | _ => false

/-- The value of an operator over all integers; only sums, differences, products and powers count.
-/
def BinaryOp.integer : BinaryOp → ℤ → ℤ → ℤ
  | .add, a, b => a + b
  | .sub, a, b => a - b
  | .mul, a, b => a * b
  | .pow, a, b => a ^ b.toNat
  | _, _, _ => 0

namespace IntType

variable {t : IntType} {a b : t.Word} {m n : ℤ}

/-- A result that settles without checking is congruent to what it settles. -/
theorem settle_modEq {result : Except Fault t.Word} (hresult : result = t.settle false m)
    (h : m ≡ n [ZMOD 2 ^ t.bits]) : ∃ c, result = .ok c ∧ t.toInt c ≡ n [ZMOD 2 ^ t.bits] := by
  refine ⟨t.wrap m, hresult.trans (settle_false m), ?_⟩
  have hwrap : t.toInt (t.wrap m) ≡ m [ZMOD 2 ^ t.bits] := t.toInt_wrap_emod m
  exact hwrap.trans h

/-- The complement of a word is the word of the complement. -/
theorem not_eq_wrap (a : t.Word) : ~~~a = t.wrap (-t.toInt a - 1) := by
  have hneg : t.wrap (-t.toInt a - 1) = -t.wrap (t.toInt a) - 1#t.bits := by
    simp [wrap, Int.sub_eq_add_neg, BitVec.ofInt_add, BitVec.ofInt_neg, BitVec.sub_eq_add_neg]
  rw [hneg, wrap_toInt, BitVec.neg_eq_not_add, BitVec.add_sub_cancel]

/-- **Operators on one word** respect congruence. -/
theorem unary_modEq {op : UnaryOp} (hop : op ≠ .not) (ha : t.toInt a ≡ m [ZMOD 2 ^ t.bits]) :
    ∃ c, t.unary op.operation false a = .ok c ∧
      t.toInt c ≡ op.integer m [ZMOD 2 ^ t.bits] := by
  cases op with
  | plus => exact ⟨a, rfl, ha⟩
  | minus => exact settle_modEq rfl ha.neg
  | invert =>
      refine ⟨~~~a, rfl, ?_⟩
      rw [not_eq_wrap]
      exact (t.toInt_wrap_emod _).trans (ha.neg.sub_right 1)
  | not => exact absurd rfl hop

/-- **Sums, differences and products** respect congruence. -/
theorem binary_modEq {op : BinaryOp} (hop : op.isRing = true)
    (ha : t.toInt a ≡ m [ZMOD 2 ^ t.bits]) (hb : t.toInt b ≡ n [ZMOD 2 ^ t.bits]) :
    ∃ c, t.binary op.operation false a b = .ok c ∧
      t.toInt c ≡ op.integer m n [ZMOD 2 ^ t.bits] := by
  cases op with
  | add => exact settle_modEq rfl (ha.add hb)
  | sub => exact settle_modEq rfl (ha.sub hb)
  | mul => exact settle_modEq rfl (ha.mul hb)
  | _ => exact absurd hop Bool.false_ne_true

/-- **Powers** respect congruence of the base. -/
theorem power_modEq (ha : t.toInt a ≡ m [ZMOD 2 ^ t.bits]) (hb : 0 ≤ t.toInt b) :
    ∃ c, t.binary .pow false a b = .ok c ∧
      t.toInt c ≡ m ^ (t.toInt b).toNat [ZMOD 2 ^ t.bits] :=
  settle_modEq (power_eq_settle false a hb) (ha.pow _)

end IntType

/-! ## Results -/

/-- A result that is no fault stays as it is. -/
theorem Operation.exists_blame {α : Type} {op : Operation} {result : Except Fault α} {P : α → Prop}
    (h : ∃ a, result = .ok a ∧ P a) : ∃ a, op.blame result = .ok a ∧ P a := by
  obtain ⟨a, rfl, ha⟩ := h
  exact ⟨a, rfl, ha⟩

namespace Evaluation

variable {α β : Type}

theorem exists_ok_of_ofOption {value : Option α} {result : Except OperationFault α}
    (h : ofOption value = of result) : ∃ a, value = some a ∧ result = .ok a := by
  rcases value with _ | a
  · cases h
  · exact ⟨a, rfl, (of_eq_of_iff.mp h).symm⟩

/-- An evaluation in steps that has a result has one for its first step. -/
theorem exists_of_bind {first : Evaluation α} {others : α → Evaluation β}
    {result : Except OperationFault β} (h : (first >>= others) = of result) :
    ∃ r, first = of r ∧ ∀ a, r = .ok a → others a = of result := by
  rcases first with _ | r
  · cases h
  · refine ⟨r, rfl, ?_⟩
    rintro a rfl
    exact h

end Evaluation

/-! ## Expressions -/

namespace Expr

variable {t : IntType}

/-- The value of an expression over all integers, where the element and the parameters are what
their words stand for. -/
def integer (env : Environment (.int t)) : Expr → ℤ
  | .name word =>
    if word = env.element then t.toInt env.x
    else (env.values[env.names.idxOf word]?.map t.toInt).getD 0
  | .unary op operand => op.integer (operand.integer env)
  | .binary op left right => op.integer (left.integer env) (right.integer env)
  | e => (e.literal?.bind Literal.whole?).getD 0

/-- Polynomials: built from names and whole numbers by signs, complements, sums, differences,
products and powers. The exponent of a power is a literal that is not negative. -/
inductive IsPolynomial : Expr → Prop
  | number (n : ℤ) : IsPolynomial (.number (.int n))
  | name (word : String) : IsPolynomial (.name word)
  | unary {op : UnaryOp} {operand : Expr} (hop : op ≠ .not) (hoperand : operand.IsPolynomial) :
      IsPolynomial (.unary op operand)
  | binary {op : BinaryOp} {left right : Expr} (hop : op.isRing = true)
      (hleft : left.IsPolynomial) (hright : right.IsPolynomial) :
      IsPolynomial (.binary op left right)
  | power {base exponent : Expr} {n : ℕ} (hbase : base.IsPolynomial)
      (hexponent : exponent.signedLiteral? = some (.int n)) :
      IsPolynomial (.binary .pow base exponent)

/-- A chain of signs has the integer of its signed literal. -/
theorem integer_of_signedLiteral? (env : Environment (.int t)) {e : Expr} {l : Literal}
    (h : e.signedLiteral? = some l) : e.integer env = l.whole?.getD 0 := by
  fun_induction signedLiteral? e generalizing l with
  | case1 operand ih => exact ih h
  | case2 operand ih =>
      obtain ⟨l', hl', rfl⟩ := Option.map_eq_some_iff.mp h
      rw [integer, ih hl', Literal.whole?_negate]
      cases l'.whole? <;> rfl
  | case3 e hplus hminus =>
      unfold literal? at h
      split at h
      · cases h
        rfl
      · rename_i base field
        rw [integer, literal?, h]
        · rfl
        all_goals exact nofun
      · cases h

/-- A chain of signs has the value of its signed literal. -/
theorem value_of_signedLiteral? {T : ElementType} (env : Environment T) {e : Expr} {l : Literal}
    (h : e.signedLiteral? = some l) : e.value env = env.literal l := by
  cases e with
  | number l' =>
      cases h
      rw [value]
  | member root field =>
      rw [signedLiteral?] at h
      · rw [value, h]
      · exact nofun
      · exact nofun
  | unary op operand => rw [value, h]
  | quoted _ | name _ | binary _ _ _ | call _ _ | conditional _ _ _ => cases h

variable {env : Environment (.int t)}

/-- A literal that has a result is the word of its integer. -/
theorem exists_ok_of_literal {l : Literal} {result : Except OperationFault t.Word}
    (h : env.literal l = .of result) : ∃ a, result = .ok a ∧ l.whole? = some (t.toInt a) := by
  obtain ⟨a, ha, rfl⟩ := Evaluation.exists_ok_of_ofOption h
  exact ⟨a, rfl, Literal.ofLiteral?_eq_some_iff.mp ha⟩

/-- **Congruence.** A polynomial that is evaluated without checking has no fault, and its value is
congruent to its integer. -/
theorem IsPolynomial.value_modEq (hchecked : env.checked = false) {e : Expr} (h : e.IsPolynomial)
    {result : Except OperationFault t.Word} (hvalue : e.value env = .of result) :
    ∃ c, result = .ok c ∧ t.toInt c ≡ e.integer env [ZMOD 2 ^ t.bits] := by
  induction h generalizing result with
  | number n =>
      rw [value] at hvalue
      obtain ⟨a, rfl, ha⟩ := exists_ok_of_literal hvalue
      refine ⟨a, rfl, ?_⟩
      rw [integer_of_signedLiteral? env rfl, ha]
      rfl
  | name word =>
      rw [value, Environment.lookup] at hvalue
      rw [integer]
      by_cases hword : word = env.element
      · rw [if_pos hword] at hvalue ⊢
        cases hvalue
        exact ⟨env.x, rfl, Int.ModEq.refl _⟩
      · rw [if_neg hword] at hvalue ⊢
        obtain ⟨a, ha, rfl⟩ := Evaluation.exists_ok_of_ofOption hvalue
        exact ⟨a, rfl, by rw [ha]; rfl⟩
  | @unary op operand hop hoperand ih =>
      rcases hchain : (Expr.unary op operand).signedLiteral? with _ | l
      · rw [value, hchain] at hvalue
        obtain ⟨r, hr, hothers⟩ := Evaluation.exists_of_bind hvalue
        obtain ⟨a, rfl, ha⟩ := ih hr
        have hresult := Evaluation.of_eq_of_iff.mp (hothers a rfl)
        rw [← hresult, hchecked]
        exact Operation.exists_blame (IntType.unary_modEq hop ha)
      · rw [value_of_signedLiteral? env hchain] at hvalue
        obtain ⟨a, rfl, ha⟩ := exists_ok_of_literal hvalue
        refine ⟨a, rfl, ?_⟩
        rw [integer_of_signedLiteral? env hchain, ha]
        rfl
  | binary hop hleft hright ihleft ihright =>
      rw [value] at hvalue
      obtain ⟨r, hr, hothers⟩ := Evaluation.exists_of_bind hvalue
      obtain ⟨b, rfl, hb⟩ := ihright hr
      obtain ⟨r, hr, hothers⟩ := Evaluation.exists_of_bind (hothers b rfl)
      obtain ⟨a, rfl, ha⟩ := ihleft hr
      have hresult := Evaluation.of_eq_of_iff.mp (hothers a rfl)
      rw [← hresult, hchecked]
      exact Operation.exists_blame (IntType.binary_modEq hop ha hb)
  | @power base exponent n hbase hexponent ih =>
      rw [value, value_of_signedLiteral? env hexponent] at hvalue
      obtain ⟨r, hr, hothers⟩ := Evaluation.exists_of_bind hvalue
      obtain ⟨b, rfl, hb⟩ := exists_ok_of_literal hr
      obtain ⟨r, hr, hothers⟩ := Evaluation.exists_of_bind (hothers b rfl)
      obtain ⟨a, rfl, ha⟩ := ih hr
      have hresult := Evaluation.of_eq_of_iff.mp (hothers a rfl)
      have hn : t.toInt b = n := by
        rw [Literal.whole?_int] at hb
        exact (Option.some.inj hb).symm
      rw [← hresult, hchecked, integer, integer_of_signedLiteral? env hexponent, hb]
      exact Operation.exists_blame (IntType.power_modEq ha (by omega))

end Expr

/-! ## Programs -/

/-- **Exact modulo a power of two.** Without checking, a run of a compiled polynomial over integers
never faults, and every element it writes is congruent to the integer that the polynomial has there.
-/
theorem Program.run_modEq {t : IntType} {settings : Settings} {equation element : String}
    {parameters : List String} {p : Program (.int t)}
    (h : compile (.int t) settings equation element parameters = .ok p) :
    ∃ e, Equation.parse equation = .ok ⟨e⟩ ∧ (e.IsPolynomial →
      ∀ (values source destination : List (ElementType.int t).Value) (options : RunOptions),
        values.length = parameters.length → source.length = destination.length →
        options.checked = false →
        let o := p.run values source destination options
        o.error = none ∧ ∀ (i : ℕ) (x : (ElementType.int t).Value),
          (Bytecode.processed options.limit source)[i]? = some x →
          ∃ c, o.destination[i]? = some c ∧
            t.toInt c ≡ e.integer ⟨element, x, parameters, values, false⟩ [ZMOD 2 ^ t.bits]) := by
  obtain ⟨e, u, hcompiled⟩ := exists_compiled h
  refine ⟨e, hcompiled.parsed, ?_⟩
  intro hpolynomial values source destination options hvalues harrays hchecked o
  have hdefined : u.fold.Defined (.int t) parameters :=
    ⟨hcompiled.fits.converts, hcompiled.fits.declared⟩
  have hjob : ∀ x, ∃ c, (u.fold.job parameters values false).value x = .ok c ∧
      t.toInt c ≡ e.integer ⟨element, x, parameters, values, false⟩ [ZMOD 2 ^ t.bits] := by
    intro x
    rw [u.fold.job_value element]
    exact hpolynomial.value_modEq rfl (e.value_of_formula? hvalues hcompiled.formula hdefined)
  have hrun := hcompiled.run_eq (hcompiled.names ▸ hvalues) (fun _ _ => rfl) harrays options
  rw [hchecked] at hrun
  have hvalue : ∀ x ∈ Bytecode.processed options.limit source,
      ∃ c, (u.fold.job parameters values false).value x = .ok c := by
    intro x _
    obtain ⟨c, hc, -⟩ := hjob x
    exact ⟨c, hc⟩
  obtain ⟨hnone, hwritten⟩ := Outcome.ofPlain_of_values hvalue destination
  rw [← hrun] at hnone hwritten
  refine ⟨hnone, fun i x hx => ?_⟩
  obtain ⟨c, hc, hmod⟩ := hjob x
  obtain ⟨c', hwritten, hc'⟩ := hwritten i x hx
  obtain rfl : c' = c := Except.ok.inj (hc'.symm.trans hc)
  exact ⟨c', hwritten, hmod⟩

/-- `~(x * k - 7) ** 3 + -128` over bytes: the product and the cube overflow, and the result is
still right modulo 256. -/
theorem Program.run_modEq_cube :
    ∃ (p : Program (.int ⟨true, .w8⟩)) (e : Expr),
      compile _ .default "~(x * k - 7) ** 3 + -128" "x" ["k"] = .ok p ∧
      Equation.parse "~(x * k - 7) ** 3 + -128" = .ok ⟨e⟩ ∧ e.IsPolynomial ∧
      (p.run [100#8] [100#8, 3#8] [0#8, 0#8] ⟨2, false, 0⟩).error = none ∧
      ∃ c, (p.run [100#8] [100#8, 3#8] [0#8, 0#8] ⟨2, false, 0⟩).destination[0]? = some c ∧
        IntType.toInt ⟨true, .w8⟩ c ≡ -(100 * 100 - 7) ^ 3 - 1 + -128 [ZMOD 2 ^ 8] := by
  have hcompile : compile (.int ⟨true, .w8⟩) .default "~(x * k - 7) ** 3 + -128" "x" ["k"] =
      .ok ⟨⟨[2, 2, 2, 1, 0, 9, 8, 13, 5, 7], [0, 0, 0, 0, 0, 0, 0, 0, 0, 0],
        [128#8, 3#8, 7#8, 0#8, 0#8, 0#8, 0#8, 0#8, 0#8, 0#8]⟩, 7, ["k"]⟩ := rfl
  have hparse : Equation.parse "~(x * k - 7) ** 3 + -128" = .ok ⟨.binary .add
      (.unary .invert (.binary .pow (.binary .sub (.binary .mul (.name "x") (.name "k"))
        (.number (.int 7))) (.number (.int 3)))) (.unary .minus (.number (.int 128)))⟩ := rfl
  obtain ⟨e, he, hrun⟩ := run_modEq hcompile
  cases hparse.symm.trans he
  have hproduct : (Expr.binary .sub (.binary .mul (.name "x") (.name "k"))
      (.number (.int 7))).IsPolynomial :=
    .binary rfl (.binary rfl (.name "x") (.name "k")) (.number 7)
  have hpolynomial : (Expr.binary .add
      (.unary .invert (.binary .pow (.binary .sub (.binary .mul (.name "x") (.name "k"))
        (.number (.int 7))) (.number (.int 3))))
      (.unary .minus (.number (.int 128)))).IsPolynomial :=
    .binary rfl (.unary (by simp) (.power hproduct rfl)) (.unary (by simp) (.number 128))
  obtain ⟨hnone, hwritten⟩ :=
    hrun hpolynomial [100#8] [100#8, 3#8] [0#8, 0#8] ⟨2, false, 0⟩ rfl rfl rfl
  obtain ⟨c, hc, hmod⟩ := hwritten 0 100#8 rfl
  refine ⟨_, _, hcompile, hparse, hpolynomial, hnone, c, hc, ?_⟩
  simp only [Expr.integer, Expr.literal?, Option.bind_some, Literal.whole?_int] at hmod
  exact hmod

end Elementwise
