import Elementwise.Proofs.Formula.Permitted
import Elementwise.Proofs.Substitution

/-!
# Folding signs keeps values

A sign on a literal can be applied before the literal is converted, when a program is compiled, or
to the word after it is converted, when the program runs. For signed types the two agree on what is
written in an equation.

* What is written is not negative. If it converts, its integer fits the type with either sign
  (`Literal.Centered`), and a change of sign keeps this. So every literal that appears while a chain
  is folded converts, and no sign of a chain overflows when it is applied to a word.
* By induction on the formula, folding keeps the value and the first fault (`Formula.value_fold`). A
  sign on anything but a literal stays where it is.
* Folding also keeps what a formula needs on the stack, so the bytecode of both codes passes the
  same checks before a run (`Formula.execute_emit_congr`).

`Expr.foldSigns_faithful` puts these together.
-/

namespace Elementwise

/-! ## Literals -/

namespace Literal

/-- The number of a literal, if it stands for one, is not negative. -/
def Nonnegative (l : Literal) : Prop :=
  ∀ q ∈ l.number?, 0 ≤ q

/-- The integer of a literal fits a type with either sign. -/
def Centered (t : IntType) (l : Literal) : Prop :=
  ∃ n, l.whole? = some n ∧ t.Fits n ∧ t.Fits (-n)

variable {t : IntType} {l : Literal}

/-- A double without the sign bit is not negative. -/
theorem nonnegative_float {x : Double} (h : Precision.double.isNegative x = false) :
    (Literal.float x).Nonnegative := by
  have hfinite (m : ℕ) (e : ℤ) : ∀ q ∈ (Reading.finite false m e).number?, 0 ≤ q := by
    intro q hq
    cases hq
    rw [if_neg Bool.false_ne_true]
    positivity
  intro q hq
  rw [number?, Precision.reading, h] at hq
  split_ifs at hq
  · cases hq
  · cases hq
  · exact hfinite _ _ q hq
  · exact hfinite _ _ q hq

/-- The constants of `math` are not negative. -/
theorem nonnegative_mathConstant {field : String} {x : Double} (h : mathConstant? field = some x) :
    (Literal.float x).Nonnegative := by
  have hall : ∀ entry ∈ mathConstants, Precision.double.isNegative entry.2 = false := by
    decide +kernel
  obtain ⟨before, after, hsplit, -⟩ := List.lookup_eq_some_iff.mp h
  exact nonnegative_float (hall (field, x) (by simp [hsplit]))

/-- A literal that is not negative and converts to a signed type fits it with either sign. -/
theorem Nonnegative.centered (h : l.Nonnegative) (hsigned : t.isSigned = true)
    (hconverts : ∃ a, (ElementType.int t).ofLiteral? l = some a) : l.Centered t := by
  obtain ⟨a, ha⟩ := hconverts
  have hwhole := ofLiteral?_eq_some_iff.mp ha
  obtain ⟨q, hq, hcut⟩ := Option.map_eq_some_iff.mp hwhole
  have hpositive : 0 ≤ t.toInt a := by
    rw [← hcut, towardZero, if_pos (h q hq)]
    exact Int.floor_nonneg.mpr (h q hq)
  refine ⟨t.toInt a, hwhole, t.fits_toInt a, ?_⟩
  have hfits := t.fits_toInt a
  unfold IntType.Fits IntType.least IntType.greatest at hfits ⊢
  rw [if_pos hsigned, if_pos hsigned] at hfits ⊢
  omega

/-- A change of sign keeps a literal centered. -/
theorem Centered.negate (h : l.Centered t) : l.negate.Centered t := by
  obtain ⟨n, hn, hfits, hneg⟩ := h
  refine ⟨-n, by rw [whole?_negate, hn]; rfl, hneg, ?_⟩
  rwa [Int.neg_neg]

/-- A centered literal converts, and a minus on the word gives the word of the literal with the
other sign, whether overflow is checked or not. -/
theorem Centered.unary_negate (h : l.Centered t) :
    ∃ a b, (ElementType.int t).ofLiteral? l = some a ∧
      (ElementType.int t).ofLiteral? l.negate = some b ∧
      ∀ checked, (ElementType.int t).unary .negate checked a = .ok b := by
  obtain ⟨n, hn, hfits, hneg⟩ := h
  refine ⟨t.wrap n, t.wrap (-n), ofLiteral?_eq_some_iff.mpr ?_, ofLiteral?_eq_some_iff.mpr ?_,
    fun checked => ?_⟩
  · rw [hn, t.toInt_wrap hfits]
  · rw [whole?_negate, hn, t.toInt_wrap hneg]
    rfl
  · show t.settle checked (-t.toInt (t.wrap n)) = .ok (t.wrap (-n))
    rw [t.toInt_wrap hfits]
    exact t.settle_of_fits hneg checked

/-- A centered literal is converted. -/
theorem Centered.converts (h : l.Centered t) : ∃ a, (ElementType.int t).ofLiteral? l = some a :=
  let ⟨a, _, ha, _⟩ := h.unary_negate
  ⟨a, ha⟩

end Literal

/-! ## Formulas -/

namespace Formula

/-- All literals of a formula are centered. -/
def Centered (t : IntType) (u : Formula) : Prop :=
  ∀ l, .constant l ∈ u.code → l.Centered t

variable {t : IntType}

/-- The operand of a centered formula is centered. -/
theorem Centered.operand {op : Operation} {arity : op.info.arity = 1} {u : Formula}
    (h : Centered t (.unary op arity u)) : Centered t u :=
  fun l hl => h l (by simp [code, hl])

/-- So are both operands of a centered formula with two. -/
theorem Centered.operands {op : Operation} {arity : op.info.arity = 2} {u v : Formula}
    (h : Centered t (.binary op arity u v)) : Centered t u ∧ Centered t v :=
  ⟨fun l hl => h l (by simp [code, hl]), fun l hl => h l (by simp [code, hl])⟩

/-- A sign that is folded into a literal keeps it centered. -/
theorem Centered.foldUnary {operand : Formula} (h : operand.Centered t) (op : Operation)
    (arity : op.info.arity = 1) : (foldUnary op arity operand).Centered t := by
  intro l hl
  rcases foldUnary_cases op arity operand with
    ⟨value, rfl, ⟨-, hfold⟩ | ⟨-, hfold⟩⟩ | ⟨-, hfold⟩
  · rw [hfold] at hl
    exact h l hl
  · rw [hfold, code, List.mem_singleton] at hl
    cases hl
    exact (h value (List.mem_singleton_self _)).negate
  · rw [hfold, code, List.mem_append, List.mem_singleton] at hl
    exact h l (hl.resolve_right nofun)

/-- Folding signs keeps literals centered. -/
theorem Centered.fold {u : Formula} (h : u.Centered t) : u.fold.Centered t := by
  induction u with
  | element | parameter _ | constant _ => exact h
  | unary op arity operand ih => exact (ih h.operand).foldUnary op arity
  | binary op arity left right ihleft ihright =>
      intro l hl
      rw [Formula.fold, code, List.mem_append, List.mem_append, List.mem_singleton] at hl
      rcases hl with (hl | hl) | hl
      · exact ihright h.operands.2 l hl
      · exact ihleft h.operands.1 l hl
      · cases hl

variable (env : Environment (.int t))

/-- **One sign.** A sign that is folded into a centered literal gives what it gives on the word. -/
theorem value_foldUnary {operand : Formula} (h : operand.Centered t) (op : Operation)
    (arity : op.info.arity = 1) :
    (foldUnary op arity operand).value env = (Formula.unary op arity operand).value env := by
  rcases foldUnary_cases op arity operand with
    ⟨l, rfl, ⟨rfl, hfold⟩ | ⟨rfl, hfold⟩⟩ | ⟨-, hfold⟩
  · rw [hfold]
    rfl
  · obtain ⟨a, b, ha, hb, hnegate⟩ := (h l (List.mem_singleton_self _)).unary_negate
    rw [hfold, value, value, value, ha, hb, ok_bind, Option.getD_some, Option.getD_some, hnegate]
    rfl
  · rw [hfold]

/-- **Signs.** Where all literals are centered, a formula and the formula with its signs folded have
the same value, or the same first fault. -/
theorem value_fold {u : Formula} (h : u.Centered t) : u.fold.value env = u.value env := by
  induction u with
  | element | parameter _ | constant _ => rfl
  | unary op arity operand ih =>
      rw [fold, value_foldUnary env h.operand.fold, value, value, ih h.operand]
  | binary op arity left right ihleft ihright =>
      rw [fold, value, value, ihleft h.operands.1, ihright h.operands.2]

/-! ### Code -/

/-- Folding signs brings in nothing but literals. -/
theorem mem_code_of_mem_fold {u : Formula} {action : Action} (h : action ∈ u.fold.code) :
    action ∈ u.code ∨ ∃ l, action = .constant l := by
  induction u with
  | element | parameter _ | constant _ => exact .inl h
  | unary op arity operand ih =>
      rw [fold] at h
      rcases foldUnary_cases op arity operand.fold with
        ⟨l, -, ⟨-, hfold⟩ | ⟨-, hfold⟩⟩ | ⟨-, hfold⟩
      · rw [hfold, code, List.mem_singleton] at h
        exact .inr ⟨_, h⟩
      · rw [hfold, code, List.mem_singleton] at h
        exact .inr ⟨_, h⟩
      · rw [hfold, code, List.mem_append] at h
        rw [code, List.mem_append]
        rcases h with h | h
        · exact (ih h).imp_left .inl
        · exact .inl (.inr h)
  | binary op arity left right ihleft ihright =>
      rw [fold, code, List.mem_append, List.mem_append] at h
      rw [code, List.mem_append, List.mem_append]
      rcases h with (h | h) | h
      · exact (ihright h).imp_left fun hmem => .inl (.inl hmem)
      · exact (ihleft h).imp_left fun hmem => .inl (.inr hmem)
      · exact .inl (.inr h)

/-- Folding signs keeps every parameter. -/
theorem parameter_mem_fold {u : Formula} {name : String} (h : .parameter name ∈ u.code) :
    .parameter name ∈ u.fold.code := by
  induction u with
  | element | parameter _ | constant _ => exact h
  | unary op arity operand ih =>
      have hoperand : .parameter name ∈ operand.fold.code := ih (by simpa [code] using h)
      rw [fold]
      rcases foldUnary_cases op arity operand.fold with ⟨l, hl, -⟩ | ⟨-, hfold⟩
      · rw [hl] at hoperand
        simp [code] at hoperand
      · rw [hfold, code]
        exact List.mem_append_left _ hoperand
  | binary op arity left right ihleft ihright =>
      have hoperands : .parameter name ∈ right.code ∨ .parameter name ∈ left.code := by
        simpa [code] using h
      rw [fold, code, List.mem_append, List.mem_append]
      exact .inl (hoperands.imp ihright ihleft)

/-- Code that fits a type and parameters still does when its signs are folded, if the literals still
convert. -/
theorem fits_fold {T : ElementType} {names : List String} {u : Formula}
    (h : Action.Fits T names u.code) (hconverts : Action.Converts T u.fold.code) :
    Action.Fits T names u.fold.code where
  converts := hconverts
  legal := by
    intro action haction
    rcases mem_code_of_mem_fold haction with hmem | ⟨l, rfl⟩
    · exact h.legal action hmem
    · cases T.family <;> exact ⟨_, rfl⟩
  declared := by
    intro name hname
    rcases mem_code_of_mem_fold hname with hmem | ⟨l, hl⟩
    · exact h.declared name hmem
    · cases hl
  read := fun name hname => parameter_mem_fold (h.read name hname)
  nodup := h.nodup

/-! ### Runs -/

section runs

variable {T : ElementType} {names : List String} {u v : Formula} {values : List T.Value}

/-- The checks before a run see of a formula's code only what the formula needs. -/
theorem prepare_emit_congr (hu : Action.Fits T names u.code) (hv : Action.Fits T names v.code)
    (hneed : v.need = u.need) (hvalues : values.length = names.length) (memory : Scratch T)
    (source destination : List T.Value) (lanes : Nat) :
    (Bytecode.emit T names v.code).prepare values memory source destination lanes =
      ((Bytecode.emit T names u.code).prepare values memory source destination lanes).map
        fun prepared => (v.code.map (Action.step T names), prepared.2) := by
  have hrequired : Depth.required sizeLimit (Action.deltas v.code) =
      Depth.required sizeLimit (Action.deltas u.code) := by
    unfold Depth.required
    rw [u.run_deltas_code_alone, v.run_deltas_code_alone, hneed]
  have hlengths (w : Formula) : ¬((Bytecode.emit T names w.code).codes.length ≠
        (Bytecode.emit T names w.code).registers.length ∨
      (Bytecode.emit T names w.code).codes.length ≠
        (Bytecode.emit T names w.code).constants.length) := by
    simp [Bytecode.emit]
  unfold Bytecode.prepare
  rw [if_neg (hlengths u), if_neg (hlengths v), hvalues, hu.decode_emit u.proper_code,
    hv.decode_emit v.proper_code, ok_bind, ok_bind, Action.deltas_step T names u.proper_code,
    Action.deltas_step T names v.proper_code, hrequired]
  split_ifs
  · rfl
  · rfl
  · rcases Depth.required sizeLimit (Action.deltas u.code) with e | depth
    · rfl
    · rw [ok_bind, ok_bind]
      split_ifs
      · rfl
      · rcases Bytecode.inadmissible? 0 values with _ | ⟨index, a⟩
        · rfl
        · rfl

/-- Formulas that need the same and have the same values have bytecode that runs the same, on any
arrays and memory. -/
theorem execute_emit_congr (hu : Action.Fits T names u.code) (hv : Action.Fits T names v.code)
    (hneed : v.need = u.need) (hvalues : values.length = names.length) {options : RunOptions}
    (hvalue : ∀ x, (v.job names values options.checked).value x =
      (u.job names values options.checked).value x)
    (memory : Scratch T) (source destination : List T.Value) :
    (Bytecode.emit T names v.code).execute values memory source destination options =
      (Bytecode.emit T names u.code).execute values memory source destination options := by
  have hprepare := prepare_emit_congr hu hv hneed hvalues memory source destination options.lanes
  rcases hprepared : (Bytecode.emit T names u.code).prepare values memory source destination
    options.lanes with e | ⟨steps, depth⟩
  · rw [hprepared] at hprepare
    rw [Bytecode.execute, Bytecode.execute, hprepare, hprepared]
    rfl
  · rw [hprepared] at hprepare
    have hfirst := Bytecode.prepare_eq_ok_iff.mp hprepared
    have hsteps : steps = u.code.map (Action.step T names) := by
      have hdecoded := hfirst.decoded
      rw [hvalues, hu.decode_emit u.proper_code] at hdecoded
      exact (Except.ok.inj hdecoded).symm
    subst hsteps
    rw [Bytecode.execute_eq_plain hfirst,
      Bytecode.execute_eq_plain (Bytecode.prepare_eq_ok_iff.mp hprepare)]
    have hplain : (v.job names values options.checked).plain 0
          (Bytecode.processed options.limit source) =
        (u.job names values options.checked).plain 0 (Bytecode.processed options.limit source) :=
      Job.plain_congr (fun x _ => hvalue x) 0
    unfold job at hplain
    rw [hplain]

end runs

end Formula

/-- **Folding is faithful.** In a permitted tree without negative literals, if the literals convert
to a signed type, they also do when the signs are folded. For every element, parameters and either
way of treating overflow, both codes then give the same value or the same first fault. Where the
code can be run, both have bytecode that runs the same over any arrays. -/
theorem Expr.foldSigns_faithful {t : IntType} (hsigned : t.isSigned = true) {element : String}
    {e : Expr} (hpermitted : e.Permitted element)
    (hwritten : ∀ l, .number l ∈ e.visits (fun _ => true) → l.Nonnegative) :
    ∃ raw, e.actions element = .ok raw ∧
      ∀ constants, Action.constantValues (.int t) raw = .ok constants →
        (∃ folded, Action.constantValues (.int t) (Action.foldSigns raw) = .ok folded) ∧
        (∀ names (values : List (ElementType.int t).Value) checked x,
          Job.value ⟨(Action.foldSigns raw).map (Action.step (.int t) names), values, checked⟩ x =
            Job.value ⟨raw.map (Action.step (.int t) names), values, checked⟩ x) ∧
        ∀ names (values : List (ElementType.int t).Value), Action.Fits (.int t) names raw →
          values.length = names.length → ∀ memory source destination options,
          (Bytecode.emit (.int t) names (Action.foldSigns raw)).execute values memory source
              destination options =
            (Bytecode.emit (.int t) names raw).execute values memory source
              destination options := by
  obtain ⟨u, hu⟩ := exists_formula?_of_permitted e hpermitted
  refine ⟨u.code, (analyzed_of_formula? e hu).actions, fun constants hconstants => ?_⟩
  have hconverts := (Action.constantValues_eq_ok_iff.mp hconstants).1
  have hcentered : u.Centered t := by
    intro l hl
    have hnonnegative : l.Nonnegative := by
      rcases e.constant_of_formula? hu hl with hnumber | ⟨field, x, hx, rfl⟩
      · exact hwritten l hnumber
      · exact Literal.nonnegative_mathConstant hx
    exact hnonnegative.centered hsigned (hconverts l hl)
  have hfolded : Action.foldSigns u.code = u.fold.code := by
    refine Formula.foldSigns_code fun l hl => ?_
    have hsigned : ∃ a, (ElementType.int t).ofLiteral? (Action.signed l []) = some a :=
      hconverts l hl
    exact Literal.negate_negate_of_converts hsigned
  have hconverts' : Action.Converts (.int t) u.fold.code := fun l hl =>
    (hcentered.fold l hl).converts
  have hvalue (names : List String) (values : List (ElementType.int t).Value) (checked : Bool)
      (x : (ElementType.int t).Value) :
      (u.fold.job names values checked).value x = (u.job names values checked).value x := by
    rw [Formula.job_value _ element, Formula.job_value _ element, Formula.value_fold _ hcentered]
  rw [hfolded]
  refine ⟨⟨_, Action.constantValues_eq_ok_iff.mpr ⟨hconverts', rfl⟩⟩, hvalue, ?_⟩
  intro names values hfits hvalues memory source destination options
  exact Formula.execute_emit_congr hfits (Formula.fits_fold hfits hconverts') u.need_fold hvalues
    (fun x => hvalue names values options.checked x) memory source destination

/-- `-x + -(+3.9)` over bytes: the signs on the literal are folded, and the one on the element is
not. At -128 that one overflows in both codes. -/
theorem Expr.foldSigns_faithful_least :
    ∃ raw, actions "x" (.binary .add (.unary .minus (.name "x"))
        (.unary .minus (.unary .plus (.number (.float 0x400F333333333333#64))))) = .ok raw ∧
      Action.foldSigns raw = [.constant (.float 0xC00F333333333333#64), .element, .apply .negate,
        .apply .add] ∧
      Job.value ⟨raw.map (Action.step (.int ⟨true, .w8⟩) []), [], true⟩ (-128#8) =
        .error ⟨.negate, .overflow⟩ ∧
      Job.value ⟨(Action.foldSigns raw).map (Action.step (.int ⟨true, .w8⟩) []), [], true⟩
          (-128#8) =
        .error ⟨.negate, .overflow⟩ := by
  have hpermitted : Permitted "x" (.binary .add (.unary .minus (.name "x"))
      (.unary .minus (.unary .plus (.number (.float 0x400F333333333333#64))))) :=
    ⟨.inl rfl, trivial⟩
  have hwritten : ∀ l, .number l ∈ visits (fun _ => true) (.binary .add (.unary .minus (.name "x"))
      (.unary .minus (.unary .plus (.number (.float 0x400F333333333333#64))))) →
      l.Nonnegative := by
    intro l hl
    obtain rfl : l = .float 0x400F333333333333#64 := by simpa [visits] using hl
    exact Literal.nonnegative_float (by decide +kernel)
  obtain ⟨raw, hraw, hfolded⟩ := foldSigns_faithful (t := ⟨true, .w8⟩) rfl hpermitted hwritten
  have hcode : [.constant (.float 0x400F333333333333#64), .apply .plus, .apply .negate, .element,
      .apply .negate, .apply .add] = raw := Except.ok.inj hraw
  subst hcode
  have hconstants : Action.constantValues (.int ⟨true, .w8⟩)
      [.constant (.float 0x400F333333333333#64), .apply .plus, .apply .negate, .element,
        .apply .negate, .apply .add] = .ok [3#8, 0#8, 0#8, 0#8, 0#8, 0#8] := by decide +kernel
  have hfault : Job.value ⟨[.constant (.float 0x400F333333333333#64), .apply .plus, .apply .negate,
      .element, .apply .negate, .apply .add].map (Action.step (.int ⟨true, .w8⟩) []), [], true⟩
        (-128#8) = .error ⟨.negate, .overflow⟩ := by decide +kernel
  exact ⟨_, hraw, by decide +kernel, hfault, ((hfolded _ hconstants).2.1 _ _ _ _).trans hfault⟩

end Elementwise
