import Elementwise.Proofs.Formula.Permitted
import Elementwise.Proofs.Gate
import Elementwise.Proofs.Mistakes

/-!
# The default stack is never exhausted

A tree is at most `Parser.maxHeight` high, the code of its formula needs no more values at a time
than the tree is high, and two more make the depth of a program. That is below the default limit, so
only a lower limit refuses an equation for its depth (`Program.depth_of_compile`). The passes before
the depth analysis report errors of other kinds, one lemma for each.
-/

namespace Elementwise

variable {T : ElementType} {error : Error}

/-! ## Kinds of errors -/

/-- A name that may not be declared is not permitted. -/
theorem kind_of_checkNames {names : List String} (h : checkNames names = .error error) :
    error.kind = .validation := by
  induction names with
  | nil => cases h
  | cons name rest ih =>
      rcases bind_eq_error_iff.mp h with h | ⟨_, -, h⟩
      · unfold checkName at h
        split_ifs at h
        · cases h
          rfl
        · cases h
          rfl
      · exact ih h

/-- Code is refused for the stack only if it is too deep. -/
theorem Action.Refused.of_kind_stack {settings : Settings} {element : String}
    {parameters : List String} {code : List Action}
    (h : Refused T settings element parameters code error) (hkind : error.kind = .stack) :
    ∃ depth : Nat, error = .stackOverflow depth settings.stackLimit ∧
      settings.stackLimit < depth ∧ depth = Depth.peak (deltas code) + 2 := by
  cases h with
  | deep _ _ _ hdepth hdeep => exact ⟨_, rfl, hdeep, hdepth⟩
  | _ => cases hkind

/-! ## Depths of equations -/

/-- The folded code of an equation has at most as many values at a time as trees are high. -/
theorem Equation.peak_le_maxHeight {text element : String} {equation : Equation}
    {code : List Action} (hparse : parse text = .ok equation)
    (h : equation.analyze element = .ok code) :
    Depth.peak (Action.deltas (Action.foldSigns code)) ≤ Parser.maxHeight := by
  obtain ⟨u, -, -, hfolded, hneed⟩ := folded_of_analyze hparse h
  have hpeak := Depth.peak_of_run u.fold.run_deltas_code_alone
  rw [u.need_fold] at hpeak
  rw [hfolded]
  omega

/-- **Depths.** An equation is refused for the stack only if its depth, which is at most two more
than the height of trees, exceeds the limit. -/
theorem Program.depth_of_compile {settings : Settings} {text element : String}
    {parameters : List String} (h : compile T settings text element parameters = .error error)
    (hkind : error.kind = .stack) :
    ∃ depth, error = .stackOverflow depth settings.stackLimit ∧ settings.stackLimit < depth ∧
      depth ≤ Parser.maxHeight + 2 := by
  rcases bind_eq_error_iff.mp h with h | ⟨_, -, h⟩
  · cases (kind_of_checkNames h).symm.trans hkind
  · rcases bind_eq_error_iff.mp h with h | ⟨equation, hparse, h⟩
    · cases (Equation.kind_of_parse h).symm.trans hkind
    · rcases bind_eq_error_iff.mp h with h | ⟨code, hcode, h⟩
      · cases (Equation.kind_of_analyze h).symm.trans hkind
      · obtain ⟨u, -, -, hfolded, -⟩ := Equation.folded_of_analyze hparse hcode
        have hheights := u.fold.run_deltas_code_alone
        rw [← hfolded] at hheights
        have hrefused := (Action.assemble_eq_error_iff hheights).mp h
        obtain ⟨depth, rfl, hdeep, hdepth⟩ := hrefused.of_kind_stack hkind
        have hpeak := Equation.peak_le_maxHeight hparse hcode
        exact ⟨depth, rfl, hdeep, by omega⟩

/-- **The default stack is enough.** Compiling with the default limit never fails for the stack, and
with any limit a program is never refused because it underflows or leaves the wrong number of
values. -/
theorem Session.compile_within_stack (s : Session T) {equation element : String}
    {parameters : List String} (h : (s.compile equation element parameters).1 = .error error) :
    (s.settings.stackLimit = defaultStackLimit → error.kind ≠ .stack) ∧
      (∀ position, error ≠ .stackUnderflow position) ∧
      ∀ remaining, error ≠ .stackImbalance remaining := by
  have hdepth := Program.depth_of_compile h
  refine ⟨fun hlimit hkind => ?_, ?_, ?_⟩
  · obtain ⟨depth, -, hdeep, hbound⟩ := hdepth hkind
    rw [hlimit] at hdeep
    exact absurd (Nat.lt_of_lt_of_le hdeep hbound) (by decide)
  · rintro position rfl
    obtain ⟨depth, heq, -⟩ := hdepth rfl
    cases heq
  · rintro remaining rfl
    obtain ⟨depth, heq, -⟩ := hdepth rfl
    cases heq

/-- A limit of three refuses `x + k` for its depth, which is no underflow. With the default limit an
equation that fails, here for an undeclared name, fails for something else than the stack. -/
theorem Session.compile_within_stack_low :
    (((new (.int ⟨true, .w8⟩)).withStackLimit 3).compile "x + k" "x" ["k"]).1 =
        .error (.stackOverflow 4 3) ∧
      (∀ position, Error.stackOverflow 4 3 ≠ .stackUnderflow position) ∧
      ∃ error, ((new (.int ⟨true, .w8⟩)).compile "x + k" "x" []).1 = .error error ∧
        error.kind ≠ .stack := by
  have hlow : (((new (.int ⟨true, .w8⟩)).withStackLimit 3).compile "x + k" "x" ["k"]).1 =
      .error (.stackOverflow 4 3) := rfl
  have hdefault : ((new (.int ⟨true, .w8⟩)).compile "x + k" "x" []).1 =
      .error (.undefinedVariables ["k"]) := rfl
  exact ⟨hlow, (compile_within_stack _ hlow).2.1, _, hdefault,
    (compile_within_stack _ hdefault).1 rfl⟩

end Elementwise
