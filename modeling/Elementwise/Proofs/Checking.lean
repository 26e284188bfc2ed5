import Elementwise.Proofs.Elements
import Elementwise.Proofs.Integer

/-!
# Checking on and off

Checking can only add faults. Where a computation succeeds with checking on, it succeeds with
checking off and has the same value, and the faults that remain with checking off are those of
operations without a value: quotients by zero and negative powers of integers (`Relaxes`, with
`ElementType.Persists`). This holds of every operation because an operation settles one exact result
in either mode, and it passes from operations to steps, to elements and to whole runs
(`Bytecode.execute_unchecked`).
-/

namespace Elementwise

variable {T : ElementType}

/-! ## Relaxed results -/

/-- The faults that do not depend on checking. -/
def ElementType.Persists : ElementType → OperationFault → Prop
  | .int _, ⟨op, reason⟩ =>
    reason = .divisionByZero ∧ (op = .div ∨ op = .floorDiv ∨ op = .mod) ∨
      reason = .negativeExponent ∧ op = .pow
  | .real _, _ => False

/-- The result `off` relaxes `on`: it is the same if `on` is a value, and it is a fault only of the
kind that remains. -/
structure Relaxes {ε α : Type} (Remains : ε → Prop) (on off : Except ε α) : Prop where
  ok : ∀ a, on = .ok a → off = .ok a
  error : ∀ e, off = .error e → Remains e

namespace Relaxes

variable {ε α β : Type} {Remains : ε → Prop}

/-- A value relaxes itself. -/
theorem of_ok (a : α) : Relaxes Remains (.ok a) (.ok a) :=
  ⟨fun _ h => h, nofun⟩

/-- A value relaxes a fault. -/
theorem of_error_ok (e : ε) (a : α) : Relaxes Remains (.error e) (.ok a) :=
  ⟨nofun, nofun⟩

/-- A fault that remains relaxes itself. -/
theorem of_error {e : ε} (h : Remains e) : Relaxes Remains (.error e : Except ε α) (.error e) := by
  refine ⟨nofun, fun e' he => ?_⟩
  cases he
  exact h

/-- Relaxed steps in sequence. -/
theorem bind {on off : Except ε α} {f g : α → Except ε β} (h : Relaxes Remains on off)
    (hothers : ∀ a, Relaxes Remains (f a) (g a)) : Relaxes Remains (on >>= f) (off >>= g) := by
  constructor
  · intro b hb
    obtain ⟨a, ha, hb⟩ := bind_eq_ok_iff.mp hb
    exact bind_eq_ok_iff.mpr ⟨a, h.ok a ha, (hothers a).ok b hb⟩
  · intro e he
    rcases bind_eq_error_iff.mp he with hfirst | ⟨a, -, he⟩
    · exact h.error e hfirst
    · exact (hothers a).error e he

/-- A relaxed result with the operation named in a fault. -/
theorem blame {Remains : OperationFault → Prop} {op : Operation} {on off : Except Fault α}
    (h : Relaxes (fun reason => Remains ⟨op, reason⟩) on off) :
    Relaxes Remains (op.blame on) (op.blame off) := by
  constructor
  · intro a ha
    rcases on with reason | b
    · cases ha
    · rw [h.ok b rfl]
      exact ha
  · intro e he
    rcases off with reason | b
    · cases he
      exact h.error reason rfl
    · cases he

end Relaxes

/-! ## Operations -/

namespace IntType

variable (t : IntType) {Remains : Fault → Prop}

/-- A result in range settles the same way in both modes. -/
theorem settle_relaxes (n : Int) : Relaxes Remains (t.settle true n) (t.settle false n) := by
  by_cases h : t.Fits n
  · rw [t.settle_of_fits h, t.settle_of_fits h]
    exact .of_ok _
  · rw [t.settle_of_not_fits h, t.settle_of_not_fits h]
    exact .of_error_ok _ _

/-- An operation that settles a result if there is a divisor, and has no value otherwise. -/
theorem relaxes_of_divisor {b : t.Word} {f : Bool → Except Fault t.Word} {n : Int}
    (hdivision : Remains .divisionByZero)
    (hzero : t.toInt b = 0 → ∀ checked, f checked = .error .divisionByZero)
    (hsettle : t.toInt b ≠ 0 → ∀ checked, f checked = t.settle checked n) :
    Relaxes Remains (f true) (f false) := by
  by_cases hb : t.toInt b = 0
  · rw [hzero hb, hzero hb]
    exact .of_error hdivision
  · rw [hsettle hb, hsettle hb]
    exact t.settle_relaxes n

/-- An operation that settles a result if there is a shift count, and overflows otherwise. -/
theorem relaxes_of_shiftCount {b : t.Word} {f : Bool → Except Fault t.Word} {n : Nat → Int}
    (hnone : t.shiftCount? b = none → f true = .error .overflow ∧ ∃ word, f false = .ok word)
    (hsettle : ∀ count, t.shiftCount? b = some count →
      ∀ checked, f checked = t.settle checked (n count)) :
    Relaxes Remains (f true) (f false) := by
  rcases hcount : t.shiftCount? b with _ | count
  · obtain ⟨hon, word, hoff⟩ := hnone hcount
    rw [hon, hoff]
    exact .of_error_ok _ word
  · rw [hsettle count hcount, hsettle count hcount]
    exact t.settle_relaxes _

/-- An operation on one word relaxes to the one without checking. -/
theorem unary_relaxes (op : Operation) (a : t.Word) :
    Relaxes Remains (t.unary op true a) (t.unary op false a) := by
  unfold unary
  split
  case h_1 => exact t.settle_relaxes _
  case h_4 =>
    split
    · exact t.settle_relaxes _
    · exact .of_ok a
  all_goals exact .of_ok _

/-- A power relaxes to the one without checking. -/
theorem power_relaxes (hexponent : Remains .negativeExponent) (a b : t.Word) :
    Relaxes Remains (t.power true a b) (t.power false a b) := by
  by_cases hb : t.toInt b < 0
  · rw [power, power, if_pos hb, if_pos hb]
    exact .of_error hexponent
  · rw [power_eq_settle true a (Int.not_lt.mp hb), power_eq_settle false a (Int.not_lt.mp hb)]
    exact t.settle_relaxes _

/-- An operation on two words relaxes to the one without checking. -/
theorem binary_relaxes (op : Operation) (a b : t.Word) :
    Relaxes (fun reason => ElementType.Persists (.int t) ⟨op, reason⟩) (t.binary op true a b)
      (t.binary op false a b) := by
  have hdivision : ∀ {op}, op = .div ∨ op = .floorDiv ∨ op = .mod →
      ElementType.Persists (.int t) ⟨op, .divisionByZero⟩ := fun h => .inl ⟨rfl, h⟩
  unfold binary
  split
  case h_1 | h_2 | h_3 => exact t.settle_relaxes _
  case h_4 =>
    refine t.relaxes_of_divisor (f := (t.truncDiv · a b)) (hdivision (.inl rfl))
      (fun hb checked => if_pos hb) fun hb checked => truncDiv_eq_settle checked a hb
  case h_5 =>
    refine t.relaxes_of_divisor (f := (t.floorDiv · a b)) (hdivision (.inr (.inl rfl)))
      (fun hb checked => ?_) fun hb checked => floorDiv_eq_settle checked a hb
    rw [floorDiv, truncDiv, if_pos hb, error_bind]
  case h_6 =>
    refine t.relaxes_of_divisor (f := fun _ => t.floorMod a b) (hdivision (.inr (.inr rfl)))
      (fun hb checked => if_pos hb) fun hb checked => floorMod_eq_settle checked a hb
  case h_7 => exact t.power_relaxes (.inr ⟨rfl, rfl⟩) a b
  case h_8 =>
    refine t.relaxes_of_shiftCount (f := (t.shiftLeft · a b)) (fun hnone => ?_)
      fun count hcount checked => shiftLeft_eq_settle checked a hcount
    simp [shiftLeft, hnone]
  case h_9 =>
    refine t.relaxes_of_shiftCount (f := (t.shiftRight · a b)) (fun hnone => ?_)
      fun count hcount checked => shiftRight_eq_settle checked a hcount
    simp [shiftRight, hnone]
  all_goals exact .of_ok _

end IntType

/-- A floating-point result relaxes to itself. -/
theorem Precision.settle_relaxes (p : Precision) {Remains : Fault → Prop} (finite : Bool)
    (result : p.Word) :
    Relaxes Remains (p.settle true finite result) (p.settle false finite result) := by
  unfold settle
  split
  · exact .of_error_ok _ _
  · exact .of_ok _

namespace ElementType

/-- An operation on one element relaxes to the one without checking. -/
theorem unary_relaxes (T : ElementType) (op : Operation) (a : T.Value) :
    Relaxes T.Persists (op.blame (T.unary op true a)) (op.blame (T.unary op false a)) := by
  cases T with
  | int t => exact .blame (t.unary_relaxes op a)
  | real p => exact .blame (p.settle_relaxes _ _)

/-- An operation on two elements relaxes to the one without checking. -/
theorem binary_relaxes (T : ElementType) (op : Operation) (left right : T.Value) :
    Relaxes T.Persists (op.blame (T.binary op true left right))
      (op.blame (T.binary op false left right)) := by
  cases T with
  | int t => exact .blame (t.binary_relaxes op left right)
  | real p => exact .blame (p.settle_relaxes _ _)

end ElementType

/-! ## Steps and elements -/

namespace Step

/-- One step relaxes to the one without checking. -/
theorem act_relaxes (parameters : List T.Value) (x : T.Value) (step : Step T)
    (values : List T.Value) :
    Relaxes T.Persists (step.act parameters true x values)
      (step.act parameters false x values) := by
  match step, values with
  | .element, _ | .parameter _, _ | .constant _, _ => exact .of_ok _
  | .unary _, [] | .binary _, [] | .binary _, [_] => exact .of_ok _
  | .unary op, a :: rest =>
      exact (T.unary_relaxes op a).bind fun value => .of_ok (value :: rest)
  | .binary op, left :: right :: rest =>
      exact (T.binary_relaxes op left right).bind fun value => .of_ok (value :: rest)

/-- Steps relax to those without checking. -/
theorem actAll_relaxes (parameters : List T.Value) (x : T.Value) (steps : List (Step T))
    (values : List T.Value) :
    Relaxes T.Persists (actAll parameters true x steps values)
      (actAll parameters false x steps values) := by
  induction steps generalizing values with
  | nil => exact .of_ok values
  | cons step steps ih => exact (step.act_relaxes parameters x values).bind ih

end Step

namespace Job

/-- The result of a job for an element relaxes to the one without checking. -/
theorem value_relaxes (steps : List (Step T)) (parameters : List T.Value) (x : T.Value) :
    Relaxes T.Persists (Job.value ⟨steps, parameters, true⟩ x)
      (Job.value ⟨steps, parameters, false⟩ x) :=
  (Step.actAll_relaxes parameters x steps []).bind fun values => .of_ok (values.headD T.zero)

variable {on off : Job T}

/-- A job that relaxes another goes at least as far, with the same values. -/
theorem isPrefix_plain {Remains : OperationFault → Prop}
    (h : ∀ x, Relaxes Remains (on.value x) (off.value x)) (index : Nat) (list : List T.Value) :
    (on.plain index list).1 <+: (off.plain index list).1 := by
  induction list generalizing index with
  | nil => exact List.prefix_refl _
  | cons x rest ih =>
      rw [plain, plain]
      rcases hx : on.value x with fault | value
      · exact List.nil_prefix
      · rw [(h x).ok value hx]
        exact List.prefix_cons_inj value |>.mpr (ih (index + 1))

/-- A job that relaxes one without a fault does the same. -/
theorem plain_eq_of_none {Remains : OperationFault → Prop}
    (h : ∀ x, Relaxes Remains (on.value x) (off.value x)) {index : Nat} {list : List T.Value}
    (hnone : (on.plain index list).2 = none) : off.plain index list = on.plain index list := by
  induction list generalizing index with
  | nil => rfl
  | cons x rest ih =>
      rw [plain] at hnone
      rcases hx : on.value x with fault | value
      · rw [hx] at hnone
        cases hnone
      · rw [hx] at hnone
        rw [plain, plain, hx, (h x).ok value hx, ih hnone]

/-- A job that relaxes another faults where the other faults or later, with a fault that remains. -/
theorem fault_of_relaxed {Remains : OperationFault → Prop}
    (h : ∀ x, Relaxes Remains (on.value x) (off.value x)) {index : Nat} {list : List T.Value}
    {fault : ElementFault} (hfault : (off.plain index list).2 = some fault) :
    Remains ⟨fault.operation, fault.reason⟩ ∧
      ∃ other, (on.plain index list).2 = some other ∧ other.index ≤ fault.index := by
  obtain ⟨hindex, x, -, hvalue⟩ := fault_of_plain hfault
  refine ⟨(h x).error _ hvalue, ?_⟩
  rcases hother : (on.plain index list).2 with _ | other
  · rw [plain_eq_of_none h hother, hother] at hfault
    cases hfault
  · have hlength := (isPrefix_plain h index list).length_le
    have hindex' := (fault_of_plain hother).1
    exact ⟨other, rfl, by omega⟩

end Job

/-! ## Runs -/

/-- **Checking only adds faults.** If a run with checking on succeeds, the run with checking off
does the same. If the run with checking on faults, the other one leaves the same before that
element. If the run with checking off faults, then the other one does so no later; and its fault is
a quotient by zero or a negative power of integers, so over floating-point elements there is none.
-/
theorem Bytecode.execute_unchecked (b : Bytecode T) (parameters : List T.Value)
    (memory : Scratch T) (source destination : List T.Value) (lanes limit : Nat) :
    let on := b.execute parameters memory source destination ⟨lanes, true, limit⟩
    let off := b.execute parameters memory source destination ⟨lanes, false, limit⟩
    (on.error = none → off.error = none ∧ off.destination = on.destination) ∧
    (∀ j op reason, on.error = some (.arithmeticFault j op reason) →
      ∀ k < j, off.destination[k]? = on.destination[k]?) ∧
    ∀ i op reason, off.error = some (.arithmeticFault i op reason) →
      T.Persists ⟨op, reason⟩ ∧
        ∃ j op' reason', on.error = some (.arithmeticFault j op' reason') ∧ j ≤ i := by
  intro on off
  rcases b.prepare_cases parameters memory source destination lanes with
    ⟨steps, depth, h⟩ | ⟨e, hother, hexecute⟩
  · have hrelaxes := Job.value_relaxes steps parameters
    have hrun : ∀ checked, b.execute parameters memory source destination ⟨lanes, checked, limit⟩ =
        let result := Job.plain ⟨steps, parameters, checked⟩ 0 (processed limit source)
        ⟨result.1 ++ destination.drop result.1.length,
          result.2.map fun f => .arithmeticFault f.index f.operation f.reason⟩ :=
      fun _ => execute_eq_plain h
    have hon : on = _ := hrun true
    have hoff : off = _ := hrun false
    rw [hon, hoff]
    refine ⟨fun hnone => ?_, fun j op reason herror k hk => ?_, fun i op reason herror => ?_⟩
    · rw [Job.plain_eq_of_none hrelaxes (Option.map_eq_none_iff.mp hnone)]
      exact ⟨hnone, rfl⟩
    · obtain ⟨fault, hfault, heq⟩ := Option.map_eq_some_iff.mp herror
      cases heq
      have hindex := (Job.fault_of_plain hfault).1
      obtain ⟨more, hmore⟩ := Job.isPrefix_plain hrelaxes 0 (processed limit source)
      dsimp only
      rw [← hmore, List.append_assoc, List.getElem?_append_left (by omega),
        List.getElem?_append_left (by omega)]
    · obtain ⟨fault, hfault, heq⟩ := Option.map_eq_some_iff.mp herror
      cases heq
      obtain ⟨hpersists, other, hother, hle⟩ := Job.fault_of_relaxed hrelaxes hfault
      exact ⟨hpersists, _, _, _, Option.map_eq_some_iff.mpr ⟨other, hother, rfl⟩, hle⟩
  · have hon : on = ⟨destination, some e⟩ := hexecute true limit
    have hoff : off = ⟨destination, some e⟩ := hexecute false limit
    rw [hon, hoff]
    refine ⟨nofun, fun _ _ _ _ _ _ => rfl, fun i op reason herror => ?_⟩
    cases herror
    cases hother

/-- Bytecode of `x * x // (x - 5)` over bytes. -/
def Bytecode.ratio : Bytecode (.int ⟨true, .w8⟩) :=
  ⟨[2, 0, 8, 0, 0, 9, 11], [0, 0, 0, 0, 0, 0, 0], [5#8, 0#8, 0#8, 0#8, 0#8, 0#8, 0#8]⟩

/-- Of 3, 100 and 5, with checking on the square of 100 overflows; with checking off it is reduced,
and 5 has no quotient. Over 3 alone the two runs are the same. -/
theorem Bytecode.execute_unchecked_ratio :
    let run := fun checked => ratio.execute [] (.zeros _ 5) [3#8, 100#8, 5#8] [7#8, 7#8, 7#8]
      ⟨1, checked, 0⟩
    run true = ⟨[251#8, 7#8, 7#8], some (.arithmeticFault 1 .mul .overflow)⟩ ∧
      run false = ⟨[251#8, 0#8, 7#8], some (.arithmeticFault 2 .floorDiv .divisionByZero)⟩ ∧
      (run false).destination[0]? = (run true).destination[0]? ∧
      ElementType.Persists (.int ⟨true, .w8⟩) ⟨.floorDiv, .divisionByZero⟩ ∧
      (ratio.execute [] (.zeros _ 5) [3#8] [7#8] ⟨1, false, 0⟩).destination =
        (ratio.execute [] (.zeros _ 5) [3#8] [7#8] ⟨1, true, 0⟩).destination := by
  intro run
  have hon : run true = ⟨[251#8, 7#8, 7#8], some (.arithmeticFault 1 .mul .overflow)⟩ := rfl
  have hoff : run false =
      ⟨[251#8, 0#8, 7#8], some (.arithmeticFault 2 .floorDiv .divisionByZero)⟩ := rfl
  obtain ⟨-, hbefore, hfault⟩ :=
    ratio.execute_unchecked [] (.zeros _ 5) [3#8, 100#8, 5#8] [7#8, 7#8, 7#8] 1 0
  obtain ⟨hsame, -⟩ := ratio.execute_unchecked [] (.zeros _ 5) [3#8] [7#8] 1 0
  refine ⟨hon, hoff, ?_, ?_, ?_⟩
  · exact hbefore _ _ _ (congrArg Outcome.error hon) 0 Nat.one_pos
  · exact (hfault _ _ _ (congrArg Outcome.error hoff)).1
  · exact (hsame rfl).2

end Elementwise
