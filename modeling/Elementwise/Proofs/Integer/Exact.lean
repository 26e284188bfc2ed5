import Elementwise.Proofs.Evaluation
import Elementwise.Proofs.Integer

/-!
# Checked evaluation is exact

`Expr.exact` gives an expression its value over all integers, without words, widths and overflow. An
evaluation with checking on returns exactly this value, and returns it exactly if the values of all
subterms exist and can be represented (`Expr.value_eq_ok_iff`). A chain of signs on a number counts
as one subterm.
-/

namespace Elementwise

/-! ## Numbers -/

/-- A number cut toward zero. -/
def towardZero (q : ℚ) : ℤ :=
  if 0 ≤ q then ⌊q⌋ else ⌈q⌉

/-- Whole numbers are not rounded. -/
theorem towardZero_intCast (n : ℤ) : towardZero n = n := by
  unfold towardZero
  split
  · exact Int.floor_intCast n
  · exact Int.ceil_intCast n

/-- Cutting does not depend on the sign. -/
theorem towardZero_neg (q : ℚ) : towardZero (-q) = -towardZero q := by
  unfold towardZero
  rcases lt_trichotomy q 0 with hneg | rfl | hpos
  · rw [if_pos (by linarith), if_neg (by linarith), Int.floor_neg]
  · simp
  · rw [if_neg (by linarith), if_pos hpos.le, Int.ceil_neg]

namespace Reading

/-- The number that a reading stands for. -/
def number? : Reading → Option ℚ
  | .finite negative m e => some ((if negative then -1 else 1) * m * 2 ^ e)
  | _ => none

/-- The number of a reading with the other sign. -/
theorem number?_negate (r : Reading) : r.negate.number? = r.number?.map (-·) := by
  rcases r with _ | _ | ⟨negative, m, e⟩
  · rfl
  · rfl
  · cases negative <;> simp [negate, number?]

/-- A reading is cut toward zero as the number it stands for. -/
theorem truncate?_eq (r : Reading) : r.truncate? = r.number?.map towardZero := by
  rcases r with _ | _ | ⟨negative, m, e⟩
  · rfl
  · rfl
  · have hwhole : towardZero (m * 2 ^ e) =
        (if 0 ≤ e then m * Nat.pow 2 e.toNat else m / Nat.pow 2 (-e).toNat : ℕ) := by
      by_cases he : 0 ≤ e
      · obtain ⟨k, rfl⟩ := Int.eq_ofNat_of_zero_le he
        have hexact : (m * 2 ^ (k : ℤ) : ℚ) = ((m * 2 ^ k : ℕ) : ℤ) := by push_cast; rfl
        rw [hexact, towardZero_intCast, if_pos he]
        simp
      · obtain ⟨k, rfl⟩ : ∃ k : ℕ, e = -k := ⟨(-e).toNat, by omega⟩
        have hquotient : (m * 2 ^ (-(k : ℤ)) : ℚ) = (m : ℚ) / ((2 ^ k : ℕ) : ℚ) := by
          rw [zpow_neg, zpow_natCast]
          push_cast
          rfl
        rw [towardZero, if_pos (by positivity), hquotient, Rat.floor_natCast_div_natCast,
          if_neg he]
        simp
    cases negative with
    | false => simp [truncate?, number?, hwhole]
    | true => simp [truncate?, number?, towardZero_neg, hwhole]

end Reading

namespace Literal

/-- The number that a literal stands for. -/
def number? : Literal → Option ℚ
  | .int n => some n
  | .float x => (Precision.double.reading x).number?

/-- The integer that a literal stands for, cut toward zero. -/
def whole? (l : Literal) : Option ℤ :=
  l.number?.map towardZero

@[simp] theorem whole?_int (n : ℤ) : (Literal.int n).whole? = some n := by
  simp [whole?, number?, towardZero_intCast]

@[simp] theorem whole?_float (x : Double) :
    (Literal.float x).whole? = (Precision.double.reading x).truncate? :=
  (Reading.truncate?_eq _).symm

/-- A literal with the other sign stands for the negative integer. -/
theorem whole?_negate (l : Literal) : l.negate.whole? = l.whole?.map (-·) := by
  rcases l with n | x
  · by_cases hleast : n = -(intBound : Int)
    · have hbound : (Precision.double.reading (Double.ofInt intBound)).truncate? =
          some (intBound : Int) := by decide +kernel
      rw [negate, if_pos hleast, whole?_float, hbound, hleast]
      simp
    · rw [negate, if_neg hleast]
      simp
  · have hneg (q : ℚ) : towardZero (-q) = -towardZero q := towardZero_neg q
    rw [negate, whole?, number?, Precision.reading_negate, Reading.number?_negate, whole?, number?,
      Option.map_map, Option.map_map]
    exact congrArg (Option.map · _) (funext hneg)

/-- A literal converts to the word that stands for its integer. -/
theorem ofLiteral?_eq_some_iff {t : IntType} {l : Literal} {a : t.Word} :
    (ElementType.int t).ofLiteral? l = some a ↔ l.whole? = some (t.toInt a) := by
  have hword (n : ℤ) : t.ofInt? n = some a ↔ n = t.toInt a := by
    rw [eq_comm (a := n), IntType.toInt_eq_iff, IntType.ofInt?]
    simp
  rcases l with n | x
  · rw [whole?_int, Option.some.injEq, ← hword]
    rfl
  · rw [whole?_float]
    constructor
    · intro h
      obtain ⟨n, hn, hsome⟩ := Option.bind_eq_some_iff.mp h
      rw [hn, (hword n).mp hsome]
    · intro h
      exact Option.bind_eq_some_iff.mpr ⟨_, h, (hword _).mpr rfl⟩

end Literal

/-! ## Operators -/

namespace UnaryOp

/-- The value of an operator over all integers. -/
def exact : UnaryOp → ℤ → Option ℤ
  | .plus, a => some a
  | .minus, a => some (-a)
  | .not, a => some (if a = 0 then 1 else 0)
  | .invert, _ => none

end UnaryOp

namespace BinaryOp

/-- Operators on bits. -/
def isBitwise : BinaryOp → Bool
  | .bitAnd | .bitOr | .bitXor => true
  | _ => false

/-- The value of an operator over all integers, where shifts move fewer than `bits` places. -/
def exact (bits : ℕ) : BinaryOp → ℤ → ℤ → Option ℤ
  | .add, a, b => some (a + b)
  | .sub, a, b => some (a - b)
  | .mul, a, b => some (a * b)
  | .div, a, b => if b = 0 then none else some (a.tdiv b)
  | .floorDiv, a, b => if b = 0 then none else some (a.fdiv b)
  | .mod, a, b => if b = 0 then none else some (a.fmod b)
  | .pow, a, b => if b < 0 then none else some (a ^ b.toNat)
  | .shiftLeft, a, b => if 0 ≤ b ∧ b < bits then some (a * 2 ^ b.toNat) else none
  | .shiftRight, a, b => if 0 ≤ b ∧ b < bits then some (a / 2 ^ b.toNat) else none
  | .eq, a, b => some (if a = b then 1 else 0)
  | .ne, a, b => some (if a ≠ b then 1 else 0)
  | .lt, a, b => some (if a < b then 1 else 0)
  | .le, a, b => some (if a ≤ b then 1 else 0)
  | .gt, a, b => some (if a > b then 1 else 0)
  | .ge, a, b => some (if a ≥ b then 1 else 0)
  | .and, a, b => some (if a ≠ 0 ∧ b ≠ 0 then 1 else 0)
  | .or, a, b => some (if a ≠ 0 ∨ b ≠ 0 then 1 else 0)
  | .bitAnd, _, _ | .bitOr, _, _ | .bitXor, _, _ => none

end BinaryOp

namespace IntType

variable {t : IntType}

/-- A result that settles an integer is a word exactly if the word stands for it. -/
theorem eq_ok_iff_of_settle {result : Except Fault t.Word} {value : Option ℤ} {n : ℤ}
    (hresult : result = t.settle true n) (hvalue : value = some n) {c : t.Word} :
    result = .ok c ↔ value = some (t.toInt c) := by
  rw [hresult, hvalue, settle_true_eq_ok_iff, Option.some.injEq, eq_comm]

/-- A truth value is the word of one or zero. -/
theorem eq_ok_iff_of_truth {b : Bool} {value : Option ℤ}
    (hvalue : value = some (if b then 1 else 0)) {c : t.Word} :
    (.ok (t.truth b) : Except Fault t.Word) = .ok c ↔ value = some (t.toInt c) :=
  eq_ok_iff_of_settle (settle_truth true b).symm hvalue

/-- A fault stands for no value. -/
theorem eq_ok_iff_of_error {result : Except Fault t.Word} {value : Option ℤ} {fault : Fault}
    (hresult : result = .error fault) (hvalue : value = none) {c : t.Word} :
    result = .ok c ↔ value = some (t.toInt c) := by
  simp [hresult, hvalue]

/-- **Operators on one word.** With checking on, the result is a word exactly if the word stands for
the exact value. -/
theorem unary_eq_ok_iff {op : UnaryOp} (h : op ≠ .invert) {a c : t.Word} :
    t.unary op.operation true a = .ok c ↔ op.exact (t.toInt a) = some (t.toInt c) := by
  cases op with
  | plus => exact eq_ok_iff_of_settle (settle_toInt true a).symm rfl
  | minus => exact eq_ok_iff_of_settle rfl rfl
  | invert => exact absurd rfl h
  | not => exact eq_ok_iff_of_truth (by simp [UnaryOp.exact])

/-- The absolute value is exact. -/
theorem abs_eq_ok_iff {a c : t.Word} :
    t.unary .abs true a = .ok c ↔ |t.toInt a| = t.toInt c := by
  have hsettle : t.unary .abs true a = t.settle true |t.toInt a| := by
    by_cases hneg : t.toInt a < 0
    · rw [abs_of_neg hneg]
      exact if_pos hneg
    · rw [abs_of_nonneg (Int.not_lt.mp hneg), settle_toInt]
      exact if_neg hneg
  rw [hsettle, settle_true_eq_ok_iff, eq_comm]

/-- Operators that divide are exact, if one that settles the quotient of other divisors is undefined
for zero. -/
theorem eq_ok_iff_of_divisor {result : Except Fault t.Word} {value : Option ℤ} {b : t.Word} {n : ℤ}
    (hzero : t.toInt b = 0 → result = .error .divisionByZero)
    (hresult : t.toInt b ≠ 0 → result = t.settle true n)
    (hvalue : value = if t.toInt b = 0 then none else some n) {c : t.Word} :
    result = .ok c ↔ value = some (t.toInt c) := by
  by_cases hb : t.toInt b = 0
  · exact eq_ok_iff_of_error (hzero hb) (by rw [hvalue, if_pos hb])
  · exact eq_ok_iff_of_settle (hresult hb) (by rw [hvalue, if_neg hb])

/-- Operators that shift are exact, if one that settles the result for counts in range is undefined
for others. -/
theorem eq_ok_iff_of_shiftCount {result : Except Fault t.Word} {value : Option ℤ} {b : t.Word}
    {f : ℕ → ℤ} (hnone : t.shiftCount? b = none → result = .error .overflow)
    (hresult : ∀ count, t.shiftCount? b = some count → result = t.settle true (f count))
    (hvalue : value = (t.shiftCount? b).map f) {c : t.Word} :
    result = .ok c ↔ value = some (t.toInt c) := by
  rcases hcount : t.shiftCount? b with _ | count
  · exact eq_ok_iff_of_error (hnone hcount) (by rw [hvalue, hcount]; rfl)
  · exact eq_ok_iff_of_settle (hresult count hcount) (by rw [hvalue, hcount]; rfl)

/-- **Operators on two words.** With checking on, the result is a word exactly if the word stands
for the exact value. -/
theorem binary_eq_ok_iff {op : BinaryOp} (h : op.isBitwise = false) {a b c : t.Word} :
    t.binary op.operation true a b = .ok c ↔
      op.exact t.bits (t.toInt a) (t.toInt b) = some (t.toInt c) := by
  cases op with
  | add | sub | mul => exact eq_ok_iff_of_settle rfl rfl
  | div => exact eq_ok_iff_of_divisor (fun hb => if_pos hb) (truncDiv_eq_settle true a) rfl
  | floorDiv =>
      refine eq_ok_iff_of_divisor (fun hb => ?_) (floorDiv_eq_settle true a) rfl
      simp [floorDiv, truncDiv, hb]
  | mod => exact eq_ok_iff_of_divisor (fun hb => if_pos hb) (floorMod_eq_settle true a) rfl
  | pow =>
      by_cases hb : t.toInt b < 0
      · exact eq_ok_iff_of_error (if_pos hb) (if_pos hb)
      · exact eq_ok_iff_of_settle (power_eq_settle true a (Int.not_lt.mp hb)) (if_neg hb)
  | shiftLeft =>
      refine eq_ok_iff_of_shiftCount (fun hnone => ?_) (fun _ => shiftLeft_eq_settle true a) ?_
      · simp [shiftLeft, hnone]
      · rw [shiftCount?, apply_ite (Option.map _)]
        rfl
  | shiftRight =>
      refine eq_ok_iff_of_shiftCount (fun hnone => ?_) (fun _ => shiftRight_eq_settle true a) ?_
      · simp [shiftRight, hnone]
      · rw [shiftCount?, apply_ite (Option.map _)]
        rfl
  | bitAnd | bitOr | bitXor => cases h
  | eq | ne | lt | le | gt | ge | and | or =>
      exact eq_ok_iff_of_truth (by simp [BinaryOp.exact])

end IntType

/-! ## Results -/

namespace Evaluation

variable {α β : Type}

/-- Evaluations with results are equal if the results are. -/
theorem of_eq_of_iff {first second : Except OperationFault α} :
    of first = of second ↔ first = second :=
  Option.some_inj

/-- An evaluation of an option has its value as the result. -/
theorem ofOption_eq_ok_iff {value : Option α} {a : α} :
    ofOption value = of (.ok a) ↔ value = some a := by
  rcases value with _ | b
  · simp [ofOption, undefined, of, ExceptT.mk]
  · rw [ofOption, of_eq_of_iff, Except.ok.injEq, Option.some.injEq]

/-- An evaluation in steps gives a value if its first step does and the others do from there. -/
theorem bind_eq_of_ok_iff {first : Evaluation α} {others : α → Evaluation β} {b : β} :
    (first >>= others) = of (.ok b) ↔ ∃ a, first = of (.ok a) ∧ others a = of (.ok b) := by
  rcases first with _ | fault | a
  · constructor
    · exact nofun
    · rintro ⟨a, ha, -⟩
      cases ha
  · constructor
    · exact nofun
    · rintro ⟨a, ha, -⟩
      cases ha
  · constructor
    · exact fun h => ⟨a, rfl, h⟩
    · rintro ⟨a', ha, h⟩
      cases ha
      exact h

/-- An operation gives a value if its result is one. -/
theorem of_blame_eq_ok_iff {op : Operation} {result : Except Fault α} {a : α} :
    of (op.blame result) = of (.ok a) ↔ result = .ok a := by
  rw [of_eq_of_iff]
  rcases result with fault | b
  · simp [Operation.blame]
  · simp [Operation.blame]

end Evaluation

/-! ## Expressions -/

namespace Expr

variable {t : IntType}

/-- The value of a call over all integers; the only function of integers is the absolute value. -/
def exactCall : Expr → List ℤ → Option ℤ
  | .name word, [a] => if word = "abs" then some |a| else none
  | _, _ => none

mutual
/-- The value of an expression over all integers, where the element and the parameters are what
their words stand for. -/
def exact (env : Environment (.int t)) : Expr → Option ℤ
  | .number l => l.whole?
  | .name word =>
    if word = env.element then some (t.toInt env.x)
    else env.values[env.names.idxOf word]?.map t.toInt
  | .member root field => (Expr.member root field).literal?.bind Literal.whole?
  | .unary op operand => do
    let a ← operand.exact env
    op.exact a
  | .binary op left right => do
    let a ← left.exact env
    let b ← right.exact env
    op.exact t.bits a b
  | .call function arguments => do
    let operands ← exactOfAll env arguments
    function.exactCall operands
  | .quoted _ | .conditional .. => none

/-- The values of arguments. -/
def exactOfAll (env : Environment (.int t)) : List Expr → Option (List ℤ)
  | [] => some []
  | e :: rest => do
    let first ← e.exact env
    let others ← exactOfAll env rest
    some (first :: others)
end

mutual
/-- The subterms of an expression. A chain of signs on a number or on a constant of `math` is one
subterm. -/
def subterms : Expr → List Expr
  | .unary op operand =>
    .unary op operand ::
      if (Expr.unary op operand).signedLiteral?.isSome then [] else operand.subterms
  | .binary op left right => .binary op left right :: (left.subterms ++ right.subterms)
  | .call function arguments => .call function arguments :: subtermsOfAll arguments
  | e => [e]

/-- The subterms of arguments. -/
def subtermsOfAll : List Expr → List Expr
  | [] => []
  | e :: rest => e.subterms ++ subtermsOfAll rest
end

/-- The value of an expression over all integers is defined, and its type can represent it. -/
def Representable (env : Environment (.int t)) (e : Expr) : Prop :=
  ∃ n, e.exact env = some n ∧ t.Fits n

/-- The root of an expression works on bits. -/
def isBitwise : Expr → Bool
  | .unary op _ => op == .invert
  | .binary op _ _ => op.isBitwise
  | _ => false

/-- The root of an expression is arithmetic: it does not work on bits, and it calls nothing but the
absolute value. -/
def IsArithmetic (e : Expr) : Prop :=
  e.isBitwise = false ∧
    ∀ function arguments, e = .call function arguments →
      function = .name "abs" ∧ arguments.length = 1

/-- A tree is one of its subterms. -/
theorem self_mem_subterms (e : Expr) : e ∈ e.subterms := by
  cases e <;> simp [subterms]

/-- What can be represented is what some word stands for. -/
theorem representable_iff {env : Environment (.int t)} {e : Expr} :
    e.Representable env ↔ ∃ a : t.Word, e.exact env = some (t.toInt a) := by
  constructor
  · rintro ⟨n, hexact, hfits⟩
    exact ⟨t.wrap n, by rw [hexact, t.toInt_wrap hfits]⟩
  · rintro ⟨a, hexact⟩
    exact ⟨_, hexact, t.fits_toInt a⟩

/-- A chain of signs has the integer of its signed literal. -/
theorem exact_of_signedLiteral? {env : Environment (.int t)} {e : Expr} {l : Literal}
    (h : e.signedLiteral? = some l) : e.exact env = l.whole? := by
  fun_induction signedLiteral? e generalizing l with
  | case1 operand ih =>
      rw [exact, ih h]
      cases l.whole? <;> rfl
  | case2 operand ih =>
      obtain ⟨l', hl', rfl⟩ := Option.map_eq_some_iff.mp h
      rw [exact, ih hl', Literal.whole?_negate]
      cases l'.whole? <;> rfl
  | case3 e hplus hminus =>
      unfold literal? at h
      split at h
      · cases h
        rfl
      · rename_i base field
        rw [exact, literal?, h]
        rfl
      · cases h

variable {env : Environment (.int t)}

/-- A literal evaluates to the word that stands for its integer. -/
theorem literal_eq_ok_iff {l : Literal} {v : (ElementType.int t).Value} :
    env.literal l = .of (.ok v) ↔ l.whole? = some (t.toInt v) :=
  Evaluation.ofOption_eq_ok_iff.trans Literal.ofLiteral?_eq_some_iff

/-- A name evaluates to the word that stands for its integer. -/
theorem lookup_eq_ok_iff {word : String} {v : (ElementType.int t).Value} :
    env.lookup word = .of (.ok v) ↔ (Expr.name word).exact env = some (t.toInt v) := by
  have hword : ∀ a : (ElementType.int t).Value, some (t.toInt a) = some (t.toInt v) ↔ a = v := by
    intro a
    exact (Option.some.injEq _ _).to_iff.trans IntType.toInt_inj
  rw [Environment.lookup, exact]
  by_cases helement : word = env.element
  · rw [if_pos helement, if_pos helement, Evaluation.of_eq_of_iff, Except.ok.injEq]
    exact (hword _).symm
  · rw [if_neg helement, if_neg helement, Evaluation.ofOption_eq_ok_iff]
    rcases env.values[env.names.idxOf word]? with _ | a
    · exact ⟨nofun, nofun⟩
    · rw [Option.some.injEq]
      exact (hword a).symm

/-- An operation on one operand is exact if the operand is evaluated exactly and the operation is
exact. -/
theorem exact_of_operand {e operand : Expr} {f : ℤ → Option ℤ}
    {result : (ElementType.int t).Value → Except Fault (ElementType.int t).Value}
    {v : (ElementType.int t).Value}
    (hoperand : ∀ a, operand.value env = .of (.ok a) ↔
      (∀ s ∈ operand.subterms, s.Representable env) ∧ operand.exact env = some (t.toInt a))
    (hexact : e.exact env = (operand.exact env).bind f)
    (hresult : ∀ a c, result a = .ok c ↔ f (t.toInt a) = some (t.toInt c)) :
    (∃ a, operand.value env = .of (.ok a) ∧ result a = .ok v) ↔
      (e.Representable env ∧ ∀ s ∈ operand.subterms, s.Representable env) ∧
        e.exact env = some (t.toInt v) := by
  constructor
  · rintro ⟨a, ha, hv⟩
    obtain ⟨hall, ha⟩ := (hoperand a).mp ha
    have hvalue : e.exact env = some (t.toInt v) := by
      rw [hexact, ha]
      exact (hresult a v).mp hv
    exact ⟨⟨representable_iff.mpr ⟨v, hvalue⟩, hall⟩, hvalue⟩
  · rintro ⟨⟨-, hall⟩, hvalue⟩
    obtain ⟨a, ha⟩ := representable_iff.mp (hall operand operand.self_mem_subterms)
    rw [hexact, ha] at hvalue
    exact ⟨a, (hoperand a).mpr ⟨hall, ha⟩, (hresult a v).mpr hvalue⟩

/-- The same of an operation on two operands, of which the right one is evaluated first. -/
theorem exact_of_operands {e left right : Expr} {f : ℤ → ℤ → Option ℤ}
    {result : (ElementType.int t).Value → (ElementType.int t).Value →
      Except Fault (ElementType.int t).Value}
    {v : (ElementType.int t).Value}
    (hleft : ∀ a, left.value env = .of (.ok a) ↔
      (∀ s ∈ left.subterms, s.Representable env) ∧ left.exact env = some (t.toInt a))
    (hright : ∀ b, right.value env = .of (.ok b) ↔
      (∀ s ∈ right.subterms, s.Representable env) ∧ right.exact env = some (t.toInt b))
    (hexact : e.exact env = (left.exact env).bind fun a => (right.exact env).bind (f a))
    (hresult : ∀ a b c, result a b = .ok c ↔ f (t.toInt a) (t.toInt b) = some (t.toInt c)) :
    (∃ b, right.value env = .of (.ok b) ∧
        ∃ a, left.value env = .of (.ok a) ∧ result a b = .ok v) ↔
      (e.Representable env ∧ ∀ s ∈ left.subterms ++ right.subterms, s.Representable env) ∧
        e.exact env = some (t.toInt v) := by
  rw [List.forall_mem_append]
  constructor
  · rintro ⟨b, hb, a, ha, hv⟩
    obtain ⟨hallleft, ha⟩ := (hleft a).mp ha
    obtain ⟨hallright, hb⟩ := (hright b).mp hb
    have hvalue : e.exact env = some (t.toInt v) := by
      rw [hexact, ha, hb]
      exact (hresult a b v).mp hv
    exact ⟨⟨representable_iff.mpr ⟨v, hvalue⟩, hallleft, hallright⟩, hvalue⟩
  · rintro ⟨⟨-, hallleft, hallright⟩, hvalue⟩
    obtain ⟨a, ha⟩ := representable_iff.mp (hallleft left left.self_mem_subterms)
    obtain ⟨b, hb⟩ := representable_iff.mp (hallright right right.self_mem_subterms)
    rw [hexact, ha, hb] at hvalue
    exact ⟨b, (hright b).mpr ⟨hallright, hb⟩, a, (hleft a).mpr ⟨hallleft, ha⟩,
      (hresult a b v).mpr hvalue⟩

/-- A call of the absolute value evaluates its argument and applies the operation. -/
theorem value_abs (operand : Expr) :
    (Expr.call (.name "abs") [operand]).value env =
      operand.value env >>= fun a => env.apply .abs [a] := by
  have hcallee : (Expr.name "abs").callee? = some .abs := by decide +kernel
  rw [value, hcallee, valuesOfAll, valuesOfAll]
  rcases operand.value env with _ | fault | a <;> rfl

/-- A leaf is evaluated exactly if its value is exact. -/
theorem exact_of_leaf {e : Expr} (hleaf : e.subterms = [e]) {v : (ElementType.int t).Value}
    (hvalue : e.value env = .of (.ok v) ↔ e.exact env = some (t.toInt v)) :
    e.value env = .of (.ok v) ↔
      (∀ s ∈ e.subterms, s.Representable env) ∧ e.exact env = some (t.toInt v) := by
  rw [hvalue, hleaf, List.forall_mem_singleton, iff_and_self]
  exact fun h => representable_iff.mpr ⟨v, h⟩

/-- What has no meaning has no value over the integers either. -/
theorem exact_of_undefined {e : Expr} (hleaf : e.subterms = [e]) (hvalue : e.value env = .undefined)
    (hexact : e.exact env = none) {v : (ElementType.int t).Value} :
    e.value env = .of (.ok v) ↔
      (∀ s ∈ e.subterms, s.Representable env) ∧ e.exact env = some (t.toInt v) := by
  refine exact_of_leaf hleaf ?_
  rw [hvalue, hexact]
  exact ⟨nofun, nofun⟩

/-- **Expressions.** With checking on, an arithmetic expression evaluates to a word exactly if the
values of all its subterms can be represented, and the word then stands for its value. -/
theorem value_eq_ok_iff (hchecked : env.checked = true) : (e : Expr) →
    (∀ s ∈ e.subterms, s.IsArithmetic) → ∀ v : (ElementType.int t).Value,
    (e.value env = .of (.ok v) ↔
      (∀ s ∈ e.subterms, s.Representable env) ∧ e.exact env = some (t.toInt v))
  | .number l, _, v => exact_of_leaf rfl literal_eq_ok_iff
  | .name word, _, v => exact_of_leaf rfl lookup_eq_ok_iff
  | .quoted _, _, v => exact_of_undefined rfl rfl rfl
  | .conditional .., _, v => exact_of_undefined rfl rfl rfl
  | .member root field, _, v => by
      refine exact_of_leaf rfl ?_
      rw [value, exact]
      rcases (Expr.member root field).literal? with _ | l
      · exact ⟨nofun, nofun⟩
      · exact literal_eq_ok_iff
  | .unary op operand, harithmetic, v => by
      rcases hchain : (Expr.unary op operand).signedLiteral? with _ | l
      · have hsubterms : (Expr.unary op operand).subterms =
            .unary op operand :: operand.subterms := by
          rw [subterms, hchain]
          rfl
        rw [hsubterms] at harithmetic ⊢
        obtain ⟨hop, hoperand⟩ := List.forall_mem_cons.mp harithmetic
        have hinvert : op ≠ .invert := by simpa [isBitwise] using hop.1
        rw [value, hchain, List.forall_mem_cons]
        dsimp only
        rw [Evaluation.bind_eq_of_ok_iff]
        simp only [Environment.apply, Evaluation.of_blame_eq_ok_iff, hchecked]
        exact exact_of_operand (value_eq_ok_iff hchecked operand hoperand) rfl
          fun a c => IntType.unary_eq_ok_iff hinvert
      · refine exact_of_leaf ?_ ?_
        · rw [subterms, hchain]
          rfl
        · rw [value, hchain, exact_of_signedLiteral? hchain]
          exact literal_eq_ok_iff
  | .binary op left right, harithmetic, v => by
      rw [subterms, List.forall_mem_cons, List.forall_mem_append] at harithmetic
      obtain ⟨hop, hleft, hright⟩ := harithmetic
      rw [value, subterms, List.forall_mem_cons, Evaluation.bind_eq_of_ok_iff]
      simp only [Evaluation.bind_eq_of_ok_iff, Environment.apply, Evaluation.of_blame_eq_ok_iff,
        hchecked]
      exact exact_of_operands (value_eq_ok_iff hchecked left hleft)
        (value_eq_ok_iff hchecked right hright) rfl fun a b c => IntType.binary_eq_ok_iff hop.1
  | .call function arguments, harithmetic, v => by
      rw [subterms, List.forall_mem_cons] at harithmetic
      obtain ⟨⟨-, hcall⟩, harguments⟩ := harithmetic
      obtain ⟨rfl, hone⟩ := hcall function arguments rfl
      obtain ⟨operand, rfl⟩ := List.length_eq_one_iff.mp hone
      have hoperands : subtermsOfAll [operand] = operand.subterms := List.append_nil _
      rw [hoperands] at harguments
      rw [value_abs, subterms, hoperands, List.forall_mem_cons, Evaluation.bind_eq_of_ok_iff]
      simp only [Environment.apply, Evaluation.of_blame_eq_ok_iff, hchecked]
      refine exact_of_operand (f := fun a => some |a|)
        (value_eq_ok_iff hchecked operand harguments) ?_ fun a c => ?_
      · rw [exact, exactOfAll, exactOfAll]
        cases operand.exact env <;> rfl
      · rw [Option.some.injEq]
        exact IntType.abs_eq_ok_iff

/-! ### Calls in compiled expressions -/

/-- The only name of the absolute value is `abs`. -/
theorem eq_abs_of_callee? {function : Expr} (h : function.callee? = some .abs) :
    function = .name "abs" := by
  rcases function_of_callee? h with hname | ⟨field, -, hfield⟩
  · exact hname
  · have hpoint : '.' ∈ Operation.abs.name.toList := by simp [hfield]
    exact absurd hpoint (by decide)

/-- The only function that integer programs call is the absolute value. -/
theorem eq_abs_of_legal {function : Expr} {op : Operation} (hop : function.callee? = some op)
    (hlegal : ∃ number, op.info.codeFor (ElementType.int t).family = some number) : op = .abs := by
  rcases callee?_cases hop with habs | hmath
  · exact habs
  · have hall : ∀ op ∈ Operation.all, op.info.isMathCall = true → op.info.intCode = none := by
      decide +kernel
    have hcode := hall op op.mem_all hmath
    obtain ⟨number, hnumber⟩ := hlegal
    unfold ElementType.family at hnumber
    dsimp only at hnumber
    split at hnumber
    · rw [OperationInfo.codeFor, hcode] at hnumber
      cases hnumber
    · rw [OperationInfo.codeFor, hcode, ite_self] at hnumber
      cases hnumber

/-- The operations of code have codes in programs of a type. -/
def LegalCode (t : IntType) (code : List Action) : Prop :=
  ∀ action ∈ code, ∃ number,
    action.operation.info.codeFor (ElementType.int t).family = some number

/-- In an expression whose code is legal for integers, only the absolute value is called. -/
theorem call_of_formula? {element : String} : (e : Expr) → {u : Formula} →
    e.formula? element = some u → LegalCode t u.fold.code →
    ∀ function arguments, .call function arguments ∈ e.subterms →
      function = .name "abs" ∧ arguments.length = 1
  | .number _, _, _, _, _, _, hcall => by simp [subterms] at hcall
  | .quoted _, _, _, _, _, _, hcall => by simp [subterms] at hcall
  | .name _, _, _, _, _, _, hcall => by simp [subterms] at hcall
  | .member .., _, _, _, _, _, hcall => by simp [subterms] at hcall
  | .conditional .., _, _, _, _, _, hcall => by simp [subterms] at hcall
  | .unary op operand, u, h, hlegal, function, arguments, hcall => by
      have hchain := constant?_of_formula? h
      obtain ⟨v, hv, h⟩ := Option.bind_eq_some_iff.mp h
      cases h
      rw [Formula.fold] at hchain hlegal
      rw [subterms, ← hchain] at hcall
      rcases Formula.foldUnary_cases op.operation op.arity_operation v.fold with
        ⟨l, -, ⟨-, hfold⟩ | ⟨-, hfold⟩⟩ | ⟨-, hfold⟩
      · simp [hfold, Formula.constant?] at hcall
      · simp [hfold, Formula.constant?] at hcall
      · rw [hfold] at hcall hlegal
        have hinner : .call function arguments ∈ operand.subterms := by
          simpa [Formula.constant?] using hcall
        exact call_of_formula? operand hv
          (fun action haction => hlegal action (by simp [Formula.code, haction]))
          function arguments hinner
  | .binary op left right, u, h, hlegal, function, arguments, hcall => by
      obtain ⟨v, hv, h⟩ := Option.bind_eq_some_iff.mp h
      obtain ⟨w, hw, h⟩ := Option.bind_eq_some_iff.mp h
      cases h
      have hinner : .call function arguments ∈ left.subterms ∨
          .call function arguments ∈ right.subterms := by simpa [subterms] using hcall
      rcases hinner with hinner | hinner
      · exact call_of_formula? left hv
          (fun action haction => hlegal action (by simp [Formula.fold, Formula.code, haction]))
          function arguments hinner
      · exact call_of_formula? right hw
          (fun action haction => hlegal action (by simp [Formula.fold, Formula.code, haction]))
          function arguments hinner
  | .call callee operands, u, h, hlegal, function, arguments, hcall => by
      obtain ⟨op, hop, h⟩ := Option.bind_eq_some_iff.mp h
      obtain ⟨us, hus, h⟩ := Option.bind_eq_some_iff.mp h
      obtain ⟨hplus, hnegate⟩ := not_sign_of_callee? hop
      rcases Formula.ofOperands?_cases h with ⟨arity, v, rfl, rfl⟩ | ⟨arity, v, w, rfl, rfl⟩
      · rw [Formula.fold, Formula.foldUnary_of_ne hplus hnegate] at hlegal
        obtain rfl := eq_abs_of_legal hop (hlegal (.apply op) (by simp [Formula.code]))
        have hone := length_formulasOfAll? hus
        obtain ⟨operand, rfl⟩ := List.length_eq_one_iff.mp hone.symm
        obtain ⟨v', hv, hus⟩ := Option.bind_eq_some_iff.mp hus
        cases hus
        have hinner : function = callee ∧ arguments = [operand] ∨
            .call function arguments ∈ operand.subterms := by
          simpa [subterms, subtermsOfAll] using hcall
        rcases hinner with ⟨rfl, rfl⟩ | hinner
        · exact ⟨eq_abs_of_callee? hop, rfl⟩
        · exact call_of_formula? operand hv
            (fun action haction => hlegal action (by simp [Formula.code, haction]))
            function arguments hinner
      · obtain rfl := eq_abs_of_legal hop
          (hlegal (.apply op) (by simp [Formula.fold, Formula.code]))
        exact absurd arity (by decide)

end Expr

/-! ## Programs -/

/-- **Exactness.** A program of an integer type, compiled from an equation without operators on
bits, evaluates to a word exactly if the values of all subterms over all integers are defined and
can be represented, and the word then stands for the value of the equation. -/
theorem Program.evaluate_exact {t : IntType} {settings : Settings} {equation element : String}
    {parameters : List String} {p : Program (.int t)}
    (h : compile (.int t) settings equation element parameters = .ok p) :
    ∃ e, Equation.parse equation = .ok ⟨e⟩ ∧
      ((∀ s ∈ e.subterms, s.isBitwise = false) →
        ∀ (x : t.Word) (values : List t.Word), values.length = p.parameters.length →
          let env : Environment (.int t) := ⟨element, x, parameters, values, true⟩
          ∀ v : t.Word, p.evaluate x values = .ok v ↔
            (∀ s ∈ e.subterms, ∃ n, s.exact env = some n ∧ t.Fits n) ∧
              e.exact env = some (t.toInt v)) := by
  obtain ⟨e, u, hcompiled⟩ := exists_compiled h
  refine ⟨e, hcompiled.parsed, fun hbitwise x values hvalues => ?_⟩
  intro env v
  have harithmetic : ∀ s ∈ e.subterms, s.IsArithmetic := by
    intro s hs
    refine ⟨hbitwise s hs, ?_⟩
    rintro function arguments rfl
    exact e.call_of_formula? hcompiled.formula hcompiled.fits.legal function arguments hs
  have hdefined : u.fold.Defined (.int t) parameters :=
    ⟨hcompiled.fits.converts, hcompiled.fits.declared⟩
  have hnames : env.values.length = env.names.length := hvalues.trans (by rw [hcompiled.names])
  have hvalue : e.value env = .of (u.fold.value env) :=
    e.value_of_formula? hnames hcompiled.formula hdefined
  have hchecked : env.checked = true := rfl
  have hexact := Expr.value_eq_ok_iff hchecked e harithmetic v
  rw [hvalue, Evaluation.of_eq_of_iff] at hexact
  rw [hcompiled.evaluate_eq hvalues (fun _ _ => rfl) x]
  exact mapError_eq_ok_iff.trans hexact

/-- `k ** 7 // x` over bytes at `k = -2`: the power is the least byte, its half is exact, and its
negative cannot be represented. -/
theorem Program.evaluate_exact_leastPower :
    ∃ (p : Program (.int ⟨true, .w8⟩)) (e : Expr),
      compile _ .default "k ** 7 // x" "x" ["k"] = .ok p ∧
      Equation.parse "k ** 7 // x" = .ok ⟨e⟩ ∧ (∀ s ∈ e.subterms, s.isBitwise = false) ∧
      p.evaluate 2#8 [-2#8] = .ok (-64#8) ∧ ∀ v, p.evaluate (-1#8) [-2#8] ≠ .ok v := by
  have hcompile : compile (.int ⟨true, .w8⟩) .default "k ** 7 // x" "x" ["k"] =
      .ok ⟨⟨[0, 2, 1, 13, 11], [0, 0, 0, 0, 0], [0#8, 7#8, 0#8, 0#8, 0#8]⟩, 5, ["k"]⟩ := rfl
  have hparse : Equation.parse "k ** 7 // x" = .ok ⟨.binary .floorDiv
      (.binary .pow (.name "k") (.number (.int 7))) (.name "x")⟩ := rfl
  obtain ⟨e, he, hexact⟩ := evaluate_exact hcompile
  cases hparse.symm.trans he
  have hbitwise : ∀ s ∈ (Expr.binary .floorDiv
      (.binary .pow (.name "k") (.number (.int 7))) (.name "x")).subterms,
      s.isBitwise = false := by simp [Expr.subterms, Expr.isBitwise, BinaryOp.isBitwise]
  have hpower : ∀ x, (Expr.binary .pow (.name "k") (.number (.int 7))).exact
      (t := ⟨true, .w8⟩) ⟨"x", x, ["k"], [-2#8], true⟩ = some (-128) := by
    intro x
    rw [Expr.exact, Expr.exact, Literal.whole?_int]
    rfl
  have hquotient : ∀ x, (Expr.binary .floorDiv (.binary .pow (.name "k") (.number (.int 7)))
      (.name "x")).exact (t := ⟨true, .w8⟩) ⟨"x", x, ["k"], [-2#8], true⟩ =
        BinaryOp.floorDiv.exact 8 (-128) (IntType.toInt ⟨true, .w8⟩ x) := by
    intro x
    rw [Expr.exact, hpower]
    rfl
  refine ⟨_, _, hcompile, hparse, hbitwise, ?_, fun v => ?_⟩
  · refine (hexact hbitwise 2#8 [-2#8] rfl (-64#8)).mpr ⟨?_, hquotient _⟩
    simp only [Expr.subterms, List.forall_mem_cons, List.cons_append, List.nil_append]
    exact ⟨⟨_, hquotient _, by decide⟩, ⟨_, hpower _, by decide⟩, ⟨-2, rfl, by decide⟩,
      ⟨7, Literal.whole?_int 7, by decide⟩, ⟨2, rfl, by decide⟩, nofun⟩
  · intro hvalue
    obtain ⟨-, hvalue⟩ := (hexact hbitwise (-1#8) [-2#8] rfl v).mp hvalue
    have hnegative : 128 = IntType.toInt ⟨true, .w8⟩ v :=
      Option.some.inj ((hquotient (-1#8)).symm.trans hvalue)
    have hfits := IntType.fits_toInt ⟨true, .w8⟩ v
    rw [← hnegative] at hfits
    exact absurd hfits (by decide)

end Elementwise
