import Elementwise.Expr.Parser

/-!
# The grammar of equations

The grammar in layers, from conditionals down to atoms, as an inductive relation between token lists
and trees. It knows nothing of binding powers, of nesting or of heights: a layer is a level, a level
includes the next tighter one, and each production adds one kind of node. It names the node that
each sign makes; that the parser makes the same ones is `binary?_eq_some_iff` and
`unary?_eq_some_iff`.

The levels are in a line, and `Level.strength` numbers them. `Derives.weaken` reads a tree of a
tight level at any looser one, and the lemmas on operators say at which levels an operator expects
its operands and makes its node, so that binding powers can be compared with levels.
-/

namespace Elementwise

namespace Grammar

/-! ## Levels -/

/-- The layers of the grammar, from the loosest to the tightest. -/
inductive Level where
  | full
  | disjunction
  | conjunction
  | negation
  | comparison
  | bitOr
  | bitXor
  | bitAnd
  | shift
  | sum
  | product
  | signed
  | power
  | primary
  | atom
deriving DecidableEq

namespace Level

/-- The level that a level includes. -/
def tighter? : Level → Option Level
  | .full => some .disjunction
  | .disjunction => some .conjunction
  | .conjunction => some .negation
  | .negation => some .comparison
  | .comparison => some .bitOr
  | .bitOr => some .bitXor
  | .bitXor => some .bitAnd
  | .bitAnd => some .shift
  | .shift => some .sum
  | .sum => some .product
  | .product => some .signed
  | .signed => some .power
  | .power => some .primary
  | .primary => some .atom
  | .atom => none

/-- The signs of the levels that associate to the left, with the nodes that they make. -/
def leftSigns : Level → List (Symbol × BinaryOp)
  | .disjunction => [(.or, .or)]
  | .conjunction => [(.and, .and)]
  | .bitOr => [(.bar, .bitOr)]
  | .bitXor => [(.caret, .bitXor)]
  | .bitAnd => [(.ampersand, .bitAnd)]
  | .shift => [(.shiftLeft, .shiftLeft), (.shiftRight, .shiftRight)]
  | .sum => [(.plus, .add), (.minus, .sub)]
  | .product => [(.star, .mul), (.slash, .div), (.doubleSlash, .floorDiv), (.percent, .mod)]
  | _ => []

end Level

/-- The signs that compare, with the nodes that they make; they do not chain. -/
def comparisonSigns : List (Symbol × BinaryOp) :=
  [(.equal, .eq), (.notEqual, .ne), (.less, .lt), (.lessEqual, .le), (.greater, .gt),
    (.greaterEqual, .ge)]

/-- The signs that stand before an operand, with the nodes that they make, `not` apart. -/
def signs : List (Symbol × UnaryOp) :=
  [(.plus, .plus), (.minus, .minus), (.tilde, .invert)]

/-! ## Derivations -/

mutual
/-- `Derives level w t`: the tokens `w` form the tree `t` at a level of the grammar. -/
inductive Derives : Level → List Token → Expr → Prop
  /-- `body if test else alternative` -/
  | conditional {b c a : List Token} {body test alternative : Expr} :
      Derives .disjunction b body → Derives .disjunction c test → Derives .full a alternative →
      Derives .full (b ++ .keyword "if" :: (c ++ .keyword "else" :: a))
        (.conditional test body alternative)
  /-- A tree of the next tighter level. -/
  | tighter {level next : Level} {w : List Token} {t : Expr} :
      level.tighter? = some next → Derives next w t → Derives level w t
  /-- `left op right`, where the left operand may have operators of the same level. -/
  | left {level next : Level} {sign : Symbol} {op : BinaryOp} {l r : List Token}
      {left right : Expr} :
      (sign, op) ∈ level.leftSigns → level.tighter? = some next →
      Derives level l left → Derives next r right →
      Derives level (l ++ .symbol sign :: r) (.binary op left right)
  /-- `not operand` -/
  | negation {w : List Token} {t : Expr} :
      Derives .negation w t → Derives .negation (.symbol .not :: w) (.unary .not t)
  /-- `left op right` for a comparison; neither operand is one. -/
  | comparison {sign : Symbol} {op : BinaryOp} {l r : List Token} {left right : Expr} :
      (sign, op) ∈ comparisonSigns →
      Derives .bitOr l left → Derives .bitOr r right →
      Derives .comparison (l ++ .symbol sign :: r) (.binary op left right)
  /-- `+operand`, `-operand`, `~operand` -/
  | signed {sign : Symbol} {op : UnaryOp} {w : List Token} {t : Expr} :
      (sign, op) ∈ signs → Derives .signed w t →
      Derives .signed (.symbol sign :: w) (.unary op t)
  /-- `base ** exponent`, where the exponent may have a sign. -/
  | power {l r : List Token} {base exponent : Expr} :
      Derives .primary l base → Derives .signed r exponent →
      Derives .power (l ++ .symbol .doubleStar :: r) (.binary .pow base exponent)
  /-- `value.field` -/
  | member {w : List Token} {t : Expr} {field : String} :
      Derives .primary w t → Derives .primary (w ++ [.dot, .name field]) (.member t field)
  /-- `function(arguments)` -/
  | call {w a : List Token} {t : Expr} {arguments : List Expr} :
      Derives .primary w t → DerivesArguments a arguments →
      Derives .primary (w ++ .leftParen :: (a ++ [.rightParen])) (.call t arguments)
  | number {value : Literal} : Derives .atom [.number value] (.number value)
  | quoted {content : String} : Derives .atom [.quoted content] (.quoted content)
  | name {word : String} : Derives .atom [.name word] (.name word)
  /-- `(inner)` is its inner tree. -/
  | paren {w : List Token} {t : Expr} :
      Derives .full w t → Derives .atom (.leftParen :: (w ++ [.rightParen])) t

/-- Arguments are none, or whole expressions with commas between them; a comma may stand after the
last one. -/
inductive DerivesArguments : List Token → List Expr → Prop
  | none : DerivesArguments [] []
  | last {w : List Token} {t : Expr} : Derives .full w t → DerivesArguments w [t]
  | more {w ws : List Token} {t : Expr} {ts : List Expr} :
      Derives .full w t → DerivesArguments ws ts → DerivesArguments (w ++ .comma :: ws) (t :: ts)
end

/-- No tree is formed by no token. -/
theorem Derives.ne_nil : ∀ {level : Level} {w : List Token} {t : Expr}, Derives level w t → w ≠ []
  | _, _, _, .tighter _ h => h.ne_nil
  | _, _, _, .conditional .. | _, _, _, .left .. | _, _, _, .negation _ | _, _, _, .comparison ..
  | _, _, _, .signed .. | _, _, _, .power .. | _, _, _, .member _ | _, _, _, .call ..
  | _, _, _, .number | _, _, _, .quoted | _, _, _, .name | _, _, _, .paren _ => by simp

/-- A tree is formed by at least one token. -/
theorem Derives.length_pos {level : Level} {w : List Token} {t : Expr} (h : Derives level w t) :
    0 < w.length :=
  List.length_pos_iff.mpr h.ne_nil

/-! ## The line of levels -/

namespace Level

/-- The place of a level in the line. -/
def strength : Level → Nat
  | .full => 0
  | .disjunction => 1
  | .conjunction => 2
  | .negation => 3
  | .comparison => 4
  | .bitOr => 5
  | .bitXor => 6
  | .bitAnd => 7
  | .shift => 8
  | .sum => 9
  | .product => 10
  | .signed => 11
  | .power => 12
  | .primary => 13
  | .atom => 14

/-- Levels in the same place are the same. -/
theorem strength_injective : Function.Injective strength := by
  intro a b h
  cases a <;> cases b <;> first | rfl | exact absurd h (by decide)

/-- The next tighter level is the next one in the line. -/
theorem strength_of_tighter? {level next : Level} (h : level.tighter? = some next) :
    next.strength = level.strength + 1 := by
  cases level <;> cases h <;> rfl

/-- Every level but the tightest has a next one. -/
theorem exists_tighter? {level : Level} (h : level.strength < 14) :
    ∃ next, level.tighter? = some next := by
  cases level <;> first | exact ⟨_, rfl⟩ | exact absurd h (by decide)

/-- No level is tighter than an atom. -/
theorem strength_le (level : Level) : level.strength ≤ 14 := by
  cases level <;> decide

end Level

/-- A tree of a level is a tree of every looser level. -/
theorem Derives.weaken {loose tight : Level} {w : List Token} {t : Expr}
    (hle : loose.strength ≤ tight.strength) (h : Derives tight w t) : Derives loose w t := by
  -- The induction is on the number of levels between the two.
  obtain ⟨k, hk⟩ := Nat.exists_eq_add_of_le hle
  induction k generalizing loose with
  | zero =>
      have heq : loose = tight := Level.strength_injective hk.symm
      rwa [heq]
  | succ k ih =>
      have hlt : loose.strength < 14 := by
        have := tight.strength_le
        omega
      obtain ⟨next, hnext⟩ := Level.exists_tighter? hlt
      have hs := Level.strength_of_tighter? hnext
      exact .tighter hnext (ih (by omega) (by omega))

/-! ## Operators and levels -/

/-- The level of the node that an operator makes. -/
def nodeLevel : BinaryOp → Level
  | .or => .disjunction
  | .and => .conjunction
  | .eq | .ne | .lt | .le | .gt | .ge => .comparison
  | .bitOr => .bitOr
  | .bitXor => .bitXor
  | .bitAnd => .bitAnd
  | .shiftLeft | .shiftRight => .shift
  | .add | .sub => .sum
  | .mul | .div | .floorDiv | .mod => .product
  | .pow => .power

/-- The level of an operator's left operand. -/
def leftLevel (op : BinaryOp) : Level :=
  if op.isComparison then .bitOr else if op = .pow then .primary else nodeLevel op

/-- The level of an operand that is asked to bind with at least some power. An operand of a power
may have a sign, although signs bind less. -/
def askedLevel : Nat → Level
  | 0 | 1 => .disjunction
  | 2 => .conjunction
  | 3 => .negation
  | 4 => .comparison
  | 5 => .bitOr
  | 6 => .bitXor
  | 7 => .bitAnd
  | 8 => .shift
  | 9 => .sum
  | 10 => .product
  | _ => .signed

/-- The parser makes the nodes of the levels that associate to the left. -/
theorem binary?_of_mem_leftSigns {level : Level} {sign : Symbol} {op : BinaryOp}
    (h : (sign, op) ∈ level.leftSigns) : sign.binary? = some op := by
  have hall : ∀ entry ∈ level.leftSigns, entry.1.binary? = some entry.2 := by
    cases level <;> decide
  exact hall _ h

/-- The parser makes the nodes of comparisons. -/
theorem binary?_of_mem_comparisonSigns {sign : Symbol} {op : BinaryOp}
    (h : (sign, op) ∈ comparisonSigns) : sign.binary? = some op := by
  have hall : ∀ entry ∈ comparisonSigns, entry.1.binary? = some entry.2 := by decide
  exact hall _ h

/-- The parser makes the nodes of the signs before an operand. -/
theorem unary?_of_mem_signs {sign : Symbol} {op : UnaryOp} (h : (sign, op) ∈ signs) :
    sign.unary? = some op := by
  have hall : ∀ entry ∈ signs, entry.1.unary? = some entry.2 := by decide
  exact hall _ h

/-- **Signs between operands.** The nodes that the parser makes of them are those of the grammar,
and every sign that it takes there is in the grammar. -/
theorem binary?_eq_some_iff {sign : Symbol} {op : BinaryOp} :
    sign.binary? = some op ↔ (∃ level : Level, (sign, op) ∈ level.leftSigns) ∨
      (sign, op) ∈ comparisonSigns ∨ sign = .doubleStar ∧ op = .pow := by
  constructor
  · intro h
    cases sign <;> cases h
    case mp.doubleStar => exact .inr (.inr ⟨rfl, rfl⟩)
    case mp.equal | mp.notEqual | mp.less | mp.lessEqual | mp.greater | mp.greaterEqual =>
      exact .inr (.inl (by decide))
    case mp.or => exact .inl ⟨.disjunction, by decide⟩
    case mp.and => exact .inl ⟨.conjunction, by decide⟩
    case mp.bar => exact .inl ⟨.bitOr, by decide⟩
    case mp.caret => exact .inl ⟨.bitXor, by decide⟩
    case mp.ampersand => exact .inl ⟨.bitAnd, by decide⟩
    case mp.shiftLeft | mp.shiftRight => exact .inl ⟨.shift, by decide⟩
    case mp.plus | mp.minus => exact .inl ⟨.sum, by decide⟩
    case mp.star | mp.slash | mp.doubleSlash | mp.percent => exact .inl ⟨.product, by decide⟩
  · rintro (⟨level, h⟩ | h | ⟨rfl, rfl⟩)
    · exact binary?_of_mem_leftSigns h
    · exact binary?_of_mem_comparisonSigns h
    · rfl

/-- **Signs before an operand.** The nodes that the parser makes of them are those of the grammar,
and every sign that it takes there is in the grammar. -/
theorem unary?_eq_some_iff {sign : Symbol} {op : UnaryOp} :
    sign.unary? = some op ↔ (sign, op) ∈ signs ∨ sign = .not ∧ op = .not := by
  constructor
  · intro h
    cases sign <;> cases h
    case mp.not => exact .inr ⟨rfl, rfl⟩
    all_goals exact .inl (by decide)
  · rintro (h | ⟨rfl, rfl⟩)
    · exact unary?_of_mem_signs h
    · rfl

/-- An operator binds as strongly as its node's level stands in the line. -/
theorem strength_nodeLevel (op : BinaryOp) : (nodeLevel op).strength = op.power := by
  cases op <;> rfl

/-- Comparisons are the operators of power four. -/
theorem isComparison_iff_power (op : BinaryOp) : op.isComparison = true ↔ op.power = 4 := by
  cases op <;> decide

/-- The powers of operators between two operands. -/
theorem power_cases (op : BinaryOp) :
    1 ≤ op.power ∧ op.power ≤ 12 ∧ op.power ≠ 3 ∧ op.power ≠ 11 := by
  cases op <;> decide

/-- The place of a left operand's level: the operator's own, unless it does not associate to the
left. -/
theorem strength_leftLevel (op : BinaryOp) :
    op.power = 4 ∧ (leftLevel op).strength = 5 ∨ op.power = 12 ∧ (leftLevel op).strength = 13 ∨
      op.power ≠ 4 ∧ op.power ≠ 12 ∧ (leftLevel op).strength = op.power := by
  cases op <;> decide

/-- How strongly a right operand has to bind. -/
theorem rightPower_cases (op : BinaryOp) :
    op.power = 12 ∧ op.rightPower = 12 ∨ op.power ≠ 12 ∧ op.rightPower = op.power + 1 := by
  cases op <;> decide

/-- An operand that is asked for with some power is at most that tight, and never tighter than a
sign. -/
theorem strength_askedLevel_le : (least : Nat) →
    (askedLevel least).strength ≤ max 1 least ∧ (askedLevel least).strength ≤ 11
  | 0 | 1 | 2 | 3 | 4 | 5 | 6 | 7 | 8 | 9 | 10 => by decide
  | least + 11 => by
      simp only [askedLevel, Level.strength]
      omega

/-- An operator between operands of its levels makes a node of its level. -/
theorem Derives.binary {sign : Symbol} {op : BinaryOp} {l r : List Token} {left right : Expr}
    (hop : sign.binary? = some op) (hl : Derives (leftLevel op) l left)
    (hr : Derives (askedLevel op.rightPower) r right) :
    Derives (nodeLevel op) (l ++ .symbol sign :: r) (.binary op left right) := by
  cases sign <;> cases hop
  case doubleStar => exact .power hl hr
  case equal | notEqual | less | lessEqual | greater | greaterEqual =>
    exact .comparison (by decide) hl hr
  all_goals exact .left (by decide) rfl hl hr

end Grammar

end Elementwise
