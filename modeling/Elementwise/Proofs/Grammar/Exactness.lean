import Elementwise.Equation
import Elementwise.Proofs.Grammar.Reading

/-!
# The parser reads exactly the grammar

Here is the other direction: a word of the grammar, followed by something that cannot continue it,
is read as its tree, unless a limit on nesting or height is met. With what was read being in the
grammar, this makes the parser exact, and as the limits can be set as wide as a word needs, no word
has two trees.

A word of an operator level does not end a loop over operators, it only brings the loop to the place
after the word. This is what `PartLeads` says: reading the word and what follows leads to the loop
with the word's tree on its left, in front of what follows. Left-recursive productions then compose,
since the left operand of an operator is again a word that brought the loop so far.

`Leads fits x y` compares two computations: they are the same, or the first stops at a limit, which
does not happen if the word `fits`.
-/

namespace Elementwise

namespace Parser

open Grammar

/-! ## Computations up to the limits -/

variable {α β : Type}

/-- The first computation is the second, or it stops at a limit although that is excluded where
something fits. -/
def Leads (fits : Prop) (first second : Attempt α) : Prop :=
  first = second ∨ (∃ span, first = .error ⟨.nestedTooDeeply, span⟩) ∧ ¬fits

/-- An attempt leads to itself. -/
theorem Leads.refl (fits : Prop) (x : Attempt α) : Leads fits x x :=
  .inl rfl

/-- What leads to an attempt leads to where that leads. -/
theorem Leads.trans {fits : Prop} {x y z : Attempt α} (hxy : Leads fits x y)
    (hyz : Leads fits y z) : Leads fits x z := by
  rcases hxy with rfl | h
  · exact hyz
  · exact .inr h

/-- A narrower condition excludes the limits as well. -/
theorem Leads.weaken {fits fits' : Prop} {x y : Attempt α} (himp : fits' → fits)
    (h : Leads fits x y) : Leads fits' x y :=
  h.imp_right fun ⟨hspan, hnot⟩ => ⟨hspan, fun hfits => hnot (himp hfits)⟩

/-- If a step leads to a value, the sequence leads to what comes after that value. -/
theorem Leads.bind {fits : Prop} {x : Attempt α} {a : α} (h : Leads fits x (.ok a))
    (f : α → Attempt β) : Leads fits (x >>= f) (f a) := by
  rcases h with rfl | ⟨⟨span, rfl⟩, hnot⟩
  · exact .inl rfl
  · exact .inr ⟨⟨span, rfl⟩, hnot⟩

/-- Where everything fits, the computations are the same. -/
theorem Leads.eq {fits : Prop} {x y : Attempt α} (h : Leads fits x y) (hfits : fits) : x = y :=
  h.resolve_right fun ⟨_, hnot⟩ => hnot hfits

variable {c : Context}

/-- A node is grown if it is not too tall. -/
theorem grow_leads (tree : Expr) (below : Nat) (span : Span) :
    Leads (below + 1 ≤ c.tallest) (grow c tree below span) (.ok ⟨tree, below + 1⟩) := by
  unfold grow
  split
  · exact .inr ⟨⟨span, rfl⟩, by omega⟩
  · exact .inl rfl

/-! ## What comes after a word -/

/-- Tokens at whose front nothing continues a primary. -/
def NoTrailer : Tokens → Prop
  | ⟨.dot, _⟩ :: _ | ⟨.leftParen, _⟩ :: _ => False
  | _ => True

/-- Tokens at whose front a word may end: no operator of at least the bound, no member, no call. -/
structure Ends (bound : Nat) (rest : Tokens) : Prop where
  quiet : Quiet bound rest
  noTrailer : NoTrailer rest

/-- Tokens that are quiet for a bound are so for greater ones. -/
theorem Quiet.mono {bound bound' : Nat} {rest : Tokens} (hle : bound ≤ bound')
    (h : Quiet bound rest) : Quiet bound' rest :=
  fun op hop => Nat.lt_of_lt_of_le (h op hop) hle

/-- A word that may end for a bound may end for greater ones. -/
theorem Ends.mono {bound bound' : Nat} {rest : Tokens} (hle : bound ≤ bound')
    (h : Ends bound rest) : Ends bound' rest :=
  ⟨h.quiet.mono hle, h.noTrailer⟩

/-- A word may end before an operator that binds less strongly than the bound. -/
theorem ends_of_operator {bound : Nat} {sign : Symbol} {op : BinaryOp}
    (hop : sign.binary? = some op) (hlt : op.power < bound) (span : Span) (rest : Tokens) :
    Ends bound (⟨.symbol sign, span⟩ :: rest) := by
  refine ⟨fun op' hop' => ?_, trivial⟩
  rw [operatorAhead?, hop, Option.some.injEq] at hop'
  rwa [← hop']

/-- A token that ends every word. -/
def Closes : Token → Prop
  | .rightParen | .comma | .keyword _ => True
  | _ => False

/-- A word may end before a token that ends every word. -/
theorem ends_of_closes {bound : Nat} {token : Token} (h : Closes token) (span : Span)
    (rest : Tokens) : Ends bound (⟨token, span⟩ :: rest) := by
  cases token
  case rightParen | comma | keyword =>
    exact ⟨(fun _ hop => nomatch hop), trivial⟩
  all_goals cases h

/-- A word may end where no token is left. -/
theorem ends_nil {bound : Nat} : Ends bound [] :=
  ⟨(fun _ hop => nomatch hop), trivial⟩

/-! ## One round of each loop -/

/-- The loop over operators stops where none binds strongly enough. -/
theorem operators_of_quiet {part : Nat → ExprParser} {least : Nat} (rounds : Nat) (left : Grown)
    {rest : Tokens} (h : Quiet least rest) :
    operators c part least rounds left rest = .ok (left, rest) := by
  match rounds, rest with
  | 0, _ | _ + 1, [] => simp [operators]
  | rounds + 1, ⟨value, span⟩ :: rest =>
      cases value
      case symbol sign =>
        rw [operators]
        split
        · rename_i op hop
          rw [if_pos (h op hop)]
        · rfl
      all_goals simp [operators]

/-- One round of the loop over operators: a right operand, and a node over both operands. -/
theorem operators_leads {part : Nat → ExprParser} {least rounds : Nat} {sign : Symbol}
    {op : BinaryOp} {left right : Grown} {mid rest : Tokens} {fits : Prop} (span : Span)
    (hop : sign.binary? = some op) (hleast : least ≤ op.power)
    (hright : Leads fits (part op.rightPower mid) (.ok (right, rest)))
    (hchain : (op.isComparison && comparisonAhead rest) = false)
    (htall : fits → max left.height right.height + 1 ≤ c.tallest) :
    Leads fits (operators c part least (rounds + 1) left (⟨.symbol sign, span⟩ :: mid))
      (operators c part least rounds
        ⟨.binary op left.tree right.tree, max left.height right.height + 1⟩ rest) := by
  rw [operators]
  simp only [hop, if_neg (Nat.not_lt.mpr hleast)]
  refine (hright.bind _).trans ?_
  simp only [hchain, Bool.false_eq_true, if_false]
  exact ((grow_leads _ _ span).weaken htall).bind _

/-- The loop over members and calls stops where none is next. -/
theorem trailers_of_noTrailer {whole : ExprParser} (rounds : Nat) (operand : Grown) {rest : Tokens}
    (h : NoTrailer rest) : trailers c whole rounds operand rest = .ok (operand, rest) := by
  match rounds, rest with
  | 0, _ | _ + 1, [] => simp [trailers]
  | rounds + 1, ⟨value, span⟩ :: rest =>
      cases value
      case dot | leftParen => cases h
      all_goals simp [trailers]

/-- An operand that starts with no symbol has no operator before it. -/
theorem operand_of_not_symbol {whole : ExprParser} {part : Nat → ExprParser} {least : Nat}
    {value : Token} (hvalue : ∀ sign, value ≠ .symbol sign) (span : Span) (ts : Tokens) :
    operand c whole part least (⟨value, span⟩ :: ts) = plain c whole (⟨value, span⟩ :: ts) := by
  unfold operand plain
  cases value
  case symbol sign => exact absurd rfl (hvalue sign)
  all_goals rfl

/-- A token list that is a word with a token inside it. -/
theorem values_eq_append_cons {ls : Tokens} {l r : List Token} {value : Token}
    (h : values ls = l ++ value :: r) :
    ∃ ls₁ span ls₂, ls = ls₁ ++ ⟨value, span⟩ :: ls₂ ∧ values ls₁ = l ∧ values ls₂ = r := by
  obtain ⟨ls₁, tail, rfl, h₁, htail⟩ := List.map_eq_append_iff.mp h
  obtain ⟨⟨value', span⟩, ls₂, rfl, hvalue, h₂⟩ := List.map_eq_cons_iff.mp htail
  exact ⟨ls₁, span, ls₂, by rw [← hvalue], h₁, h₂⟩

/-! ## Words lead through the parsers -/

/-- The words of a level fit into a room: two nestings for each token are enough. -/
def Fits (c : Context) (room : Nat) (w : List Token) (t : Expr) : Prop :=
  2 * w.length ≤ room ∧ t.height ≤ c.tallest

/-- The greatest power with which words of an operator level may be asked for. A word with a sign
may be asked for by a power. -/
def mostAsked (level : Level) : Nat :=
  if level = .signed then 12 else level.strength

/-- The least power of an operator that continues some word of an operator level. -/
def bound : Level → Nat
  | .negation => 3
  | .comparison => 4
  | .signed | .power => 11
  | level => level.strength + 1

/-- Words of an operator level bring the loop over operators to the place after them. -/
def PartLeads (c : Context) (level : Level) (w : List Token) (t : Expr) : Prop :=
  ∀ (room least : Nat) (ls rest : Tokens), values ls = w → least ≤ mostAsked level →
    Ends (bound level) rest →
    ∃ rounds, rest.length ≤ rounds ∧ Leads (Fits c (room + 1) w t)
      (part c (room + 1) least (ls ++ rest))
      (operators c (part c room) least rounds ⟨t, t.height⟩ rest)

/-- Primaries bring the loop over members and calls to the place after them. -/
def PrimaryLeads (c : Context) (w : List Token) (t : Expr) : Prop :=
  ∀ (room : Nat) (ls rest : Tokens), values ls = w →
    ∃ rounds, rest.length ≤ rounds ∧ Leads (Fits c (room + 1) w t)
      (plain c (whole c room) (ls ++ rest))
      (trailers c (whole c room) rounds ⟨t, t.height⟩ rest)

/-- Whole expressions are read in front of anything that ends them. -/
def WholeLeads (c : Context) (w : List Token) (t : Expr) : Prop :=
  ∀ (room : Nat) (ls rest : Tokens), values ls = w → Ends 0 rest →
    (∀ span tail, rest ≠ ⟨.keyword "if", span⟩ :: tail) →
    Leads (0 < room ∧ Fits c (room - 1) w t) (whole c room (ls ++ rest))
      (.ok (⟨t, t.height⟩, rest))

/-- Arguments are read in front of a closing parenthesis. -/
def ArgumentsLead (c : Context) (w : List Token) (args : List Expr) : Prop :=
  ∀ (room rounds : Nat) (ls rest : Tokens) (span : Span), values ls = w → w.length < rounds →
    Leads (0 < room ∧ 2 * w.length ≤ room - 1 ∧ Expr.heightOfAll args ≤ c.tallest)
      (arguments c (whole c room) rounds (ls ++ ⟨.rightParen, span⟩ :: rest))
      (.ok ((args, Expr.heightOfAll args), ⟨.rightParen, span⟩ :: rest))

/-- What the words of each level lead to. -/
def LevelLeads (c : Context) : Level → List Token → Expr → Prop
  | .full => WholeLeads c
  | .primary | .atom => PrimaryLeads c
  | level => PartLeads c level

/-- An operand is read whole if nothing after it binds as strongly as it was asked for. -/
theorem PartLeads.stop {level : Level} {w : List Token} {t : Expr} (h : PartLeads c level w t)
    (hw : 0 < w.length) (room : Nat) {least : Nat} {ls rest : Tokens} (hls : values ls = w)
    (hleast : least ≤ mostAsked level) (hends : Ends (bound level) rest)
    (hquiet : Quiet least rest) :
    Leads (Fits c room w t) (part c room least (ls ++ rest)) (.ok (⟨t, t.height⟩, rest)) := by
  match room with
  | 0 =>
      refine .inr ⟨⟨_, by rw [part]⟩, fun hfits => ?_⟩
      have := hfits.1
      omega
  | room + 1 =>
      obtain ⟨rounds, -, hleads⟩ := h room least ls rest hls hleast hends
      rwa [operators_of_quiet rounds _ hquiet] at hleads

/-- Words of a level are words of the looser operator levels. -/
theorem PartLeads.loosen {level next : Level} {w : List Token} {t : Expr}
    (hmost : mostAsked level ≤ mostAsked next) (hbound : bound level ≤ bound next)
    (h : PartLeads c next w t) : PartLeads c level w t :=
  fun room least ls rest hls hleast hends =>
    h room least ls rest hls (Nat.le_trans hleast hmost) (hends.mono hbound)

/-! ## Operators -/

/-- A primary brings the loop over operators to the place after it. -/
theorem PrimaryLeads.part {w : List Token} {t : Expr} (h : PrimaryLeads c w t)
    (hhead : ∃ value tail, w = value :: tail ∧ ∀ sign, value ≠ .symbol sign) {room least : Nat}
    {ls rest : Tokens} (hls : values ls = w) (hrest : NoTrailer rest) :
    Leads (Fits c (room + 1) w t) (part c (room + 1) least (ls ++ rest))
      (operators c (Parser.part c room) least rest.length ⟨t, t.height⟩ rest) := by
  obtain ⟨value, tail, rfl, hvalue⟩ := hhead
  obtain ⟨⟨value', span⟩, ls', rfl, hv, -⟩ := List.map_eq_cons_iff.mp hls
  obtain ⟨rounds, -, hleads⟩ := h room _ rest hls
  rw [trailers_of_noTrailer rounds _ hrest] at hleads
  rw [Parser.part]
  have hplain :
      operand c (whole c room) (Parser.part c room) least (⟨value', span⟩ :: ls' ++ rest) =
      plain c (whole c room) (⟨value', span⟩ :: ls' ++ rest) :=
    operand_of_not_symbol (fun sign => by rw [show value' = value from hv]; exact hvalue sign) _ _
  rw [hplain]
  exact hleads.bind _

/-- A word of an operator on one operand, from its operand. -/
theorem unary_leads {w : List Token} {t : Expr} {sign : Symbol} {op : UnaryOp} {room least : Nat}
    {ls rest : Tokens} (span : Span) (hop : sign.unary? = some op)
    (hnot : ¬(op = .not ∧ op.power < least))
    (h : Leads (Fits c room w t) (part c room op.power (ls ++ rest)) (.ok (⟨t, t.height⟩, rest))) :
    Leads (Fits c (room + 1) (.symbol sign :: w) (.unary op t))
      (part c (room + 1) least (⟨.symbol sign, span⟩ :: ls ++ rest))
      (operators c (part c room) least rest.length
        ⟨.unary op t, (Expr.unary op t).height⟩ rest) := by
  have hfits : Fits c (room + 1) (.symbol sign :: w) (.unary op t) →
      Fits c room w t ∧ t.height + 1 ≤ c.tallest := by
    rintro ⟨hlength, hheight⟩
    rw [List.length_cons] at hlength
    rw [Expr.height] at hheight
    exact ⟨⟨by omega, by omega⟩, hheight⟩
  have hoperand : Leads (Fits c (room + 1) (.symbol sign :: w) (.unary op t))
      (operand c (whole c room) (part c room) least (⟨.symbol sign, span⟩ :: ls ++ rest))
      (.ok (⟨.unary op t, t.height + 1⟩, rest)) := by
    unfold operand
    simp only [List.cons_append, hop, if_neg hnot]
    refine ((h.weaken fun hf => (hfits hf).1).bind _).trans ?_
    exact ((grow_leads _ _ span).weaken fun hf => (hfits hf).2).bind _
  rw [part, Expr.height]
  exact hoperand.bind _

/-- A word of an operator on two operands, from the loop in front of the operator and its right
operand. -/
theorem binary_leads {l r : List Token} {left right : Expr} {sign : Symbol} {op : BinaryOp}
    {room least rounds : Nat} {ls rs rest : Tokens} {span : Span} (hop : sign.binary? = some op)
    (hleast : least ≤ op.power) (hrounds : (⟨.symbol sign, span⟩ :: (rs ++ rest)).length ≤ rounds)
    (hl : Leads (Fits c (room + 1) l left)
      (part c (room + 1) least (ls ++ ⟨.symbol sign, span⟩ :: (rs ++ rest)))
      (operators c (part c room) least rounds ⟨left, left.height⟩
        (⟨.symbol sign, span⟩ :: (rs ++ rest))))
    (hr : Leads (Fits c room r right) (part c room op.rightPower (rs ++ rest))
      (.ok (⟨right, right.height⟩, rest)))
    (hchain : (op.isComparison && comparisonAhead rest) = false) :
    ∃ rounds, rest.length ≤ rounds ∧
      Leads (Fits c (room + 1) (l ++ .symbol sign :: r) (.binary op left right))
        (part c (room + 1) least (ls ++ ⟨.symbol sign, span⟩ :: (rs ++ rest)))
        (operators c (part c room) least rounds
          ⟨.binary op left right, (Expr.binary op left right).height⟩ rest) := by
  rw [List.length_cons, List.length_append] at hrounds
  obtain ⟨rounds, rfl⟩ : ∃ n, rounds = n + 1 := ⟨rounds - 1, by omega⟩
  refine ⟨rounds, by omega, ?_⟩
  have hfits : Fits c (room + 1) (l ++ .symbol sign :: r) (.binary op left right) →
      Fits c (room + 1) l left ∧ Fits c room r right ∧
        max left.height right.height + 1 ≤ c.tallest := by
    rintro ⟨hlength, hheight⟩
    rw [List.length_append, List.length_cons] at hlength
    rw [Expr.height] at hheight
    exact ⟨⟨by omega, by omega⟩, ⟨by omega, by omega⟩, hheight⟩
  rw [Expr.height]
  refine (hl.weaken fun hf => (hfits hf).1).trans ?_
  exact operators_leads span hop hleast (hr.weaken fun hf => (hfits hf).2.1) hchain
    fun hf => (hfits hf).2.2

/-- The bounds of a left-associative level, in terms of its operators. -/
theorem leftSigns_bounds {level next : Level} {sign : Symbol} {op : BinaryOp}
    (hs : (sign, op) ∈ level.leftSigns) (hnext : level.tighter? = some next) :
    mostAsked level = op.power ∧ bound level = op.rightPower ∧ op.power < op.rightPower ∧
      op.rightPower ≤ mostAsked next ∧ bound level ≤ bound next ∧ op.isComparison = false := by
  have hall : ∀ entry ∈ level.leftSigns, mostAsked level = entry.2.power ∧
      bound level = entry.2.rightPower ∧ entry.2.power < entry.2.rightPower ∧
      entry.2.rightPower ≤ mostAsked next ∧ bound level ≤ bound next ∧
      entry.2.isComparison = false := by
    cases level <;> cases hnext <;> decide
  exact hall _ hs

/-- `left op right` at a level that associates to the left. -/
theorem PartLeads.left {level next : Level} {sign : Symbol} {op : BinaryOp} {l r : List Token}
    {left right : Expr} (hs : (sign, op) ∈ level.leftSigns)
    (hnext : level.tighter? = some next) (hl : PartLeads c level l left)
    (hr : PartLeads c next r right) (hlength : 0 < r.length) :
    PartLeads c level (l ++ .symbol sign :: r) (.binary op left right) := by
  intro room least ls rest hls hleast hends
  obtain ⟨hmost, hbound, hlt, hasked, hle, hcmp⟩ := leftSigns_bounds hs hnext
  have hop := binary?_of_mem_leftSigns hs
  obtain ⟨ls₁, span, ls₂, rfl, h₁, h₂⟩ := values_eq_append_cons hls
  rw [List.append_assoc, List.cons_append]
  obtain ⟨rounds, hrounds, hleads⟩ := hl room least ls₁ (⟨.symbol sign, span⟩ :: (ls₂ ++ rest)) h₁
    hleast (ends_of_operator hop (by omega) span _)
  refine binary_leads hop (by omega) hrounds hleads ?_ (by simp [hcmp])
  exact hr.stop hlength room h₂ hasked (hends.mono hle) (hends.quiet.mono (by omega))

/-- `left op right` for a comparison. -/
theorem PartLeads.comparison {sign : Symbol} {op : BinaryOp} {l r : List Token} {left right : Expr}
    (hs : (sign, op) ∈ comparisonSigns) (hl : PartLeads c .bitOr l left)
    (hr : PartLeads c .bitOr r right) (hlength : 0 < r.length) :
    PartLeads c .comparison (l ++ .symbol sign :: r) (.binary op left right) := by
  intro room least ls rest hls hleast hends
  have hop := binary?_of_mem_comparisonSigns hs
  have hpower : op.power = 4 ∧ op.rightPower = 5 := by
    have hall : ∀ entry ∈ comparisonSigns, entry.2.power = 4 ∧ entry.2.rightPower = 5 := by decide
    exact hall _ hs
  have hleast : least ≤ 4 := hleast
  obtain ⟨ls₁, span, ls₂, rfl, h₁, h₂⟩ := values_eq_append_cons hls
  rw [List.append_assoc, List.cons_append]
  obtain ⟨rounds, hrounds, hleads⟩ := hl room least ls₁ (⟨.symbol sign, span⟩ :: (ls₂ ++ rest)) h₁
    (Nat.le_trans hleast (by decide)) (ends_of_operator hop (by rw [hpower.1]; decide) span _)
  -- What may follow binds less than a comparison, so there is no chain.
  have hchain : comparisonAhead rest = false := by
    rw [comparisonAhead_eq]
    cases hahead : operatorAhead? rest with
    | none => rfl
    | some op' =>
        have hlt : op'.power < 4 := hends.quiet op' hahead
        rw [Option.any_some, Bool.eq_false_iff, ne_eq, isComparison_iff_power]
        omega
  refine binary_leads hop (by omega) hrounds hleads ?_ (by simp [hchain])
  rw [hpower.2]
  exact hr.stop hlength room h₂ (by decide) (hends.mono (by decide)) (hends.quiet.mono (by decide))

/-- `base ** exponent` -/
theorem PartLeads.power {l r : List Token} {base exponent : Expr} (hl : PrimaryLeads c l base)
    (hhead : ∃ value tail, l = value :: tail ∧ ∀ sign, value ≠ .symbol sign)
    (hr : PartLeads c .signed r exponent) (hlength : 0 < r.length) :
    PartLeads c .power (l ++ .symbol .doubleStar :: r) (.binary .pow base exponent) := by
  intro room least ls rest hls hleast hends
  obtain ⟨ls₁, span, ls₂, rfl, h₁, h₂⟩ := values_eq_append_cons hls
  rw [List.append_assoc, List.cons_append]
  refine binary_leads rfl hleast (Nat.le_refl _) (hl.part hhead h₁ trivial) ?_ rfl
  exact hr.stop hlength room h₂ (by decide) hends (hends.quiet.mono (by decide))

/-- `not operand` -/
theorem PartLeads.negation {w : List Token} {t : Expr} (h : PartLeads c .negation w t)
    (hlength : 0 < w.length) : PartLeads c .negation (.symbol .not :: w) (.unary .not t) := by
  intro room least ls rest hls hleast hends
  obtain ⟨⟨value, span⟩, ls, rfl, rfl, h₂⟩ := List.map_eq_cons_iff.mp hls
  have hleast : least ≤ 3 := hleast
  refine ⟨rest.length, Nat.le_refl _, unary_leads span rfl ?_ ?_⟩
  · rintro ⟨-, hlt⟩
    exact Nat.not_lt.mpr hleast hlt
  · exact h.stop hlength room h₂ (by decide) hends hends.quiet

/-- `+operand`, `-operand`, `~operand` -/
theorem PartLeads.signed {sign : Symbol} {op : UnaryOp} {w : List Token} {t : Expr}
    (hs : (sign, op) ∈ signs) (h : PartLeads c .signed w t) (hlength : 0 < w.length) :
    PartLeads c .signed (.symbol sign :: w) (.unary op t) := by
  intro room least ls rest hls hleast hends
  obtain ⟨⟨value, span⟩, ls, rfl, rfl, h₂⟩ := List.map_eq_cons_iff.mp hls
  have hpower : op ≠ .not ∧ op.power = 11 := by
    have hall : ∀ entry ∈ signs, entry.2 ≠ .not ∧ entry.2.power = 11 := by decide
    exact hall _ hs
  refine ⟨rest.length, Nat.le_refl _, unary_leads span (unary?_of_mem_signs hs)
    (fun hnot => hpower.1 hnot.1) ?_⟩
  rw [hpower.2]
  exact h.stop hlength room h₂ (by decide) hends hends.quiet

/-! ## Atoms, members and calls -/

/-- A word starts with no closing parenthesis, and if it is a power or tighter with no symbol. -/
theorem derives_head : ∀ {level : Level} {w : List Token} {t : Expr}, Derives level w t →
    ∃ value tail, w = value :: tail ∧ value ≠ .rightParen ∧
      (12 ≤ level.strength → ∀ sign, value ≠ .symbol sign)
  | _, _, _, .tighter hnext h => by
      obtain ⟨value, tail, rfl, hparen, hsymbol⟩ := derives_head h
      have := Level.strength_of_tighter? hnext
      exact ⟨value, tail, rfl, hparen, fun hle => hsymbol (by omega)⟩
  | _, _, _, .conditional h _ _ => by
      obtain ⟨value, tail, rfl, hparen, hsymbol⟩ := derives_head h
      exact ⟨value, _, rfl, hparen, fun hle => absurd hle (by decide)⟩
  | _, _, _, .left _ _ h _ => by
      obtain ⟨value, tail, rfl, hparen, hsymbol⟩ := derives_head h
      exact ⟨value, _, rfl, hparen, hsymbol⟩
  | _, _, _, .comparison _ h _ => by
      obtain ⟨value, tail, rfl, hparen, hsymbol⟩ := derives_head h
      exact ⟨value, _, rfl, hparen, fun hle => absurd hle (by decide)⟩
  | _, _, _, .power h _ | _, _, _, .member h | _, _, _, .call h _ => by
      obtain ⟨value, tail, rfl, hparen, hsymbol⟩ := derives_head h
      exact ⟨value, _, rfl, hparen, fun _ => hsymbol (by decide)⟩
  | _, _, _, .negation _ | _, _, _, .signed .. =>
      ⟨_, _, rfl, by simp, fun hle => absurd hle (by decide)⟩
  | _, _, _, .number | _, _, _, .quoted | _, _, _, .name | _, _, _, .paren _ =>
      ⟨_, _, rfl, by simp, by simp⟩

/-- Located tokens whose word starts with no closing parenthesis do not start with one. -/
theorem ne_rightParen_of_head {w : List Token} {ls : Tokens} (hls : values ls = w)
    (hhead : ∃ value tail, w = value :: tail ∧ value ≠ .rightParen) (rest : Tokens) (span : Span)
    (tail : Tokens) : ls ++ rest ≠ ⟨.rightParen, span⟩ :: tail := by
  obtain ⟨value, tail', rfl, hvalue⟩ := hhead
  obtain ⟨⟨value', span'⟩, ls', rfl, hv, -⟩ := List.map_eq_cons_iff.mp hls
  intro heq
  rw [List.cons_append, List.cons.injEq, Located.mk.injEq] at heq
  exact hvalue (hv ▸ heq.1.1)

/-- An expression in parentheses, from the expression. -/
theorem PrimaryLeads.paren {w : List Token} {t : Expr} (h : WholeLeads c w t)
    (hhead : ∃ value tail, w = value :: tail ∧ value ≠ .rightParen) :
    PrimaryLeads c (.leftParen :: (w ++ [.rightParen])) t := by
  intro room ls rest hls
  obtain ⟨⟨value, span⟩, ls, rfl, rfl, htail⟩ := List.map_eq_cons_iff.mp hls
  obtain ⟨ls, span', last, rfl, h₁, hlast⟩ := values_eq_append_cons htail
  obtain rfl : last = [] := List.map_eq_nil_iff.mp hlast
  refine ⟨rest.length, Nat.le_refl _, ?_⟩
  have hfits : Fits c (room + 1) (.leftParen :: (w ++ [.rightParen])) t →
      0 < room ∧ Fits c (room - 1) w t := by
    rintro ⟨hlength, hheight⟩
    simp only [List.length_cons, List.length_append, List.length_nil] at hlength
    exact ⟨by omega, by omega, hheight⟩
  have hinner := h room ls (⟨.rightParen, span'⟩ :: rest) h₁ (ends_of_closes (by trivial) _ _)
    (by simp)
  have hatom : Leads (Fits c (room + 1) (.leftParen :: (w ++ [.rightParen])) t)
      (atom c (whole c room) (⟨.leftParen, span⟩ :: (ls ++ ⟨.rightParen, span'⟩ :: rest)))
      (.ok (⟨t, t.height⟩, rest)) := by
    rw [atom]
    · exact (hinner.weaken hfits).bind _
    · intro span'' tail heq
      exact absurd heq (ne_rightParen_of_head h₁ hhead _ _ _)
  unfold plain
  rw [List.cons_append, List.append_assoc, List.cons_append, List.nil_append]
  exact hatom.bind _

/-- A leaf. -/
theorem primaryLeads_leaf {value : Token} {t : Expr} (hheight : t.height = 1)
    (hatom : ∀ whole span rest, atom c whole (⟨value, span⟩ :: rest) = .ok (⟨t, 1⟩, rest)) :
    PrimaryLeads c [value] t := by
  intro room ls rest hls
  obtain ⟨⟨value', span⟩, ls, rfl, rfl, htail⟩ := List.map_eq_cons_iff.mp hls
  obtain rfl : ls = [] := List.map_eq_nil_iff.mp htail
  refine ⟨rest.length, Nat.le_refl _, ?_⟩
  unfold plain
  rw [List.cons_append, List.nil_append, hatom, hheight]
  exact .refl _ _

/-- `value.field` -/
theorem PrimaryLeads.member {w : List Token} {t : Expr} (h : PrimaryLeads c w t) (field : String) :
    PrimaryLeads c (w ++ [.dot, .name field]) (.member t field) := by
  intro room ls rest hls
  obtain ⟨ls₁, span, ls₂, rfl, h₁, h₂⟩ := values_eq_append_cons hls
  obtain ⟨⟨value, span'⟩, ls₃, rfl, rfl, h₃⟩ := List.map_eq_cons_iff.mp h₂
  obtain rfl : ls₃ = [] := List.map_eq_nil_iff.mp h₃
  simp only [List.append_assoc, List.cons_append, List.nil_append]
  obtain ⟨rounds, hrounds, hleads⟩ :=
    h room ls₁ (⟨.dot, span⟩ :: ⟨.name field, span'⟩ :: rest) h₁
  simp only [List.length_cons] at hrounds
  obtain ⟨rounds, rfl⟩ : ∃ n, rounds = n + 1 := ⟨rounds - 1, by omega⟩
  refine ⟨rounds, by omega, ?_⟩
  have hfits : Fits c (room + 1) (w ++ [.dot, .name field]) (.member t field) →
      Fits c (room + 1) w t ∧ t.height + 1 ≤ c.tallest := by
    rintro ⟨hlength, hheight⟩
    rw [List.length_append] at hlength
    rw [Expr.height] at hheight
    exact ⟨⟨by omega, by omega⟩, hheight⟩
  rw [Expr.height]
  refine (hleads.weaken fun hf => (hfits hf).1).trans ?_
  rw [trailers]
  exact ((grow_leads _ _ span).weaken fun hf => (hfits hf).2).bind _

/-- `function(arguments)` -/
theorem PrimaryLeads.call {w a : List Token} {t : Expr} {args : List Expr} (h : PrimaryLeads c w t)
    (hargs : ArgumentsLead c a args) :
    PrimaryLeads c (w ++ .leftParen :: (a ++ [.rightParen])) (.call t args) := by
  intro room ls rest hls
  obtain ⟨ls₁, span, tail, rfl, h₁, htail⟩ := values_eq_append_cons hls
  obtain ⟨ls₂, span', ls₃, rfl, h₂, h₃⟩ := values_eq_append_cons htail
  obtain rfl : ls₃ = [] := List.map_eq_nil_iff.mp h₃
  simp only [List.append_assoc, List.cons_append, List.nil_append]
  obtain ⟨rounds, hrounds, hleads⟩ :=
    h room ls₁ (⟨.leftParen, span⟩ :: (ls₂ ++ ⟨.rightParen, span'⟩ :: rest)) h₁
  simp only [List.length_cons, List.length_append] at hrounds
  obtain ⟨rounds, rfl⟩ : ∃ n, rounds = n + 1 := ⟨rounds - 1, by omega⟩
  refine ⟨rounds, by omega, ?_⟩
  have hfits : Fits c (room + 1) (w ++ .leftParen :: (a ++ [.rightParen])) (.call t args) →
      Fits c (room + 1) w t ∧
        (0 < room ∧ 2 * a.length ≤ room - 1 ∧ Expr.heightOfAll args ≤ c.tallest) ∧
        max t.height (Expr.heightOfAll args) + 1 ≤ c.tallest := by
    rintro ⟨hlength, hheight⟩
    simp only [List.length_append, List.length_cons, List.length_nil] at hlength
    rw [Expr.height] at hheight
    exact ⟨⟨by omega, by omega⟩, ⟨by omega, by omega, by omega⟩, hheight⟩
  rw [Expr.height]
  refine (hleads.weaken fun hf => (hfits hf).1).trans ?_
  rw [trailers]
  have hlength : a.length < (ls₂ ++ ⟨.rightParen, span'⟩ :: rest).length + 1 := by
    have := congrArg List.length h₂
    rw [length_values] at this
    rw [List.length_append]
    omega
  have hread := hargs room _ ls₂ rest span' h₂ hlength
  refine ((hread.weaken fun hf => (hfits hf).2.1).bind _).trans ?_
  exact ((grow_leads _ _ span).weaken fun hf => (hfits hf).2.2).bind _

/-- No arguments. -/
theorem argumentsLead_none : ArgumentsLead c [] [] := by
  intro room rounds ls rest span hls _
  obtain rfl : ls = [] := List.map_eq_nil_iff.mp hls
  rw [List.nil_append, arguments_rightParen]
  exact .refl _ _

/-- The last argument. -/
theorem argumentsLead_last {w : List Token} {t : Expr} (h : WholeLeads c w t)
    (hhead : ∃ value tail, w = value :: tail ∧ value ≠ .rightParen) : ArgumentsLead c w [t] := by
  intro room rounds ls rest span hls hrounds
  obtain ⟨rounds, rfl⟩ : ∃ n, rounds = n + 1 := ⟨rounds - 1, by omega⟩
  have hread := h room ls (⟨.rightParen, span⟩ :: rest) hls (ends_of_closes (by trivial) _ _)
    (by simp)
  rw [arguments]
  · refine ((hread.weaken ?_).bind _).trans ?_
    · rintro ⟨hroom, hlength, hheight⟩
      exact ⟨hroom, hlength, by simpa [Expr.heightOfAll] using hheight⟩
    · simp only [Expr.heightOfAll, Nat.max_zero]
      exact .refl _ _
  · exact fun span' tail heq => absurd heq (ne_rightParen_of_head hls hhead _ _ _)

/-- An argument with others after it. -/
theorem argumentsLead_more {w ws : List Token} {t : Expr} {ts : List Expr} (h : WholeLeads c w t)
    (hhead : ∃ value tail, w = value :: tail ∧ value ≠ .rightParen)
    (hmore : ArgumentsLead c ws ts) :
    ArgumentsLead c (w ++ .comma :: ws) (t :: ts) := by
  intro room rounds ls rest span hls hrounds
  obtain ⟨ls₁, comma, ls₂, rfl, h₁, h₂⟩ := values_eq_append_cons hls
  rw [List.length_append, List.length_cons] at hrounds
  obtain ⟨rounds, rfl⟩ : ∃ n, rounds = n + 1 := ⟨rounds - 1, by omega⟩
  have hfits : (0 < room ∧ 2 * (w ++ Token.comma :: ws).length ≤ room - 1 ∧
      Expr.heightOfAll (t :: ts) ≤ c.tallest) →
      (0 < room ∧ Fits c (room - 1) w t) ∧
        (0 < room ∧ 2 * ws.length ≤ room - 1 ∧ Expr.heightOfAll ts ≤ c.tallest) := by
    rintro ⟨hroom, hlength, hheight⟩
    rw [List.length_append, List.length_cons] at hlength
    rw [Expr.heightOfAll] at hheight
    exact ⟨⟨hroom, by omega, by omega⟩, hroom, by omega, by omega⟩
  have hread := h room ls₁ (⟨.comma, comma⟩ :: (ls₂ ++ ⟨.rightParen, span⟩ :: rest)) h₁
    (ends_of_closes (by trivial) _ _) (by simp)
  have hothers := hmore room rounds ls₂ rest span h₂ (by omega)
  rw [List.append_assoc, List.cons_append, arguments]
  · refine ((hread.weaken fun hf => (hfits hf).1).bind _).trans ?_
    refine ((hothers.weaken fun hf => (hfits hf).2).bind _).trans ?_
    rw [Expr.heightOfAll]
    exact .refl _ _
  · exact fun span' tail heq => absurd heq (ne_rightParen_of_head h₁ hhead _ _ _)

/-! ## Whole expressions -/

/-- Without room nothing is read, so there may be room. -/
theorem wholeLeads_of_succ {w : List Token} {t : Expr}
    (h : ∀ (room : Nat) (ls rest : Tokens), values ls = w → Ends 0 rest →
      (∀ span tail, rest ≠ ⟨.keyword "if", span⟩ :: tail) →
      Leads (Fits c room w t) (whole c (room + 1) (ls ++ rest)) (.ok (⟨t, t.height⟩, rest))) :
    WholeLeads c w t := by
  intro room ls rest hls hends hif
  match room with
  | 0 =>
      refine .inr ⟨⟨_, by rw [whole]⟩, fun hfits => ?_⟩
      exact Nat.lt_irrefl 0 hfits.1
  | room + 1 => exact (h room ls rest hls hends hif).weaken fun hfits => hfits.2

/-- A whole expression without a condition. -/
theorem WholeLeads.of_part {w : List Token} {t : Expr} (h : PartLeads c .disjunction w t)
    (hlength : 0 < w.length) : WholeLeads c w t := by
  refine wholeLeads_of_succ fun room ls rest hls hends hif => ?_
  have hread := h.stop hlength room hls (Nat.zero_le _) (hends.mono (Nat.zero_le _)) hends.quiet
  rw [whole]
  refine (hread.bind _).trans ?_
  dsimp only
  split
  · exact absurd rfl (hif _ _)
  · exact .refl _ _

/-- `body if test else alternative` -/
theorem WholeLeads.conditional {b e a : List Token} {body test alternative : Expr}
    (hb : PartLeads c .disjunction b body) (hblength : 0 < b.length)
    (he : PartLeads c .disjunction e test) (helength : 0 < e.length)
    (ha : WholeLeads c a alternative) :
    WholeLeads c (b ++ .keyword "if" :: (e ++ .keyword "else" :: a))
      (.conditional test body alternative) := by
  refine wholeLeads_of_succ fun room ls rest hls hends hif => ?_
  obtain ⟨ls₁, span, tail, rfl, h₁, htail⟩ := values_eq_append_cons hls
  obtain ⟨ls₂, span', ls₃, rfl, h₂, h₃⟩ := values_eq_append_cons htail
  simp only [List.append_assoc, List.cons_append]
  have hfits : Fits c room (b ++ .keyword "if" :: (e ++ .keyword "else" :: a))
      (.conditional test body alternative) →
      Fits c room b body ∧ Fits c room e test ∧ (0 < room ∧ Fits c (room - 1) a alternative) ∧
        max (max body.height test.height) alternative.height + 1 ≤ c.tallest := by
    rintro ⟨hlength, hheight⟩
    simp only [List.length_append, List.length_cons] at hlength
    rw [Expr.height] at hheight
    exact ⟨⟨by omega, by omega⟩, ⟨by omega, by omega⟩, ⟨by omega, by omega, by omega⟩, hheight⟩
  have hendsIf : Ends 0 (⟨.keyword "if", span⟩ ::
      (ls₂ ++ ⟨.keyword "else", span'⟩ :: (ls₃ ++ rest))) := ends_of_closes (by trivial) _ _
  have hendsElse : Ends 0 (⟨.keyword "else", span'⟩ :: (ls₃ ++ rest)) :=
    ends_of_closes (by trivial) _ _
  have hbody := hb.stop hblength room h₁ (Nat.zero_le _)
    (hendsIf.mono (Nat.zero_le _)) hendsIf.quiet
  have htest := he.stop helength room h₂ (Nat.zero_le _) (hendsElse.mono (Nat.zero_le _))
    hendsElse.quiet
  have halternative := ha room ls₃ rest h₃ hends hif
  rw [whole, Expr.height]
  refine ((hbody.weaken fun hf => (hfits hf).1).bind _).trans ?_
  refine ((htest.weaken fun hf => (hfits hf).2.1).bind _).trans ?_
  refine ((halternative.weaken fun hf => (hfits hf).2.2.1).bind _).trans ?_
  exact ((grow_leads _ _ span).weaken fun hf => (hfits hf).2.2.2).bind _

/-! ## Every word leads -/

/-- A tree of the next tighter level. -/
theorem levelLeads_of_tighter {level next : Level} {w : List Token} {t : Expr}
    (hnext : level.tighter? = some next) (hd : Derives next w t) (h : LevelLeads c next w t) :
    LevelLeads c level w t := by
  obtain ⟨value, tail, hw, -, hsymbol⟩ := derives_head hd
  cases level <;> cases hnext
  case full => exact .of_part h hd.length_pos
  case power =>
    intro room least ls rest hls _ hends
    exact ⟨rest.length, Nat.le_refl _,
      PrimaryLeads.part h ⟨value, tail, hw, hsymbol (by decide)⟩ hls hends.noTrailer⟩
  case primary => exact h
  all_goals exact PartLeads.loosen (by decide) (by decide) h

mutual
/-- A word of the grammar, in front of what ends it, is read as its tree or meets a limit. -/
theorem levelLeads_of_derives (c : Context) : ∀ {level : Level} {w : List Token} {t : Expr},
    Derives level w t → LevelLeads c level w t
  | _, _, _, .conditional hb he ha =>
      .conditional (levelLeads_of_derives c hb) hb.length_pos (levelLeads_of_derives c he)
        he.length_pos (levelLeads_of_derives c ha)
  | _, _, _, .tighter hnext h => levelLeads_of_tighter hnext h (levelLeads_of_derives c h)
  | level, _, _, .left hs hnext hl hr => by
      have hleft := levelLeads_of_derives c hl
      have hright := levelLeads_of_derives c hr
      have hlength := hr.length_pos
      cases level <;> cases hnext
      case disjunction | conjunction | bitOr | bitXor | bitAnd | shift | sum | product =>
        exact PartLeads.left hs rfl hleft hright hlength
      all_goals cases hs
  | _, _, _, .negation h => PartLeads.negation (levelLeads_of_derives c h) h.length_pos
  | _, _, _, .comparison hs hl hr =>
      PartLeads.comparison hs (levelLeads_of_derives c hl) (levelLeads_of_derives c hr)
        hr.length_pos
  | _, _, _, .signed hs h => PartLeads.signed hs (levelLeads_of_derives c h) h.length_pos
  | _, _, _, .power hl hr => by
      obtain ⟨value, tail, hw, -, hsymbol⟩ := derives_head hl
      exact PartLeads.power (levelLeads_of_derives c hl) ⟨value, tail, hw, hsymbol (by decide)⟩
        (levelLeads_of_derives c hr) hr.length_pos
  | _, _, _, .member h => PrimaryLeads.member (levelLeads_of_derives c h) _
  | _, _, _, .call h hargs =>
      PrimaryLeads.call (levelLeads_of_derives c h) (argumentsLead_of_derives c hargs)
  | _, _, _, .number => primaryLeads_leaf rfl fun _ _ _ => rfl
  | _, _, _, .quoted => primaryLeads_leaf rfl fun _ _ _ => rfl
  | _, _, _, .name => primaryLeads_leaf rfl fun _ _ _ => rfl
  | _, _, _, .paren h => by
      obtain ⟨value, tail, hw, hparen, -⟩ := derives_head h
      exact PrimaryLeads.paren (levelLeads_of_derives c h) ⟨value, tail, hw, hparen⟩

/-- Arguments in front of a closing parenthesis are read as their trees or meet a limit. -/
theorem argumentsLead_of_derives (c : Context) : ∀ {w : List Token} {ts : List Expr},
    DerivesArguments w ts → ArgumentsLead c w ts
  | _, _, .none => argumentsLead_none
  | _, _, .last h => by
      obtain ⟨value, tail, hw, hparen, -⟩ := derives_head h
      exact argumentsLead_last (levelLeads_of_derives c h) ⟨value, tail, hw, hparen⟩
  | _, _, .more h hmore => by
      obtain ⟨value, tail, hw, hparen, -⟩ := derives_head h
      exact argumentsLead_more (levelLeads_of_derives c h) ⟨value, tail, hw, hparen⟩
        (argumentsLead_of_derives c hmore)
end

/-- A whole word leads to its tree. -/
theorem whole_leads {c : Context} {ts : Tokens} {t : Expr} (h : Derives .full (values ts) t)
    (room : Nat) :
    Leads (0 < room ∧ Fits c (room - 1) (values ts) t) (whole c room ts)
      (.ok (⟨t, t.height⟩, [])) := by
  have hleads : WholeLeads c (values ts) t := levelLeads_of_derives c h
  simpa using hleads room ts [] rfl ends_nil (by simp)

/-- **Completeness.** Tokens of the grammar are read as their tree, or meet a limit. There is no
limit to meet for few tokens whose tree is not too tall. -/
theorem parse_of_derives (finish : Span) {ts : Tokens} {t : Expr}
    (h : Derives .full (values ts) t) :
    parse finish ts = .ok t ∨ (∃ span, parse finish ts = .error ⟨.nestedTooDeeply, span⟩) ∧
      (maxNesting ≤ 2 * ts.length ∨ maxHeight < t.height) := by
  have hleads : Leads (2 * ts.length < maxNesting ∧ t.height ≤ maxHeight)
      (parse finish ts) (.ok t) := by
    unfold parse
    refine ((whole_leads h maxNesting).weaken fun ⟨hlength, hheight⟩ => ?_).bind _
    rw [← length_values] at hlength
    exact ⟨by decide, Nat.le_pred_of_lt hlength, hheight⟩
  refine hleads.imp_right fun ⟨hspan, hnot⟩ => ⟨hspan, ?_⟩
  omega

/-- **Unambiguity.** No token list has two trees: with enough room the parser returns both. -/
theorem derives_unique {ts : Tokens} {t u : Expr} (ht : Derives .full (values ts) t)
    (hu : Derives .full (values ts) u) : t = u := by
  let c : Context := ⟨⟨0, 0⟩, max t.height u.height⟩
  let room := 2 * (values ts).length + 1
  have hwt : whole c room ts = .ok (⟨t, t.height⟩, []) :=
    (whole_leads ht room).eq ⟨Nat.succ_pos _, Nat.le_refl _, Nat.le_max_left _ _⟩
  have hwu : whole c room ts = .ok (⟨u, u.height⟩, []) :=
    (whole_leads hu room).eq ⟨Nat.succ_pos _, Nat.le_refl _, Nat.le_max_right _ _⟩
  rw [hwt] at hwu
  simp only [Except.ok.injEq, Prod.mk.injEq, Grown.mk.injEq, and_true] at hwu
  exact hwu.1

end Parser

/-! ## Equations -/

namespace Equation

open Grammar Elementwise.Parser

/-- **The parser is exact.** An equation that is made of tokens is a tree of the grammar. Tokens
that form a tree are read as that tree, unless they nest too deeply, and form no other. Few tokens
whose tree is not too tall never nest too deeply. -/
theorem ofTokens_exact (source : List Char) (tokens : List (Located Token)) :
    (∀ t, ofTokens source tokens = .ok ⟨t⟩ → Derives .full (values tokens) t) ∧
      (∀ t, Derives .full (values tokens) t →
        ofTokens source tokens = .ok ⟨t⟩ ∨
          (∃ fragment span,
            ofTokens source tokens = .error (.invalidSyntax .nestedTooDeeply fragment span)) ∧
            (maxNesting ≤ 2 * tokens.length ∨ maxHeight < t.height)) ∧
      ∀ t u, Derives .full (values tokens) t → Derives .full (values tokens) u → t = u := by
  refine ⟨fun t h => ?_, fun t h => ?_, fun t u => derives_unique⟩
  · unfold ofTokens at h
    split at h
    · cases h
    · split at h
      · rename_i tree hparse
        cases h
        exact (derives_of_parse hparse).1
      · cases h
  · have hne : tokens.isEmpty = false := by
      rw [List.isEmpty_eq_false_iff]
      rintro rfl
      exact h.ne_nil rfl
    unfold ofTokens
    rw [if_neg (by simp [hne])]
    rcases parse_of_derives (finish source) h with hparse | ⟨⟨span, hparse⟩, hlimit⟩
    · exact .inl (by rw [hparse])
    · exact .inr ⟨⟨_, _, by rw [hparse]; rfl⟩, hlimit⟩

/-- The tokens of `2 ** -x < 5`: a sign after a power, and a comparison of the result. -/
def signedExponent : List (Located Token) :=
  [⟨.number (.int 2), ⟨0, 1⟩⟩, ⟨.symbol .doubleStar, ⟨2, 4⟩⟩, ⟨.symbol .minus, ⟨5, 6⟩⟩,
    ⟨.name "x", ⟨6, 7⟩⟩, ⟨.symbol .less, ⟨8, 9⟩⟩, ⟨.number (.int 5), ⟨10, 11⟩⟩]

/-- The tree of `2 ** -x < 5`. -/
def signedExponentTree : Expr :=
  .binary .lt (.binary .pow (.number (.int 2)) (.unary .minus (.name "x"))) (.number (.int 5))

/-- The parser reads `2 ** -x < 5`, so it is in the grammar, and it has one tree only. -/
theorem ofTokens_exact_signedExponent :
    ofTokens [] signedExponent = .ok ⟨signedExponentTree⟩ ∧
      Derives .full (values signedExponent) signedExponentTree ∧
      ∀ u, Derives .full (values signedExponent) u → signedExponentTree = u := by
  have hparse : ofTokens [] signedExponent = .ok ⟨signedExponentTree⟩ := rfl
  obtain ⟨hsound, -, hunique⟩ := ofTokens_exact [] signedExponent
  exact ⟨hparse, hsound _ hparse, fun u => hunique _ u (hsound _ hparse)⟩

end Equation

end Elementwise
