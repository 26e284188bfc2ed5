import Elementwise.Equation
import Elementwise.Proofs.Grammar.Reading

/-!
# Trees do not depend on places

Spans are carried along for messages only. Tokens that differ in nothing but their spans form the
same tree, or both form none (`Parser.parse_eq_ok_iff`). Each parser is compared with itself on two
such lists (`Agrees`), with the loops by induction on their rounds and the expressions by induction
on the nesting that is left.
-/

namespace Elementwise

namespace Parser

/-- Token lists that differ in the places of their tokens only. -/
inductive SameValues : Tokens → Tokens → Prop
  | nil : SameValues [] []
  | cons (value : Token) (span span' : Span) {ts us : Tokens} (h : SameValues ts us) :
      SameValues (⟨value, span⟩ :: ts) (⟨value, span'⟩ :: us)

/-- Tokens with the same values differ in their places only. -/
theorem sameValues_of_values_eq {ts us : Tokens} (h : values ts = values us) :
    SameValues ts us := by
  induction ts generalizing us with
  | nil =>
      obtain rfl := List.map_eq_nil_iff.mp h.symm
      exact .nil
  | cons t ts ih =>
      obtain ⟨u, us, rfl, hvalue, hrest⟩ := List.map_eq_cons_iff.mp h.symm
      obtain ⟨value, span⟩ := t
      obtain ⟨_, span'⟩ := u
      cases hvalue
      exact .cons value span span' (ih hrest.symm)

/-- Such lists have the same length. -/
theorem SameValues.length_eq {ts us : Tokens} (h : SameValues ts us) : ts.length = us.length := by
  induction h with
  | nil => rfl
  | cons _ _ _ _ ih => rw [List.length_cons, List.length_cons, ih]

/-! ## Attempts that agree -/

/-- Two attempts agree if both fail, or both succeed with related results. -/
inductive Agrees {α : Type} (R : α → α → Prop) : Attempt α → Attempt α → Prop
  | ok {a b : α} (h : R a b) : Agrees R (.ok a) (.ok b)
  | error (m m' : Located Mistake) : Agrees R (.error m) (.error m')

/-- Attempts in sequence agree if the first ones do, and the others do on related results. -/
theorem Agrees.bind {α β : Type} {R : α → α → Prop} {S : β → β → Prop} {x y : Attempt α}
    {f g : α → Attempt β} (h : Agrees R x y) (hthen : ∀ a b, R a b → Agrees S (f a) (g b)) :
    Agrees S (x >>= f) (y >>= g) := by
  cases h with
  | ok h => exact hthen _ _ h
  | error m m' => exact .error m m'

/-- The same result in front of tokens that differ in their places only. -/
def SameRead {α : Type} (x y : α × Tokens) : Prop :=
  x.1 = y.1 ∧ SameValues x.2 y.2

/-- Parsers that agree on tokens that differ in their places only. -/
def Alike (p q : ExprParser) : Prop :=
  ∀ ts us, SameValues ts us → Agrees SameRead (p ts) (q us)

variable {c c' : Context} {ts us : Tokens}

/-- A node is too high in both readings or in neither, wherever it stands. -/
theorem grow_agrees (hc : c.tallest = c'.tallest) (tree : Expr) (below : Nat) (span span' : Span) :
    Agrees Eq (grow c tree below span) (grow c' tree below span') := by
  unfold grow
  rw [hc]
  split
  · exact .error _ _
  · exact .ok rfl

/-- A closing parenthesis is there in both readings or in neither. -/
theorem closing_agrees (h : SameValues ts us) :
    Agrees SameValues (closing c ts) (closing c' us) := by
  cases h with
  | nil => exact .error _ _
  | cons value span span' h =>
      cases value
      case rightParen => exact .ok h
      all_goals exact .error _ _

/-- Both lists start with a token, or neither does. -/
theorem SameValues.head_cases (h : SameValues ts us) (value : Token) :
    (∃ span span' rest rest', ts = ⟨value, span⟩ :: rest ∧ us = ⟨value, span'⟩ :: rest' ∧
        SameValues rest rest') ∨
      (∀ span rest, ts ≠ ⟨value, span⟩ :: rest) ∧ ∀ span rest, us ≠ ⟨value, span⟩ :: rest := by
  cases h with
  | nil =>
      have hnil : ∀ span rest, ([] : Tokens) ≠ ⟨value, span⟩ :: rest := fun _ _ =>
        (List.cons_ne_nil _ _).symm
      exact .inr ⟨hnil, hnil⟩
  | cons first span span' h =>
      by_cases hfirst : first = value
      · subst hfirst
        exact .inl ⟨span, span', _, _, rfl, rfl, h⟩
      · refine .inr ⟨?_, ?_⟩
        · rintro _ _ ⟨⟩
          exact hfirst rfl
        · rintro _ _ ⟨⟩
          exact hfirst rfl

section steps

variable {whole whole' : ExprParser} {part part' : Nat → ExprParser}

/-! ## Atoms, members and calls -/

/-- An expression in parentheses, from behind the opening one. -/
theorem closed_agrees (c c' : Context) (hwhole : Alike whole whole') (h : SameValues ts us) :
    Agrees SameRead
      (do
        let (inner, rest) ← whole ts
        let rest ← closing c rest
        .ok (inner, rest))
      (do
        let (inner, rest) ← whole' us
        let rest ← closing c' rest
        .ok (inner, rest)) := by
  refine (hwhole _ _ h).bind ?_
  rintro ⟨inner, rest⟩ ⟨_, rest'⟩ ⟨rfl, hrest⟩
  refine (closing_agrees hrest).bind ?_
  intro after after' hafter
  exact .ok ⟨rfl, hafter⟩

/-- Atoms are read alike if whole expressions are. -/
theorem atom_agrees (hwhole : Alike whole whole') (h : SameValues ts us) :
    Agrees SameRead (atom c whole ts) (atom c' whole' us) := by
  cases h with
  | nil => exact .error _ _
  | cons value span span' h =>
      cases value
      case number | quoted | name => exact .ok ⟨rfl, h⟩
      case leftParen =>
        have hinner := closed_agrees c c' hwhole h
        cases h with
        | nil => exact hinner
        | cons value span span' h =>
            cases value
            case rightParen => exact .error _ _
            all_goals exact hinner
      all_goals exact .error _ _

/-- Arguments are read alike, round by round. -/
theorem arguments_agrees (hwhole : Alike whole whole') (rounds : Nat) (h : SameValues ts us) :
    Agrees SameRead (arguments c whole rounds ts) (arguments c' whole' rounds us) := by
  induction rounds generalizing ts us with
  | zero =>
      cases h with
      | nil => exact .error _ _
      | cons value span span' h =>
          cases value
          case rightParen => exact .ok ⟨rfl, .cons _ _ _ h⟩
          all_goals exact .error _ _
  | succ rounds ih =>
      rcases h.head_cases .rightParen with ⟨span, span', _, _, rfl, rfl, hrest⟩ | ⟨hts, hus⟩
      · exact .ok ⟨rfl, .cons _ _ _ hrest⟩
      rw [arguments, arguments]
      · refine (hwhole _ _ h).bind ?_
        rintro ⟨first, after⟩ ⟨_, after'⟩ ⟨rfl, hafter⟩
        cases hafter with
        | nil => exact .error _ _
        | cons value span span' hafter =>
            cases value
            case comma =>
              refine (ih hafter).bind ?_
              rintro ⟨⟨others, height⟩, rest⟩ ⟨_, rest'⟩ ⟨hothers, hrest⟩
              cases hothers
              exact .ok ⟨rfl, hrest⟩
            case rightParen => exact .ok ⟨rfl, .cons _ _ _ hafter⟩
            all_goals exact .error _ _
      · exact hus
      · exact hts

/-- Members and calls are read alike, round by round. -/
theorem trailers_agrees (hc : c.tallest = c'.tallest) (hwhole : Alike whole whole') (rounds : Nat)
    (operand : Grown) (h : SameValues ts us) :
    Agrees SameRead (trailers c whole rounds operand ts)
      (trailers c' whole' rounds operand us) := by
  induction rounds generalizing operand ts us with
  | zero =>
      simp only [trailers]
      exact .ok ⟨rfl, h⟩
  | succ rounds ih =>
      cases h with
      | nil => exact .ok ⟨rfl, .nil⟩
      | cons value span span' h =>
          cases value
          case dot =>
            cases h with
            | nil => exact .error _ _
            | cons value _ _ h =>
                cases value
                case name word =>
                  refine (grow_agrees hc _ _ span span').bind ?_
                  rintro node _ rfl
                  exact ih node h
                all_goals exact .error _ _
          case leftParen =>
            rw [trailers, trailers, h.length_eq]
            refine (arguments_agrees hwhole _ h).bind ?_
            rintro ⟨⟨args, height⟩, rest⟩ ⟨_, rest'⟩ ⟨rfl, hrest⟩
            refine (closing_agrees hrest).bind ?_
            intro after after' hafter
            refine (grow_agrees hc _ _ span span').bind ?_
            rintro node _ rfl
            exact ih node hafter
          all_goals exact .ok ⟨rfl, .cons _ _ _ h⟩

/-! ## Operators -/

/-- Operands are read alike, with an operator in front or without one. -/
theorem operand_agrees (hc : c.tallest = c'.tallest) (hwhole : Alike whole whole')
    (hpart : ∀ least, Alike (part least) (part' least)) (least : Nat) (h : SameValues ts us) :
    Agrees SameRead (operand c whole part least ts) (operand c' whole' part' least us) := by
  have hplain : Agrees SameRead (plain c whole ts) (plain c' whole' us) := by
    refine (atom_agrees hwhole h).bind ?_
    rintro ⟨first, rest⟩ ⟨_, rest'⟩ ⟨rfl, hrest⟩
    dsimp only
    rw [hrest.length_eq]
    exact trailers_agrees hc hwhole _ first hrest
  cases h with
  | nil => exact hplain
  | cons value span span' h =>
      cases value
      case symbol sign =>
        unfold operand
        dsimp only
        split
        · rename_i op hop
          split
          · exact .error _ _
          · refine (hpart _ _ _ h).bind ?_
            rintro ⟨inner, rest⟩ ⟨_, rest'⟩ ⟨rfl, hrest⟩
            refine (grow_agrees hc _ _ span span').bind ?_
            rintro node _ rfl
            exact .ok ⟨rfl, hrest⟩
        · exact hplain
      all_goals exact hplain

/-- Whether a comparison comes next does not depend on places. -/
theorem SameValues.comparisonAhead_eq (h : SameValues ts us) :
    comparisonAhead ts = comparisonAhead us := by
  cases h with
  | nil => rfl
  | cons value span span' h => cases value <;> rfl

/-- Operators are read alike, round by round. -/
theorem operators_agrees (hc : c.tallest = c'.tallest)
    (hpart : ∀ least, Alike (part least) (part' least)) (least rounds : Nat) (left : Grown)
    (h : SameValues ts us) :
    Agrees SameRead (operators c part least rounds left ts)
      (operators c' part' least rounds left us) := by
  induction rounds generalizing left ts us with
  | zero =>
      simp only [operators]
      exact .ok ⟨rfl, h⟩
  | succ rounds ih =>
      cases h with
      | nil => exact .ok ⟨rfl, .nil⟩
      | cons value span span' h =>
          cases value
          case symbol sign =>
            rw [operators, operators]
            split
            · rename_i op hop
              split
              · exact .ok ⟨rfl, .cons _ _ _ h⟩
              · refine (hpart _ _ _ h).bind ?_
                rintro ⟨right, rest⟩ ⟨_, rest'⟩ ⟨rfl, hrest⟩
                dsimp only
                rw [hrest.comparisonAhead_eq]
                split
                · exact .error _ _
                · refine (grow_agrees hc _ _ span span').bind ?_
                  rintro node _ rfl
                  exact ih node hrest
            · exact .ok ⟨rfl, .cons _ _ _ h⟩
          all_goals exact .ok ⟨rfl, .cons _ _ _ h⟩

end steps

/-! ## Expressions -/

/-- With one nesting more, expressions that bind with some power are still read alike. -/
theorem part_succ_alike (hc : c.tallest = c'.tallest) {room : Nat}
    (hwhole : Alike (whole c room) (whole c' room))
    (hpart : ∀ least, Alike (part c room least) (part c' room least)) (least : Nat) :
    Alike (part c (room + 1) least) (part c' (room + 1) least) := by
  intro ts us h
  rw [part, part]
  refine (operand_agrees hc hwhole hpart least h).bind ?_
  rintro ⟨left, rest⟩ ⟨_, rest'⟩ ⟨rfl, hrest⟩
  dsimp only
  rw [hrest.length_eq]
  exact operators_agrees hc hpart least _ left hrest

/-- With one nesting more, whole expressions are still read alike. -/
theorem whole_succ_alike (hc : c.tallest = c'.tallest) {room : Nat}
    (hwhole : Alike (whole c room) (whole c' room))
    (hpart : ∀ least, Alike (part c room least) (part c' room least)) :
    Alike (whole c (room + 1)) (whole c' (room + 1)) := by
  intro ts us h
  rw [Parser.whole, Parser.whole]
  refine (hpart 0 _ _ h).bind ?_
  rintro ⟨body, rest⟩ ⟨_, rest'⟩ ⟨rfl, hrest⟩
  dsimp only
  rcases hrest.head_cases (.keyword "if") with
    ⟨span, span', _, _, rfl, rfl, hafter⟩ | ⟨hleft, hright⟩
  · refine (hpart 0 _ _ hafter).bind ?_
    rintro ⟨test, rest⟩ ⟨_, rest'⟩ ⟨rfl, hrest⟩
    dsimp only
    rcases hrest.head_cases (.keyword "else") with
      ⟨_, _, _, _, rfl, rfl, hafter⟩ | ⟨hleft, hright⟩
    · refine (hwhole _ _ hafter).bind ?_
      rintro ⟨alternative, rest⟩ ⟨_, rest'⟩ ⟨rfl, hrest⟩
      refine (grow_agrees hc _ _ span span').bind ?_
      rintro node _ rfl
      exact .ok ⟨rfl, hrest⟩
    · split
      · exact absurd rfl (hleft _ _)
      · exact .error _ _
  · split
    · exact absurd rfl (hleft _ _)
    · exact .ok ⟨rfl, hrest⟩

/-- Expressions are read alike wherever their tokens stand. -/
theorem whole_part_alike (hc : c.tallest = c'.tallest) (room : Nat) :
    Alike (whole c room) (whole c' room) ∧
      ∀ least, Alike (part c room least) (part c' room least) := by
  induction room with
  | zero => exact ⟨fun _ _ _ => .error _ _, fun _ _ _ _ => .error _ _⟩
  | succ room ih =>
      exact ⟨whole_succ_alike hc ih.1 ih.2, part_succ_alike hc ih.1 ih.2⟩

/-- **Places do not matter.** Tokens with the same values form the same tree, or both form none. -/
theorem parse_eq_ok_iff {finish finish' : Span} (h : values ts = values us) {tree : Expr} :
    parse finish ts = .ok tree ↔ parse finish' us = .ok tree := by
  have hlimit : (Context.mk finish maxHeight).tallest =
      (Context.mk finish' maxHeight).tallest := rfl
  obtain ⟨halike, -⟩ := whole_part_alike hlimit maxNesting
  have hagrees : Agrees Eq (parse finish ts) (parse finish' us) := by
    refine (halike _ _ (sameValues_of_values_eq h)).bind ?_
    rintro ⟨result, rest⟩ ⟨_, rest'⟩ ⟨rfl, hrest⟩
    cases hrest with
    | nil => exact .ok rfl
    | cons value span span' hrest => exact .error _ _
  generalize parse finish ts = first at hagrees
  generalize parse finish' us = second at hagrees
  cases hagrees with
  | ok h => rw [h]
  | error m m' => simp

end Parser

end Elementwise
