import Elementwise.Proofs.Spelling

/-!
# The tests before reading are a filter

A text is tested before it is read: it is not all white space, its parentheses are as many opening
as closing, and it has no illegal character. Without quotes, reading refuses by itself whatever
fails these tests (`Equation.precheck_of_ofTokens`), so the tests do not change what is an equation.

* Outside quotes, every character of a text that is divided into tokens is a blank, a parenthesis or
  plain, so none is illegal, and the parentheses of the text are those of its tokens
  (`Token.Divides.count_parens`).
* The words of the grammar have as many opening as closing parentheses (`Grammar.count_parens`).
* Where there is a token, there is a character that is no white space.

In quotes anything but a line feed may stand, so there the tests do refuse equations.
-/

namespace Elementwise

open Text

/-! ## Words -/

namespace Grammar

mutual
/-- A word of the grammar has as many opening as closing parentheses. -/
theorem count_parens {level : Level} {w : List Token} {t : Expr} :
    Derives level w t → w.count .leftParen = w.count .rightParen
  | .conditional hbody htest halternative => by
      simp [count_parens hbody, count_parens htest, count_parens halternative]
  | .tighter _ h => count_parens h
  | .left _ _ hleft hright
  | .comparison _ hleft hright
  | .power hleft hright => by
      simp [count_parens hleft, count_parens hright]
  | .negation h
  | .signed _ h
  | .member h
  | .paren h => by
      simp [count_parens h]
  | .call hfunction harguments => by
      simp [count_parens hfunction, count_parensOfAll harguments]
  | .number | .quoted | .name => by simp

/-- The same of arguments. -/
theorem count_parensOfAll {w : List Token} {ts : List Expr} :
    DerivesArguments w ts → w.count .leftParen = w.count .rightParen
  | .none => rfl
  | .last h => count_parens h
  | .more h hrest => by simp [count_parens h, count_parensOfAll hrest]
end

end Grammar

/-! ## Texts without quotes -/

/-- A text has no quotes. -/
def Text.Unquoted (cs : List Char) : Prop :=
  '\x27' ∉ cs ∧ '\x22' ∉ cs

namespace Token

/-- Two texts side by side have no quotes if neither has. -/
theorem unquoted_append {cs ds : List Char} : Unquoted (cs ++ ds) ↔ Unquoted cs ∧ Unquoted ds := by
  simp only [Unquoted, List.mem_append, not_or]
  tauto

/-- Without quotes, a token is a parenthesis or is spelled by plain characters. -/
theorem Spelled.cases_of_unquoted {token : Token} {lexeme : List Char} (h : Spelled token lexeme)
    (hquotes : Unquoted lexeme) :
    token = .leftParen ∧ lexeme = ['('] ∨ token = .rightParen ∧ lexeme = [')'] ∨
      token ≠ .leftParen ∧ token ≠ .rightParen ∧ ∀ c ∈ lexeme, isPlain c = true := by
  cases token with
  | leftParen => exact .inl ⟨rfl, h⟩
  | rightParen => exact .inr (.inl ⟨rfl, h⟩)
  | quoted content =>
      obtain ⟨quote, rfl | rfl, rfl⟩ := h
      · exact absurd List.mem_cons_self hquotes.1
      · exact absurd List.mem_cons_self hquotes.2
  | number _ | name _ | keyword _ | symbol _ | comma | dot => exact .inr (.inr ⟨nofun, nofun, h⟩)

/-- A character of a token is no white space and not illegal. -/
theorem IsLexeme.of_mem {token : Token} {lexeme : List Char} (h : IsLexeme token lexeme)
    (hquotes : Unquoted lexeme) {c : Char} (hc : c ∈ lexeme) :
    isSpace c = false ∧ c ∉ Equation.illegalCharacters := by
  rcases h.spelled.cases_of_unquoted hquotes with ⟨-, rfl⟩ | ⟨-, rfl⟩ | ⟨-, -, hplain⟩
  · rw [List.mem_singleton.mp hc]
    decide
  · rw [List.mem_singleton.mp hc]
    decide
  · exact (of_isPlain (hplain c hc)).2

/-- A token has the parentheses of its characters. -/
theorem IsLexeme.count_parens {token : Token} {lexeme : List Char} (h : IsLexeme token lexeme)
    (hquotes : Unquoted lexeme) :
    lexeme.count '(' = [token].count .leftParen ∧ lexeme.count ')' = [token].count .rightParen := by
  rcases h.spelled.cases_of_unquoted hquotes with ⟨rfl, rfl⟩ | ⟨rfl, rfl⟩ | ⟨hleft, hright, hplain⟩
  · decide
  · decide
  · have hnone : ∀ c, isPlain c = false → lexeme.count c = 0 := by
      intro c hc
      refine List.count_eq_zero.mpr fun hmem => ?_
      rw [hplain c hmem] at hc
      cases hc
    rw [hnone '(' rfl, hnone ')' rfl]
    simp [hleft, hright]

variable {position : ℕ} {cs : List Char} {tokens : List (Located Token)}

/-- The parentheses of a text are those of its tokens. -/
theorem Divides.count_parens (h : Divides position cs tokens) (hquotes : Unquoted cs) :
    cs.count '(' = (Parser.values tokens).count .leftParen ∧
      cs.count ')' = (Parser.values tokens).count .rightParen := by
  have hblanks : ∀ {gap : List Char}, (∀ c ∈ gap, isBlank c = true) →
      gap.count '(' = 0 ∧ gap.count ')' = 0 := by
    intro gap hgap
    exact ⟨List.count_eq_zero.mpr fun hmem => absurd (hgap _ hmem) (by decide),
      List.count_eq_zero.mpr fun hmem => absurd (hgap _ hmem) (by decide)⟩
  induction h with
  | blanks gap hgap => exact hblanks hgap
  | @token position gap lexeme rest token tokens hgap hlexeme hrest ih =>
      rw [unquoted_append, unquoted_append] at hquotes
      obtain ⟨hleft, hright⟩ := hlexeme.count_parens hquotes.2.1
      obtain ⟨hothersLeft, hothersRight⟩ := ih hquotes.2.2
      obtain ⟨hgapLeft, hgapRight⟩ := hblanks hgap
      rw [Parser.values_cons, ← List.singleton_append]
      simp only [List.count_append]
      omega

/-- The characters of a text are legal. -/
theorem Divides.legal (h : Divides position cs tokens) (hquotes : Unquoted cs) :
    ∀ c ∈ cs, c ∉ Equation.illegalCharacters := by
  induction h with
  | blanks gap hgap => exact fun c hc => Equation.not_mem_illegalCharacters (hgap c hc)
  | token gap hgap hlexeme hrest ih =>
      rw [unquoted_append, unquoted_append] at hquotes
      intro c hc
      rw [List.mem_append, List.mem_append] at hc
      rcases hc with hc | hc | hc
      · exact Equation.not_mem_illegalCharacters (hgap c hc)
      · exact (hlexeme.of_mem hquotes.2.1 hc).2
      · exact ih hquotes.2.2 c hc

/-- A text with a token is not all white space. -/
theorem Divides.all_isSpace (h : Divides position cs tokens) (hquotes : Unquoted cs)
    (hne : tokens ≠ []) : cs.all isSpace = false := by
  cases h with
  | blanks gap hgap => exact absurd rfl hne
  | token gap hgap hlexeme hrest =>
      rw [unquoted_append, unquoted_append] at hquotes
      obtain ⟨c, more, rfl, -⟩ := id hlexeme
      have hc := (hlexeme.of_mem hquotes.2.1 List.mem_cons_self).1
      simp [hc]

end Token

/-! ## Equations -/

namespace Equation

/-- Tokens that form an equation come from a text that passes the tests. -/
theorem precheck_of_ofTokens {source : List Char} (hquotes : Unquoted source)
    {tokens : List (Located Token)} (htokens : Token.all source = .ok tokens) {equation : Equation}
    (h : ofTokens source tokens = .ok equation) : precheck source = .ok () := by
  have hdivides := Token.divides_of_all htokens
  have hderives := (Parser.derives_of_parse (ofTokens_eq_ok_iff.mp h)).1
  have hne : tokens ≠ [] := by
    rintro rfl
    exact hderives.ne_nil rfl
  obtain ⟨hleft, hright⟩ := hdivides.count_parens hquotes
  refine precheck_eq_ok_iff.mpr
    ⟨hdivides.all_isSpace hquotes hne, ?_, hdivides.legal hquotes⟩
  rw [hleft, hright, Grammar.count_parens hderives]

/-- **The tests are a filter.** A text without quotes that fails the tests cannot be read into
tokens, or its tokens form no equation. So the tests leave the equations of such texts as they are.
-/
theorem precheck_filters {text : String} (hquotes : Unquoted text.toList) :
    (∀ error, precheck text.toList = .error error →
      (∃ mistake, Token.all text.toList = .error mistake) ∨
        ∃ tokens, Token.all text.toList = .ok tokens ∧
          ∃ error, ofTokens text.toList tokens = .error error) ∧
    ∀ equation, parse text = .ok equation ↔
      ∃ tokens, Token.all text.toList = .ok tokens ∧
        ofTokens text.toList tokens = .ok equation := by
  constructor
  · intro error herror
    rcases htokens : Token.all text.toList with mistake | tokens
    · exact .inl ⟨mistake, rfl⟩
    · refine .inr ⟨tokens, rfl, ?_⟩
      rcases hequation : ofTokens text.toList tokens with error' | equation
      · exact ⟨error', rfl⟩
      · rw [precheck_of_ofTokens hquotes htokens hequation] at herror
        cases herror
  · intro equation
    rw [parse, bind_eq_ok_iff, read]
    rcases htokens : Token.all text.toList with mistake | tokens
    · simp
    · constructor
      · rintro ⟨-, -, h⟩
        exact ⟨tokens, rfl, h⟩
      · rintro ⟨tokens', htokens', h⟩
        cases htokens'
        exact ⟨(), precheck_of_ofTokens hquotes htokens h, h⟩

/-- `(x + 1))` fails the tests, and although it is read into tokens, these form no equation. `(x)`
is an equation with the tests and without. -/
theorem precheck_filters_parens :
    (precheck "(x + 1))".toList = .error (.unbalancedParentheses 1 2) ∧
      ((∃ mistake, Token.all "(x + 1))".toList = .error mistake) ∨
        ∃ tokens, Token.all "(x + 1))".toList = .ok tokens ∧
          ∃ error, ofTokens "(x + 1))".toList tokens = .error error)) ∧
    parse "(x)" = .ok ⟨.name "x"⟩ := by
  constructor
  · have hquotes : Unquoted "(x + 1))".toList := ⟨by decide, by decide⟩
    have hfails : precheck "(x + 1))".toList = .error (.unbalancedParentheses 1 2) := rfl
    exact ⟨hfails, (precheck_filters hquotes).1 _ hfails⟩
  · have hquotes : Unquoted "(x)".toList := ⟨by decide, by decide⟩
    exact ((precheck_filters hquotes).2 _).mpr
      ⟨[⟨.leftParen, ⟨0, 1⟩⟩, ⟨.name "x", ⟨1, 2⟩⟩, ⟨.rightParen, ⟨2, 3⟩⟩], rfl, rfl⟩

end Equation

end Elementwise
