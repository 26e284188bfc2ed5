import Elementwise.Proofs.Lexemes
import Elementwise.Proofs.Places

/-!
# Spacing does not matter

The tokens of a text can be written anew with other blanks around them, as long as there are some
between any two. The new text is read as the same tokens, since each token is completed by its own
characters (`Token.exists_allFrom_write`). It also passes the same tests before it is read, because
these see only what is not blank (`Equation.precheck_eq_ok_congr`). So it has the same tree
(`Equation.parse_respaced`).
-/

namespace Elementwise

open Text

/-! ## Writing with blanks -/

/-- Blanks to write before, between and behind `count` pieces of text. Between two pieces there is
at least one. -/
structure Spacing (count : ℕ) where
  /-- What stands before the piece of an index, or behind the last one. -/
  gap : ℕ → List Char
  blank : ∀ i, ∀ c ∈ gap i, isBlank c = true
  apart : ∀ i, 0 < i → i < count → gap i ≠ []

namespace Spacing

variable {count : ℕ} (s : Spacing count)

/-- Pieces in order, with blanks before, between and behind them; the first one has the index
`start`. -/
def writeFrom : (start : ℕ) → List (List Char) → List Char
  | start, [] => s.gap start
  | start, piece :: pieces => s.gap start ++ (piece ++ writeFrom (start + 1) pieces)

/-- Pieces in order, with blanks before, between and behind them. -/
def write (pieces : List (List Char)) : List Char :=
  s.writeFrom 0 pieces

/-- What is written behind a piece sets it off. -/
theorem separates_writeFrom {start : ℕ} {pieces : List (List Char)} (hstart : 0 < start)
    (hcount : start + pieces.length = count) : Separates (s.writeFrom start pieces) := by
  have hgap : Separates (s.gap start) := by
    intro c hc
    simpa using s.blank start c (List.mem_of_mem_head? hc)
  cases pieces with
  | nil => exact hgap
  | cons piece pieces =>
      have hne : s.gap start ≠ [] := by
        refine s.apart start hstart ?_
        rw [List.length_cons] at hcount
        omega
      intro c hc
      rw [writeFrom, List.head?_append_of_ne_nil _ hne] at hc
      exact hgap c hc

/-- What is not blank in a written text is what is not blank in its pieces. -/
theorem filter_writeFrom (start : ℕ) (pieces : List (List Char)) :
    (s.writeFrom start pieces).filter (fun c => !isBlank c) =
      pieces.flatten.filter fun c => !isBlank c := by
  have hgap : ∀ i, (s.gap i).filter (fun c => !isBlank c) = [] := fun i =>
    filter_blanks (s.blank i)
  induction pieces generalizing start with
  | nil => rw [writeFrom, hgap, List.flatten_nil, List.filter_nil]
  | cons piece pieces ih =>
      rw [writeFrom, List.filter_append, hgap, List.nil_append, List.filter_append, ih,
        List.flatten_cons, List.filter_append]

end Spacing

/-! ## Reading what is written -/

namespace Token

/-- Characters that belong to a token already read are passed over. -/
theorem allFrom_covered (position : ℕ) (more rest : List Char) :
    allFrom position more.length (more ++ rest) = allFrom (position + byteLength more) 0 rest := by
  induction more generalizing position with
  | nil => rfl
  | cons c more ih =>
      rw [List.length_cons, List.cons_append, allFrom, ih, byteLength_cons, Nat.add_assoc]

/-- Blanks in front of a text only move it. -/
theorem allFrom_blanks (position : ℕ) {gap : List Char} (hgap : ∀ c ∈ gap, isBlank c = true)
    (rest : List Char) :
    allFrom position 0 (gap ++ rest) = allFrom (position + gap.length) 0 rest := by
  induction gap generalizing position with
  | nil => rfl
  | cons c gap ih =>
      obtain ⟨hc, hgap⟩ := List.forall_mem_cons.mp hgap
      rw [List.cons_append, allFrom, if_pos hc, ih _ hgap, List.length_cons, Nat.add_assoc,
        Nat.add_comm 1]

/-- A lexeme that is set off is read as its token, and then what follows is read. -/
theorem exists_allFrom_lexeme {position : ℕ} {token : Token} {lexeme rest : List Char}
    {tokens : List (Located Token)} (h : IsLexeme token lexeme) (hrest : Separates rest)
    (htokens : allFrom (position + byteLength lexeme) 0 rest = .ok tokens) :
    ∃ span, allFrom position 0 (lexeme ++ rest) = .ok (⟨token, span⟩ :: tokens) := by
  obtain ⟨c, more, rfl, hc, hcompletes⟩ := h
  rw [byteLength_cons, ← Nat.add_assoc, ← allFrom_covered] at htokens
  rw [List.cons_append, allFrom, if_neg (by simp [hc]), hcompletes rest hrest]
  dsimp only
  rw [htokens]
  exact ⟨_, rfl⟩

/-- **Written tokens are read back**, whatever blanks are written with them. -/
theorem exists_allFrom_write {values : List Token} {pieces : List (List Char)}
    (h : List.Forall₂ IsLexeme values pieces) {count : ℕ} (s : Spacing count) {start : ℕ}
    (hcount : start + pieces.length = count) (position : ℕ) :
    ∃ tokens, allFrom position 0 (s.writeFrom start pieces) = .ok tokens ∧
      Parser.values tokens = values := by
  induction h generalizing start position with
  | nil =>
      refine ⟨[], ?_, rfl⟩
      rw [Spacing.writeFrom, ← List.append_nil (s.gap start),
        allFrom_blanks position (s.blank start)]
      rfl
  | @cons token piece values pieces hpiece _ ih =>
      have hcount : start + 1 + pieces.length = count := by
        rw [← hcount, List.length_cons]
        omega
      have hrest : Separates (s.writeFrom (start + 1) pieces) :=
        s.separates_writeFrom (Nat.succ_pos start) hcount
      obtain ⟨tokens, htokens, rfl⟩ :=
        ih hcount (position + (s.gap start).length + byteLength piece)
      obtain ⟨span, hspan⟩ := exists_allFrom_lexeme hpiece hrest htokens
      refine ⟨⟨token, span⟩ :: tokens, ?_, rfl⟩
      rw [Spacing.writeFrom, allFrom_blanks position (s.blank start), hspan]

/-- What is not blank in a text is what is not blank in its tokens. -/
theorem Divides.filter_eq {position : ℕ} {cs : List Char} {tokens : List (Located Token)}
    (h : Divides position cs tokens) (before : List Char) (hbefore : byteLength before = position) :
    cs.filter (fun c => !isBlank c) =
      (lexemes (before ++ cs) tokens).flatten.filter fun c => !isBlank c := by
  induction h generalizing before with
  | blanks gap hgap => exact filter_blanks hgap
  | @token position gap lexeme rest token tokens hgap hlexeme hrest ih =>
      subst hbefore
      rw [lexemes_cons, List.flatten_cons, List.filter_append, filter_blanks hgap, List.nil_append,
        List.filter_append, List.filter_append,
        ih (before ++ gap ++ lexeme) (by simp [Nat.add_assoc])]

end Token

/-! ## Tests before reading -/

namespace Equation

/-- No character is illegal if none is found. -/
theorem firstIllegal?_eq_none_iff (position : ℕ) {cs : List Char} :
    firstIllegal? position cs = none ↔ ∀ c ∈ cs, c ∉ illegalCharacters := by
  induction cs generalizing position with
  | nil => simp [firstIllegal?]
  | cons c cs ih =>
      rw [firstIllegal?, List.forall_mem_cons]
      by_cases hc : c ∈ illegalCharacters
      · simp [hc]
      · rw [if_neg hc, ih]
        simp [hc]

/-- What a text has to be to be read. -/
theorem precheck_eq_ok_iff {source : List Char} :
    precheck source = .ok () ↔ source.all isSpace = false ∧ source.count '(' = source.count ')' ∧
      ∀ c ∈ source, c ∉ illegalCharacters := by
  rw [← firstIllegal?_eq_none_iff 0]
  unfold precheck
  dsimp only
  split
  · simp_all
  · split
    · simp_all
    · split <;> simp_all

/-- Blanks are legal. -/
theorem not_mem_illegalCharacters {c : Char} (h : isBlank c = true) : c ∉ illegalCharacters := by
  rcases isBlank_iff.mp h with rfl | rfl | rfl | rfl | rfl <;> decide

/-- The tests see only what is not blank. -/
theorem precheck_eq_ok_congr {source source' : List Char}
    (h : source.filter (fun c => !isBlank c) = source'.filter fun c => !isBlank c) :
    precheck source = .ok () ↔ precheck source' = .ok () := by
  have hspace : ∀ cs : List Char,
      (cs.filter fun c => !isBlank c).all isSpace = cs.all isSpace := by
    intro cs
    rw [List.all_filter]
    refine congrArg cs.all (funext fun c => ?_)
    by_cases hc : isBlank c = true
    · simp [hc, isSpace_of_isBlank hc]
    · simp [hc]
  have hcount : ∀ {c : Char}, isBlank c = false → ∀ cs : List Char,
      (cs.filter fun c => !isBlank c).count c = cs.count c := by
    intro c hc cs
    exact List.count_filter (by simp [hc])
  have hillegal : ∀ cs : List Char, (∀ c ∈ cs.filter fun c => !isBlank c, c ∉ illegalCharacters) ↔
      ∀ c ∈ cs, c ∉ illegalCharacters := by
    intro cs
    constructor
    · intro hcs c hc
      by_cases hblank : isBlank c = true
      · exact not_mem_illegalCharacters hblank
      · exact hcs c (by simp [hc, hblank])
    · intro hcs c hc
      exact hcs c (List.mem_of_mem_filter hc)
  rw [precheck_eq_ok_iff, precheck_eq_ok_iff, ← hspace source, ← hspace source', ← hillegal source,
    ← hillegal source', ← hcount (c := '(') rfl source, ← hcount (c := ')') rfl source,
    ← hcount (c := '(') rfl source', ← hcount (c := ')') rfl source', h]

/-! ## Equations -/

/-- Tokens form an equation if they form its tree; no tokens form no tree. -/
theorem ofTokens_eq_ok_iff {source : List Char} {tokens : List (Located Token)}
    {equation : Equation} :
    ofTokens source tokens = .ok equation ↔
      Parser.parse (finish source) tokens = .ok equation.body := by
  unfold ofTokens
  by_cases hempty : tokens.isEmpty = true
  · rw [if_pos hempty]
    constructor
    · intro h
      cases h
    · intro h
      rw [List.isEmpty_iff] at hempty
      subst hempty
      exact absurd rfl (Parser.derives_of_parse h).1.ne_nil
  · rw [if_neg hempty]
    rcases Parser.parse (finish source) tokens with m | tree
    · simp
    · constructor
      · intro h
        cases h
        rfl
      · intro h
        cases h
        rfl

/-- **Spacing does not matter.** If a text is read as tokens, and the texts of these tokens are
written in order with any blanks around them, at least one between any two, then the new text is
read as the same tokens. It has the same tree as the old one, or neither has one. -/
theorem parse_respaced {text : String} {tokens : List (Located Token)}
    (h : Token.all text.toList = .ok tokens) (s : Spacing tokens.length) :
    let respaced := s.write (Token.lexemes text.toList tokens)
    (∃ tokens', Token.all respaced = .ok tokens' ∧
      Parser.values tokens' = Parser.values tokens) ∧
      ∀ equation, parse (String.ofList respaced) = .ok equation ↔ parse text = .ok equation := by
  intro respaced
  have hdivides : Token.Divides 0 text.toList tokens := by
    simpa using Token.divides_of_allFrom h
  have hlexemes := hdivides.forall₂_isLexeme [] rfl
  have hlength : 0 + (Token.lexemes text.toList tokens).length = tokens.length := by
    rw [Nat.zero_add, Token.lexemes, List.length_map]
  obtain ⟨tokens', htokens', hvalues⟩ := Token.exists_allFrom_write hlexemes s hlength 0
  refine ⟨⟨tokens', htokens', hvalues⟩, fun equation => ?_⟩
  have hfilter : respaced.filter (fun c => !isBlank c) =
      text.toList.filter fun c => !isBlank c :=
    (s.filter_writeFrom 0 _).trans (hdivides.filter_eq [] rfl).symm
  have hread : read respaced = .ok equation ↔ read text.toList = .ok equation := by
    rw [read, read, h, show Token.all respaced = .ok tokens' from htokens']
    exact ofTokens_eq_ok_iff.trans ((Parser.parse_eq_ok_iff hvalues).trans ofTokens_eq_ok_iff.symm)
  rw [parse, parse, String.toList_ofList, bind_eq_ok_iff, bind_eq_ok_iff]
  simp only [precheck_eq_ok_congr hfilter, hread]

/-- The blanks that are written with six tokens: a tab, spaces and a line feed. -/
def looseSpacing : Spacing 6 where
  gap
    | 0 => ['\t']
    | 3 => [' ', '\n']
    | 6 => []
    | _ => [' ']
  blank := by
    intro i c hc
    split at hc
    · rw [List.mem_singleton.mp hc]
      rfl
    · rcases List.mem_cons.mp hc with rfl | hc
      · rfl
      · rw [List.mem_singleton.mp hc]
        rfl
    · cases hc
    · rw [List.mem_singleton.mp hc]
      rfl
  apart := by
    intro i hpos hlt
    split
    · simp
    · simp
    · omega
    · simp

/-- Signs that stand side by side in `x**-1<=0x1f` may be set apart, but the two signs of `**` and
of `<=` stay together. -/
theorem parse_respaced_signs :
    ∃ tokens, Token.all "x**-1<=0x1f".toList = .ok tokens ∧
      (∃ tokens', Token.all "\tx ** - \n1 <= 0x1f".toList = .ok tokens' ∧
        Parser.values tokens' = Parser.values tokens) ∧
      ∀ equation, parse "\tx ** - \n1 <= 0x1f" = .ok equation ↔
        parse "x**-1<=0x1f" = .ok equation := by
  have htokens : Token.all "x**-1<=0x1f".toList =
      .ok [⟨.name "x", ⟨0, 1⟩⟩, ⟨.symbol .doubleStar, ⟨1, 3⟩⟩, ⟨.symbol .minus, ⟨3, 4⟩⟩,
        ⟨.number (.int 1), ⟨4, 5⟩⟩, ⟨.symbol .lessEqual, ⟨5, 7⟩⟩,
        ⟨.number (.int 31), ⟨7, 11⟩⟩] := rfl
  exact ⟨_, htokens, parse_respaced htokens looseSpacing⟩

end Equation

end Elementwise
