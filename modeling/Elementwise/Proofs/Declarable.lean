import Elementwise.Proofs.Grammar.Exactness
import Elementwise.Proofs.Lossless
import Elementwise.Proofs.Precheck

/-!
# Names that can be declared

Two parts of the library say what a name is. The check of declared names looks at the characters and
at lists of words; the reader of texts takes a word greedily and then decides what it stands for.
They agree (`Token.isLexeme_name_iff`): the form of a name, for words that are no keywords, is that
of a text which is read as one name.

So no name can be declared in vain, and none that an equation mentions is out of reach
(`checkNames_exact`): a declared name on its own is an equation, and the names of an equation can be
declared, `math` and `abs` apart.
-/

namespace Elementwise

open Text

/-! ## Words -/

/-- The start of a word is no digit. -/
theorem Text.not_isDigit_of_isWordStart {c : Char} (h : isWordStart c = true) :
    c.isDigit = false := by
  by_contra hdigit
  rw [Bool.not_eq_false] at hdigit
  unfold isWordStart Char.isAlpha Char.isUpper Char.isLower at h
  unfold Char.isDigit at hdigit
  simp only [Bool.or_eq_true, Bool.and_eq_true, decide_eq_true_eq, beq_iff_eq,
    UInt32.le_iff_toNat_le, ge_iff_le] at h hdigit
  change 48 ≤ c.toNat ∧ c.toNat ≤ 57 at hdigit
  rcases h with (h | h) | rfl
  · change 65 ≤ c.toNat ∧ c.toNat ≤ 90 at h
    omega
  · change 97 ≤ c.toNat ∧ c.toNat ≤ 122 at h
    omega
  · exact absurd hdigit (by decide)

namespace Token

/-- A word that is no keyword is read as a name. -/
theorem ofWord_of_not_mem {word : String} (h : word ∉ keywords) : ofWord word = .name word := by
  have hne : ∀ {keyword : String}, keyword ∈ keywords → word ≠ keyword := by
    rintro keyword hkeyword rfl
    exact h hkeyword
  unfold ofWord
  rw [if_neg (hne (by simp [keywords])), if_neg (hne (by simp [keywords])),
    if_neg (hne (by simp [keywords])), if_neg h]

/-- What starts a word is read as a word. -/
theorem scan_of_isWordStart {c : Char} (h : isWordStart c = true) (rest : List Char) :
    scan c rest = .token (ofWord (String.ofList (c :: rest.takeWhile isWordChar)))
      (rest.takeWhile isWordChar).length := by
  have hpoint : c ≠ '.' := ne_point_of_isWordChar (isWordChar_of_isWordStart h)
  have hnumber : startsNumber c rest = false := by
    simp [startsNumber, not_isDigit_of_isWordStart h, hpoint]
  exact (if_neg (by simpa [startsNumber] using hnumber)).trans (if_pos h)

/-- **Names.** A text is the text of a name, and of that name, exactly if it has the form of a name
and is no keyword. -/
theorem isLexeme_name_iff {name : String} :
    IsLexeme (.name name) name.toList ↔ isIdentifier name = true ∧ name ∉ keywords := by
  constructor
  · rintro ⟨c, more, -, -, hcompletes⟩
    exact isIdentifier_of_scan (hcompletes [] stops_nil)
  · rintro ⟨hform, hkeyword⟩
    unfold isIdentifier at hform
    split at hform
    · cases hform
    · rename_i c rest hchars
      obtain ⟨hstart, hrest⟩ := Bool.and_eq_true _ _ |>.mp hform
      have hword : rest.takeWhile isWordChar = rest :=
        List.takeWhile_eq_self_iff.mpr (List.all_eq_true.mp hrest)
      have hgoesOn := Numeral.goesOn_of_isWordChar (isWordChar_of_isWordStart hstart)
      rw [hchars, isLexeme_cons_iff, scan_of_isWordStart hstart, hword, ← hchars,
        String.ofList_toList, ofWord_of_not_mem hkeyword]
      exact ⟨by simpa using not_isBlank_of_goesOn hgoesOn, rfl⟩

end Token

/-! ## Equations of one name -/

/-- There are no quotes in a name. -/
theorem unquoted_of_isIdentifier {name : String} (h : isIdentifier name = true) :
    Unquoted name.toList := by
  have hword := isWordChar_of_isIdentifier h
  constructor
  · intro hmem
    exact absurd (hword _ hmem) (by decide)
  · intro hmem
    exact absurd (hword _ hmem) (by decide)

namespace Equation

/-- A single name forms its tree. -/
theorem ofTokens_name (source : List Char) (name : String) (span : Span) :
    ofTokens source [⟨.name name, span⟩] = .ok ⟨.name name⟩ := by
  have hderives : Grammar.Derives .full (Parser.values [⟨.name name, span⟩]) (.name name) :=
    Grammar.Derives.name.weaken (by decide)
  rw [ofTokens_eq_ok_iff]
  -- One token and one leaf are far from all limits.
  rcases Parser.parse_of_derives (finish source) hderives with hparse | ⟨-, hnesting | hheight⟩
  · exact hparse
  · change 200 ≤ 2 * 1 at hnesting
    omega
  · change 1000 < 1 at hheight
    omega

/-- A name on its own is an equation. -/
theorem parse_of_isIdentifier {name : String} (h : isIdentifier name = true)
    (hkeyword : name ∉ keywords) : parse name = .ok ⟨.name name⟩ := by
  have htokens := (Token.isLexeme_name_iff.mpr ⟨h, hkeyword⟩).all_eq
  have hequation := ofTokens_name name.toList name ⟨0, byteLength name.toList⟩
  have hprecheck := precheck_of_ofTokens (unquoted_of_isIdentifier h) htokens hequation
  rw [parse, hprecheck, ok_bind, read, htokens]
  exact hequation

end Equation

/-! ## Declared and mentioned names -/

/-- **Names that can be declared are the names that an equation can mention.** The name of the
element and those of the parameters pass the check if each of them does. A name passes it exactly if
its text is read as one token, that name, which covers the text, and if it is neither `math` nor
`abs`. Such a name on its own is an equation, and all names in the tree of an equation pass the
check, but for these two. -/
theorem checkNames_exact :
    (∀ names, checkNames names = .ok () ↔ ∀ name ∈ names, checkName name = .ok ()) ∧
    ∀ name,
      (checkName name = .ok () ↔
        Token.all name.toList = .ok [⟨.name name, ⟨0, name.utf8ByteSize⟩⟩] ∧
          name ≠ "math" ∧ name ≠ "abs") ∧
      (checkName name = .ok () → Equation.parse name = .ok ⟨.name name⟩) ∧
      ∀ text equation, Equation.parse text = .ok equation →
        .name name ∈ equation.body.visits (fun _ => true) → name ≠ "math" → name ≠ "abs" →
          checkName name = .ok () := by
  refine ⟨fun names => checkNames_eq_ok_iff, fun name => ?_⟩
  have hreserved : name ∉ reservedNames ↔ name ≠ "math" ∧ name ≠ "abs" := by
    simp [reservedNames]
  refine ⟨?_, ?_, ?_⟩
  · rw [checkName_eq_ok_iff, hreserved, utf8ByteSize_eq, Token.all_eq_singleton_iff,
      Token.isLexeme_name_iff]
  · intro h
    obtain ⟨⟨hform, hkeyword⟩, -⟩ := checkName_eq_ok_iff.mp h
    exact Equation.parse_of_isIdentifier hform hkeyword
  · intro text equation hparse hname hmath habs
    exact checkName_eq_ok_iff.mpr
      ⟨Equation.isIdentifier_of_parse hparse hname, hreserved.mpr ⟨hmath, habs⟩⟩

/-- `_rate2` passes the check, since its text is read as this name, and so does `sin`, which
`sin(x)` mentions. The text of `or` is read as an operator, so `or` does not. -/
theorem checkNames_exact_words :
    checkNames ["_rate2", "sin"] = .ok () ∧ Equation.parse "_rate2" = .ok ⟨.name "_rate2"⟩ ∧
      checkName "or" ≠ .ok () := by
  obtain ⟨hall, hname⟩ := checkNames_exact
  have hrate : checkName "_rate2" = .ok () := (hname "_rate2").1.mpr ⟨by rfl, by decide, by decide⟩
  have hsin : checkName "sin" = .ok () :=
    (hname "sin").2.2 "sin(x)" ⟨.call (.name "sin") [.name "x"]⟩ (by rfl) (by simp [Expr.visits])
      (by decide) (by decide)
  refine ⟨(hall _).mpr (by simp [hrate, hsin]), (hname "_rate2").2.1 hrate, ?_⟩
  intro h
  have htokens := ((hname "or").1.mp h).1
  cases htokens

end Elementwise
