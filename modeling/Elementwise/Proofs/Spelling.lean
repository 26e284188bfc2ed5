import Elementwise.Proofs.Names
import Elementwise.Proofs.Spacing

/-!
# How tokens are spelled

Brackets are spelled by themselves, a quoted text by its content between quotes, and all other
tokens by plain characters (`Token.spelled_of_scan`). These are ASCII, and none of them is white
space, a bracket, a quote or illegal. Numbers take characters greedily and may be refused
afterwards; what they have taken then is plain as well (`Numeral.covers_scan`).
-/

namespace Elementwise

open Text

/-- Plain characters are ASCII, and neither white space nor brackets, quotes or illegal. -/
def Text.isPlain (c : Char) : Bool :=
  c.toNat < 128 && !isSpace c &&
    !(Equation.illegalCharacters ++ ['(', ')', '\x27', '\x22']).contains c

/-- Plain characters are ASCII, and neither blanks nor illegal. -/
theorem Text.of_isPlain {c : Char} (h : isPlain c = true) :
    c.toNat < 128 ∧ isSpace c = false ∧ c ∉ Equation.illegalCharacters := by
  simp only [isPlain, Bool.and_eq_true, decide_eq_true_eq, Bool.not_eq_true',
    List.contains_eq_mem, decide_eq_false_iff_not, List.mem_append, not_or] at h
  exact ⟨h.1.1, h.1.2, h.2.1⟩

namespace Numeral

/-- Letters, digits, underscores and points are ASCII and no white space. -/
theorem toNat_of_goesOn {c : Char} (h : goesOn c = true) : c.toNat < 128 ∧ isSpace c = false := by
  unfold goesOn isWordChar Char.isAlphanum Char.isAlpha Char.isUpper Char.isLower Char.isDigit at h
  simp only [Bool.or_eq_true, Bool.and_eq_true, decide_eq_true_eq, beq_iff_eq,
    UInt32.le_iff_toNat_le, ge_iff_le] at h
  have hrange : 33 ≤ c.toNat ∧ c.toNat < 128 := by
    rcases h with (((h | h) | h) | rfl) | rfl
    · exact ⟨Nat.le_trans (by decide) h.1, Nat.lt_of_le_of_lt h.2 (by decide)⟩
    · exact ⟨Nat.le_trans (by decide) h.1, Nat.lt_of_le_of_lt h.2 (by decide)⟩
    · exact ⟨Nat.le_trans (by decide) h.1, Nat.lt_of_le_of_lt h.2 (by decide)⟩
    · decide
    · decide
  refine ⟨hrange.2, ?_⟩
  by_contra hspace
  simp only [isSpace, Bool.not_eq_false, Bool.or_eq_true, Bool.and_eq_true, decide_eq_true_eq,
    beq_iff_eq] at hspace
  omega

/-- What numbers and words are made of is plain. -/
theorem isPlain_of_goesOn {c : Char} (h : goesOn c = true) : isPlain c = true := by
  obtain ⟨hascii, hspace⟩ := toNat_of_goesOn h
  have hmem : c ∉ Equation.illegalCharacters ++ ['(', ')', '\x27', '\x22'] := by
    intro hmem
    simp only [Equation.illegalCharacters, List.cons_append, List.nil_append, List.mem_cons,
      List.not_mem_nil, or_false] at hmem
    rcases hmem with rfl | rfl | rfl | rfl | rfl | rfl | rfl | rfl | rfl | rfl | rfl | rfl | rfl |
      rfl | rfl <;> exact absurd h (by decide)
  simp [isPlain, hascii, hspace, hmem]

/-- Digits and underscores are plain. -/
theorem isPlain_of_isDigitOrUnderscore {c : Char} (h : isDigitOrUnderscore c = true) :
    isPlain c = true :=
  isPlain_of_goesOn (goesOn_of_isDigitOrUnderscore h)

/-- The characters of an exponent are plain. -/
theorem Written.ProperExponent.isPlain {parts : Char × Option Char × List Char}
    (h : ProperExponent parts) : ∀ c ∈ exponentChars (some parts), isPlain c = true := by
  obtain ⟨mark, sign, digits⟩ := parts
  obtain ⟨hmark, hsign, -, hdigits⟩ := h
  intro c hc
  rw [exponentChars, List.cons_append, List.mem_cons, List.mem_append, Option.mem_toList] at hc
  rcases hc with rfl | hc | hc
  · rcases hmark with rfl | rfl <;> rfl
  · rcases hsign c hc with rfl | rfl <;> rfl
  · exact isPlain_of_isDigitOrUnderscore (hdigits c hc)

/-- The characters of a decimal are plain. -/
theorem Written.Proper.isPlain {d : Written} (h : d.Proper) : ∀ c ∈ d.chars, isPlain c = true := by
  intro c hc
  rw [chars_eq, List.mem_append, List.mem_append] at hc
  rcases hc with hc | hc | hc
  · exact isPlain_of_isDigitOrUnderscore (h.whole c hc)
  · rcases hfraction : d.fraction with _ | run
    · simp [hfraction] at hc
    · rw [hfraction, Option.map_some, Option.getD_some, List.mem_cons] at hc
      rcases hc with rfl | hc
      · rfl
      · exact isPlain_of_isDigitOrUnderscore (h.fraction run hfraction c hc)
  · rcases hexponent : d.exponent with _ | parts
    · simp [hexponent, exponentChars] at hc
    · rw [hexponent] at hc
      exact (h.exponent parts hexponent).isPlain c hc

/-- A number is the number of its kind, or it goes on and is refused with what it goes on with. -/
theorem scan_eq_or_goesOn (cs : List Char) :
    scan cs = ((radix? cs).elim (scanDecimal cs) fun radix => scanRadix radix cs) ∨
      ∃ l count, ((radix? cs).elim (scanDecimal cs) fun radix => scanRadix radix cs) =
          .ok (l, count) ∧
        scan cs = .error (.badNumber, count + ((cs.drop count).takeWhile goesOn).length) := by
  have hfinish : ∀ number : Scanned, ∀ result, result = (number >>= fun found =>
      if ((cs.drop found.2).takeWhile goesOn).isEmpty then .ok found
      else .error (.badNumber, found.2 + ((cs.drop found.2).takeWhile goesOn).length)) →
      result = number ∨ ∃ l count, number = .ok (l, count) ∧
        result = .error (.badNumber, count + ((cs.drop count).takeWhile goesOn).length) := by
    rintro (mistake | ⟨l, count⟩) result rfl
    · exact .inl rfl
    · rw [ok_bind]
      split
      · exact .inl rfl
      · exact .inr ⟨l, count, rfl, rfl⟩
  unfold scan
  rcases radix? cs with _ | radix
  · exact hfinish (scanDecimal cs) _ rfl
  · exact hfinish (scanRadix radix cs) _ rfl

/-- The count of characters that a number, or a mistake in one, covers. -/
def covered : Scanned → ℕ
  | .ok (_, count) => count
  | .error (_, count) => count

/-- What a scanned number covers stands at the front of a text and is plain. -/
def Covers (cs : List Char) (number : Scanned) : Prop :=
  ∃ taken rest, cs = taken ++ rest ∧ taken.length = covered number ∧ ∀ c ∈ taken, isPlain c = true

/-- What is scanned as a decimal is plain. -/
theorem covers_scanDecimal (cs : List Char) : Covers cs (scanDecimal cs) := by
  obtain ⟨rest, hcs⟩ := Written.exists_chars_take_append cs
  refine ⟨_, rest, hcs, ?_, (Written.proper_take cs).isPlain⟩
  unfold scanDecimal
  dsimp only
  split <;> rfl

/-- What is scanned behind a radix mark is plain. -/
theorem covers_scanRadix {cs : List Char} {radix : ℕ} (h : radix? cs = some radix) :
    Covers cs (scanRadix radix cs) := by
  obtain ⟨mark, body, rfl, hmark, -⟩ := exists_of_radix? h
  refine ⟨'0' :: mark :: body.takeWhile isWordChar, body.dropWhile isWordChar, ?_, ?_, ?_⟩
  · simp
  · unfold scanRadix
    dsimp only
    split <;> exact Nat.add_comm _ 2
  · intro c hc
    rw [List.mem_cons, List.mem_cons] at hc
    rcases hc with rfl | rfl | hc
    · rfl
    · exact isPlain_of_goesOn (goesOn_of_isWordChar hmark)
    · exact isPlain_of_goesOn (goesOn_of_isWordChar (List.mem_takeWhile_imp hc))

/-- **Numbers.** What is taken for a number is plain, whether it is one or not. -/
theorem covers_scan (cs : List Char) : Covers cs (scan cs) := by
  have hkind : Covers cs ((radix? cs).elim (scanDecimal cs) fun radix => scanRadix radix cs) := by
    rcases hradix : radix? cs with _ | radix
    · exact covers_scanDecimal cs
    · exact covers_scanRadix hradix
  rcases scan_eq_or_goesOn cs with hscan | ⟨l, count, hnumber, hscan⟩
  · rwa [hscan]
  · rw [hnumber] at hkind
    obtain ⟨taken, rest, hcs, hlength, hplain⟩ := hkind
    change taken.length = count at hlength
    rw [hscan, hcs, ← hlength, List.drop_left]
    refine ⟨taken ++ rest.takeWhile goesOn, rest.dropWhile goesOn, ?_, List.length_append, ?_⟩
    · rw [List.append_assoc, List.takeWhile_append_dropWhile]
    · intro c hc
      rcases List.mem_append.mp hc with hc | hc
      · exact hplain c hc
      · exact isPlain_of_goesOn (List.mem_takeWhile_imp hc)

/-- What is not a number is refused as an integer or as a number. -/
theorem mistake_of_scan {cs : List Char} {what : Mistake} {count : ℕ}
    (h : scan cs = .error (what, count)) : what = .badInteger ∨ what = .badNumber := by
  rcases scan_eq_or_goesOn cs with hscan | ⟨l, count, -, hscan⟩
  · rw [hscan] at h
    rcases hradix : radix? cs with _ | radix
    · rw [hradix, Option.elim_none] at h
      unfold scanDecimal at h
      dsimp only at h
      split_ifs at h
      cases h
      exact .inr rfl
    · rw [hradix, Option.elim_some] at h
      unfold scanRadix at h
      dsimp only at h
      split_ifs at h
      cases h
      exact .inl rfl
  · rw [hscan] at h
    cases h
    exact .inr rfl

/-- What is refused as a number has at least one character. -/
theorem count_pos_of_scan {cs : List Char} {what : Mistake} {count : ℕ}
    (h : scan cs = .error (what, count)) : 0 < count := by
  rcases scan_eq_or_goesOn cs with hscan | ⟨l, taken, hnumber, hscan⟩
  · rw [hscan] at h
    rcases hradix : radix? cs with _ | radix
    · rw [hradix, Option.elim_none] at h
      unfold scanDecimal at h
      dsimp only at h
      split_ifs at h with hplaced
      cases h
      refine List.length_pos_iff.mpr fun hempty => hplaced ?_
      rw [hempty]
      rfl
    · rw [hradix, Option.elim_some] at h
      unfold scanRadix at h
      dsimp only at h
      split_ifs at h
      cases h
      exact Nat.add_pos_left Nat.two_pos _
  · -- Something goes on behind the number, or it would have been read.
    rw [hscan] at h
    cases h
    refine Nat.add_pos_right _ (List.length_pos_iff.mpr fun hempty => ?_)
    have hstops := isEmpty_takeWhile_iff.mp (List.isEmpty_iff.mpr hempty)
    rw [scan_eq_ok_iff.mpr ⟨hnumber, hstops⟩] at hscan
    cases hscan

end Numeral

namespace Token

/-- `Spelled token lexeme`: a token of this kind is written with these characters. -/
def Spelled : Token → List Char → Prop
  | .leftParen, lexeme => lexeme = ['(']
  | .rightParen, lexeme => lexeme = [')']
  | .quoted content, lexeme =>
    ∃ quote, (quote = '\x27' ∨ quote = '\x22') ∧ lexeme = quote :: (content.toList ++ [quote])
  | _, lexeme => ∀ c ∈ lexeme, isPlain c = true

/-- Plain characters spell the token of a word. -/
theorem spelled_ofWord {lexeme : List Char} (h : ∀ c ∈ lexeme, isPlain c = true) (word : String) :
    Spelled (ofWord word) lexeme := by
  unfold ofWord
  split_ifs <;> exact h

/-- A number is spelled by what it takes. -/
theorem spelled_of_scanNumber {c : Char} {cs : List Char} {token : Token} {more : ℕ}
    (hstart : startsNumber c cs = true) (h : scanNumber (c :: cs) = .token token more) :
    Spelled token (c :: cs.take more) := by
  unfold scanNumber at h
  split at h
  · rename_i l count hscan
    cases h
    obtain ⟨taken, rest, hcs, hlength, hplain⟩ := Numeral.covers_scan (c :: cs)
    rw [hscan] at hlength
    change taken.length = count at hlength
    intro d hd
    rcases List.mem_cons.mp hd with rfl | hd
    · exact Numeral.isPlain_of_goesOn (goesOn_of_startsNumber hstart)
    · cases taken with
      | nil =>
          rw [← hlength] at hd
          cases hd
      | cons first taken =>
          rw [List.cons_append] at hcs
          obtain ⟨rfl, rfl⟩ := List.cons.inj hcs
          rw [← hlength, List.length_cons, Nat.add_sub_cancel, List.take_left] at hd
          exact hplain d (List.mem_cons_of_mem _ hd)
  · cases h

/-- A quoted text is spelled by its content between quotes. -/
theorem spelled_of_scanQuoted {quote : Char} (hquote : quote = '\x27' ∨ quote = '\x22')
    {cs : List Char} {token : Token} {more : ℕ} (h : scanQuoted quote cs = .token token more) :
    Spelled token (quote :: cs.take more) := by
  unfold scanQuoted at h
  dsimp only at h
  split at h
  · rename_i hclosed
    cases h
    refine ⟨quote, hquote, ?_⟩
    obtain ⟨after, hcs⟩ := List.takeWhile_prefix (fun c => c != quote && c != '\n') (l := cs)
    generalize (cs.takeWhile fun c => c != quote && c != '\n') = content at *
    subst hcs
    rw [List.drop_left] at hclosed
    obtain ⟨tail, rfl⟩ := List.head?_eq_some_iff.mp hclosed
    rw [String.toList_ofList, List.append_cons, List.take_left' (by simp)]
  · cases h

/-- The signs that form a symbol together are plain. -/
theorem isPlain_of_double? {c d : Char} {sign : Symbol} (h : Symbol.double? c d = some sign) :
    isPlain c = true ∧ isPlain d = true := by
  unfold Symbol.double? at h
  split at h
  case h_9 => cases h
  all_goals exact ⟨rfl, rfl⟩

/-- Signs of one character are plain. -/
theorem isPlain_of_single? {c : Char} {sign : Symbol} (h : Symbol.single? c = some sign) :
    isPlain c = true := by
  unfold Symbol.single? at h
  split at h
  case h_12 => cases h
  all_goals rfl

/-- A symbol is spelled by its signs. -/
theorem spelled_of_scanSymbol {c : Char} {cs : List Char} {token : Token} {more : ℕ}
    (h : scanSymbol c cs = .token token more) : Spelled token (c :: cs.take more) := by
  unfold scanSymbol at h
  split at h
  · rename_i sign hdouble
    cases h
    obtain ⟨d, hhead, hd⟩ := Option.bind_eq_some_iff.mp hdouble
    obtain ⟨tail, rfl⟩ := List.head?_eq_some_iff.mp hhead
    obtain ⟨hc, hd⟩ := isPlain_of_double? hd
    intro e he
    rw [List.take_succ_cons, List.take_zero, List.mem_cons, List.mem_singleton] at he
    rcases he with rfl | rfl
    · exact hc
    · exact hd
  · split at h
    · rename_i sign hsingle
      cases h
      intro e he
      rw [List.take_zero, List.mem_singleton] at he
      rw [he]
      exact isPlain_of_single? hsingle
    · cases h

/-- **Tokens.** A token is spelled by the characters it is read with. -/
theorem spelled_of_scan {c : Char} {cs : List Char} {token : Token} {more : ℕ}
    (h : scan c cs = .token token more) : Spelled token (c :: cs.take more) := by
  by_cases hstart : startsNumber c cs = true
  · rw [scan_of_startsNumber hstart] at h
    exact spelled_of_scanNumber hstart h
  replace h := (if_neg hstart).symm.trans h
  split at h
  · rename_i hword
    cases h
    rw [← List.prefix_iff_eq_take.mp (List.takeWhile_prefix _)]
    refine spelled_ofWord (fun d hd => Numeral.isPlain_of_goesOn ?_) _
    rcases List.mem_cons.mp hd with rfl | hd
    · exact Numeral.goesOn_of_isWordChar (isWordChar_of_isWordStart hword)
    · exact Numeral.goesOn_of_isWordChar (List.mem_takeWhile_imp hd)
  · split at h
    · rename_i hquote
      exact spelled_of_scanQuoted (by simpa using hquote) h
    · split_ifs at h with hleft hright hcomma hpoint
      · cases h
        rw [hleft]
        rfl
      · cases h
        rw [hright]
        rfl
      · cases h
        rw [hcomma]
        exact List.forall_mem_singleton.mpr rfl
      · cases h
        rw [hpoint]
        exact List.forall_mem_singleton.mpr rfl
      · exact spelled_of_scanSymbol h

/-- The characters of a token spell it. -/
theorem IsLexeme.spelled {token : Token} {lexeme : List Char} (h : IsLexeme token lexeme) :
    Spelled token lexeme := by
  obtain ⟨c, more, rfl, -, hcompletes⟩ := h
  have hspelled := spelled_of_scan (hcompletes [] stops_nil)
  rwa [List.take_left] at hspelled

/-- What spells a token that is not quoted is ASCII and no white space. -/
theorem Spelled.ascii {token : Token} {lexeme : List Char} (h : Spelled token lexeme)
    (hquoted : ∀ content, token ≠ .quoted content) :
    ∀ c ∈ lexeme, c.toNat < 128 ∧ isSpace c = false := by
  cases token with
  | quoted content => exact absurd rfl (hquoted content)
  | leftParen | rightParen =>
      rw [show lexeme = _ from h]
      exact List.forall_mem_singleton.mpr (by decide)
  | number _ | name _ | keyword _ | symbol _ | comma | dot =>
      intro c hc
      obtain ⟨hascii, hspace, -⟩ := of_isPlain (h c hc)
      exact ⟨hascii, hspace⟩

/-- What is taken for a mistake: one byte of a character that is not ASCII, a quoted text without
its end, or ASCII characters. -/
theorem taken_of_mistake {c : Char} {cs : List Char} {what : Mistake} {width : ℕ}
    (h : scan c cs = .mistake what width) :
    (what = .nonAscii ∧ 128 ≤ c.toNat ∧ width = 1) ∨
      (what = .unterminatedQuote ∧ c.toNat < 128 ∧
        ∃ content rest, cs = content ++ rest ∧ width = 1 + byteLength content) ∨
      what ≠ .nonAscii ∧ what ≠ .unterminatedQuote ∧ 0 < width ∧
        ∃ taken rest, c :: cs = taken ++ rest ∧ taken.length = width ∧
          ∀ d ∈ taken, d.toNat < 128 := by
  by_cases hstart : startsNumber c cs = true
  · rw [scan_of_startsNumber hstart, scanNumber] at h
    split at h
    · cases h
    · rename_i what count hscan
      cases h
      obtain ⟨taken, rest, hcs, hlength, hplain⟩ := Numeral.covers_scan (c :: cs)
      rw [hscan] at hlength
      refine .inr (.inr ⟨?_, ?_, Numeral.count_pos_of_scan hscan, taken, rest, hcs, hlength,
        fun d hd => (of_isPlain (hplain d hd)).1⟩)
      · rcases Numeral.mistake_of_scan hscan with rfl | rfl <;> simp
      · rcases Numeral.mistake_of_scan hscan with rfl | rfl <;> simp
  replace h := (if_neg hstart).symm.trans h
  split at h
  · cases h
  · split at h
    · rename_i hquote
      refine .inr (.inl ?_)
      unfold scanQuoted at h
      dsimp only at h
      split_ifs at h
      cases h
      refine ⟨rfl, ?_, _, _, List.takeWhile_append_dropWhile.symm, rfl⟩
      rcases Bool.or_eq_true _ _ |>.mp hquote with hc | hc
      · rw [of_decide_eq_true hc]
        decide
      · rw [of_decide_eq_true hc]
        decide
    · split_ifs at h with hleft hright hcomma hpoint hascii
      · cases h
        exact .inl ⟨rfl, hascii, rfl⟩
      · refine .inr (.inr ?_)
        unfold scanSymbol at h
        split at h
        · cases h
        · split at h
          · cases h
          · cases h
            refine ⟨?_, ?_, Nat.one_pos, [c], cs, rfl, rfl,
              List.forall_mem_singleton.mpr (Nat.not_le.mp hascii)⟩
            · split <;> simp
            · split <;> simp

end Token

end Elementwise
