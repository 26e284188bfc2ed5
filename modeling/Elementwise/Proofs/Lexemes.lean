import Mathlib.Data.List.Forall2
import Mathlib.Data.List.TakeWhile
import Elementwise.Proofs.Literals

/-!
# The text of a token

Tokens are read greedily, so how far a token reaches depends on what follows it. Here this
dependence is bounded: a token whose own characters are followed by a blank, or by nothing, is read
as before (`Token.exists_completes`). For numbers this needs to know what the parts of a decimal
look like (`Numeral.Written.Proper`), because each part ends where the next one starts.
-/

namespace Elementwise

namespace Text

/-- No character of a class stands at the front of a text. -/
def Stops (p : Char → Bool) (cs : List Char) : Prop :=
  ∀ c, cs.head? = some c → p c = false

variable {p q : Char → Bool} {c : Char} {cs rest : List Char}

/-- A class stops at the end. -/
theorem stops_nil : Stops p [] := by
  intro c hc
  cases hc

/-- A class stops at a character that is not in it. -/
theorem stops_cons : Stops p (c :: cs) ↔ p c = false := by
  simp [Stops]

/-- Where a class stops, a smaller one does. -/
theorem Stops.mono (h : Stops p cs) (hclass : ∀ c, q c = true → p c = true) : Stops q cs := by
  intro c hc
  have hp := h c hc
  by_contra hq
  rw [hclass c (by simpa using hq)] at hp
  cases hp

/-- A run of characters of a class is taken whole where the class stops. -/
theorem takeWhile_append_of_stops (hcs : ∀ c ∈ cs, p c = true) (hrest : Stops p rest) :
    (cs ++ rest).takeWhile p = cs := by
  rw [List.takeWhile_append_of_pos hcs]
  cases rest with
  | nil => simp
  | cons c rest => simp [stops_cons.mp hrest]

/-- Behind a run of a class the rest is left. -/
theorem dropWhile_append_of_stops (hcs : ∀ c ∈ cs, p c = true) (hrest : Stops p rest) :
    (cs ++ rest).dropWhile p = rest := by
  rw [List.dropWhile_append_of_pos hcs]
  cases rest with
  | nil => rfl
  | cons c rest => simp [stops_cons.mp hrest]

/-- Nothing is taken where a class stops. -/
theorem isEmpty_takeWhile_iff : (cs.takeWhile p).isEmpty = true ↔ Stops p cs := by
  cases cs with
  | nil => simp [stops_nil]
  | cons c cs => simp [stops_cons, List.takeWhile_cons]

/-- The five blanks. -/
theorem isBlank_iff :
    isBlank c = true ↔ c = ' ' ∨ c = '\t' ∨ c = '\n' ∨ c = '\x0c' ∨ c = '\r' := by
  simp only [isBlank, Bool.or_eq_true, beq_iff_eq, or_assoc]

/-- What is not blank in a run of blanks is nothing. -/
theorem filter_blanks (hcs : ∀ c ∈ cs, isBlank c = true) :
    cs.filter (fun c => !isBlank c) = [] := by
  simpa [List.filter_eq_nil_iff] using hcs

/-- A text that sets off what stands before it: it is empty or starts with a blank. -/
def Separates (cs : List Char) : Prop :=
  Stops (fun c => !isBlank c) cs

/-- Blanks belong to no class of characters of which numbers and words are made. -/
theorem not_isBlank_of_goesOn (h : Numeral.goesOn c = true) : (!isBlank c) = true := by
  rw [Bool.not_eq_true']
  by_contra hblank
  rw [Bool.not_eq_false, isBlank_iff] at hblank
  rcases hblank with rfl | rfl | rfl | rfl | rfl <;> exact absurd h (by decide)

/-- No number goes on at a separator. -/
theorem Separates.stops_goesOn (h : Separates rest) : Stops Numeral.goesOn rest :=
  h.mono fun _ => not_isBlank_of_goesOn

end Text

namespace Numeral

open Text

variable {c : Char} {rest : List Char}

/-- A number goes on with characters of words. -/
theorem goesOn_of_isWordChar (h : isWordChar c = true) : goesOn c = true := by
  simp [goesOn, h]

/-- Digits and underscores are characters of words. -/
theorem isWordChar_of_isDigitOrUnderscore (h : isDigitOrUnderscore c = true) :
    isWordChar c = true := by
  simp only [isDigitOrUnderscore, isWordChar, Char.isAlphanum, Bool.or_eq_true] at h ⊢
  exact h.imp_left .inr

/-- A number goes on with digits and underscores. -/
theorem goesOn_of_isDigitOrUnderscore (h : isDigitOrUnderscore c = true) : goesOn c = true :=
  goesOn_of_isWordChar (isWordChar_of_isDigitOrUnderscore h)

/-! ## Decimals -/

namespace Written

/-- The form of an exponent: a mark, a sign or none, and a run of digits that starts with one. -/
def ProperExponent : Char × Option Char × List Char → Prop
  | (mark, sign, digits) =>
    (mark = 'e' ∨ mark = 'E') ∧ (∀ s, sign = some s → s = '+' ∨ s = '-') ∧
      digits.head?.any Char.isDigit = true ∧ ∀ c ∈ digits, isDigitOrUnderscore c = true

/-- The form of the parts of a decimal. -/
structure Proper (d : Written) : Prop where
  whole : ∀ c ∈ d.whole, isDigitOrUnderscore c = true
  fraction : ∀ run, d.fraction = some run → ∀ c ∈ run, isDigitOrUnderscore c = true
  exponent : ∀ parts, d.exponent = some parts → ProperExponent parts

/-- The characters of an exponent, if there is one. -/
def exponentChars : Option (Char × Option Char × List Char) → List Char
  | some (mark, sign, digits) => mark :: sign.toList ++ digits
  | none => []

/-- The characters of a number, part by part. -/
theorem chars_eq (d : Written) :
    d.chars = d.whole ++ ((d.fraction.map ('.' :: ·)).getD [] ++ exponentChars d.exponent) := by
  rw [← List.append_assoc]
  rfl

/-- A run of digits that starts with one makes an exponent, behind a mark and a sign or none. -/
theorem properExponent_takeWhile {mark : Char} {sign : Option Char} {cs : List Char}
    (hmark : (mark == 'e' || mark == 'E') = true) (hsign : ∀ s, sign = some s → s = '+' ∨ s = '-')
    (hdigit : cs.head?.any Char.isDigit = true) :
    ProperExponent (mark, sign, cs.takeWhile isDigitOrUnderscore) := by
  refine ⟨by simpa using hmark, hsign, ?_, fun c => List.mem_takeWhile_imp⟩
  cases cs with
  | nil => cases hdigit
  | cons c cs =>
      have hc : c.isDigit = true := by simpa using hdigit
      simp [isDigitOrUnderscore, hc]

/-- An exponent that is found has its form and stands at the front. -/
theorem proper_exponentOf {cs : List Char} {parts : Char × Option Char × List Char}
    (h : exponentOf cs = some parts) :
    ProperExponent parts ∧ ∃ rest, cs = exponentChars (some parts) ++ rest := by
  -- Only two of the ways through the tests find an exponent: one with a sign and one without.
  revert h
  fun_cases exponentOf cs with
  | case1 mark hmark next after hsign hdigit =>
      rintro ⟨⟩
      refine ⟨properExponent_takeWhile hmark ?_ hdigit, after.dropWhile isDigitOrUnderscore, ?_⟩
      · rintro s ⟨⟩
        simpa using hsign
      · exact congrArg (mark :: next :: ·) List.takeWhile_append_dropWhile.symm
  | case3 mark hmark next after hsign hdigit =>
      rintro ⟨⟩
      refine ⟨properExponent_takeWhile hmark ?_ (by simpa using hdigit),
        (next :: after).dropWhile isDigitOrUnderscore, ?_⟩
      · rintro s ⟨⟩
      · exact congrArg (mark :: ·) List.takeWhile_append_dropWhile.symm
  | case2 | case4 | case5 | case6 | case7 =>
      intro h
      cases h

/-- An exponent is found in front of what does not go on with it. -/
theorem exponentOf_append {parts : Char × Option Char × List Char} (h : ProperExponent parts)
    (hrest : Stops goesOn rest) :
    exponentOf (exponentChars (some parts) ++ rest) = some parts := by
  obtain ⟨mark, sign, digits⟩ := parts
  obtain ⟨hmark, hsign, hhead, hdigits⟩ := h
  have hrun : (digits ++ rest).takeWhile isDigitOrUnderscore = digits :=
    takeWhile_append_of_stops hdigits (hrest.mono fun c => goesOn_of_isDigitOrUnderscore)
  obtain ⟨first, others, rfl⟩ : ∃ first others, digits = first :: others := by
    cases digits with
    | nil => cases hhead
    | cons first others => exact ⟨first, others, rfl⟩
  have hfirst : first.isDigit = true := by simpa using hhead
  have hmarkTest : (mark == 'e' || mark == 'E') = true := by simpa using hmark
  cases sign with
  | none =>
      have hunsigned : (first == '+' || first == '-') = false := by
        by_contra hsigned
        simp only [Bool.not_eq_false, Bool.or_eq_true, beq_iff_eq] at hsigned
        rcases hsigned with rfl | rfl <;> exact absurd hfirst (by decide)
      simp only [exponentChars, Option.toList_none, List.cons_append, List.nil_append, exponentOf,
        hmarkTest, hunsigned, hfirst, if_true, Bool.false_eq_true, if_false]
      rw [← List.cons_append, hrun]
  | some s =>
      have hsigned : (s == '+' || s == '-') = true := by simpa using hsign s rfl
      simp only [exponentChars, Option.toList_some, List.cons_append, List.nil_append, exponentOf,
        hmarkTest, hsigned, if_true, List.head?_cons, Option.any_some, hfirst]
      rw [← List.cons_append, hrun]

/-- What does not go on with a number has no exponent at its front. -/
theorem exponentOf_of_stops (h : Stops goesOn rest) : exponentOf rest = none := by
  cases rest with
  | nil => rfl
  | cons mark rest =>
      have hmark : (mark == 'e' || mark == 'E') = false := by
        by_contra hmark
        simp only [Bool.not_eq_false, Bool.or_eq_true, beq_iff_eq] at hmark
        rcases hmark with rfl | rfl <;> exact absurd (stops_cons.mp h) (by decide)
      simp only [exponentOf, hmark, Bool.false_eq_true, if_false]

/-- What stands behind a run of digits, up to the end of an exponent, does not go on with it. -/
theorem stops_exponentChars {exponent : Option (Char × Option Char × List Char)}
    (h : ∀ parts, exponent = some parts → ProperExponent parts) (hrest : Stops goesOn rest) :
    Stops (fun c => isDigitOrUnderscore c || c == '.') (exponentChars exponent ++ rest) := by
  cases exponent with
  | none =>
      refine hrest.mono fun c hc => ?_
      rcases Bool.or_eq_true _ _ |>.mp hc with hc | hc
      · exact goesOn_of_isDigitOrUnderscore hc
      · simp [goesOn, hc]
  | some parts =>
      obtain ⟨mark, sign, digits⟩ := parts
      obtain ⟨rfl | rfl, -⟩ := h _ rfl
      · exact stops_cons.mpr (by decide)
      · exact stops_cons.mpr (by decide)

/-- The parts of a decimal have their forms. -/
theorem proper_take (cs : List Char) : (take cs).Proper := by
  unfold take
  dsimp only
  split
  · refine ⟨fun c => List.mem_takeWhile_imp, ?_, fun parts h => (proper_exponentOf h).1⟩
    rintro run ⟨⟩ c
    exact List.mem_takeWhile_imp
  · refine ⟨fun c => List.mem_takeWhile_imp, ?_, fun parts h => (proper_exponentOf h).1⟩
    rintro run ⟨⟩

/-- The exponent, if there is one, stands at the front of a text. -/
theorem exists_exponentChars_append (cs : List Char) :
    ∃ rest, cs = exponentChars (exponentOf cs) ++ rest := by
  rcases h : exponentOf cs with _ | parts
  · exact ⟨cs, rfl⟩
  · exact (proper_exponentOf h).2

/-- The characters of a decimal are the front of the text it is taken from. -/
theorem exists_chars_take_append (cs : List Char) : ∃ rest, cs = (take cs).chars ++ rest := by
  have hsplit : ∀ cs : List Char,
      cs = cs.takeWhile isDigitOrUnderscore ++ cs.dropWhile isDigitOrUnderscore :=
    fun cs => List.takeWhile_append_dropWhile.symm
  unfold take
  dsimp only
  split
  · rename_i after hafter
    obtain ⟨rest, hrest⟩ := exists_exponentChars_append (after.dropWhile isDigitOrUnderscore)
    refine ⟨rest, ?_⟩
    calc cs = cs.takeWhile isDigitOrUnderscore ++ '.' :: after := hafter ▸ hsplit cs
      _ = cs.takeWhile isDigitOrUnderscore ++ '.' :: (after.takeWhile isDigitOrUnderscore ++
            (exponentChars (exponentOf (after.dropWhile isDigitOrUnderscore)) ++ rest)) := by
          rw [← hrest, ← hsplit after]
      _ = _ := by simp [chars_eq]
  · obtain ⟨rest, hrest⟩ := exists_exponentChars_append (cs.dropWhile isDigitOrUnderscore)
    refine ⟨rest, ?_⟩
    calc cs = cs.takeWhile isDigitOrUnderscore ++
            (exponentChars (exponentOf (cs.dropWhile isDigitOrUnderscore)) ++ rest) := by
          rw [← hrest, ← hsplit cs]
      _ = _ := by simp [chars_eq]

/-- **Decimals.** A decimal is taken back from its characters, if what follows does not go on. -/
theorem take_chars_append {d : Written} (h : d.Proper) (hrest : Stops goesOn rest) :
    take (d.chars ++ rest) = d := by
  obtain ⟨whole, fraction, exponent⟩ := d
  have hexponent : exponentOf (exponentChars exponent ++ rest) = exponent := by
    cases exponent with
    | none => exact exponentOf_of_stops hrest
    | some parts => exact exponentOf_append (h.exponent _ rfl) hrest
  have hstops := stops_exponentChars h.exponent hrest
  have hdigits : Stops isDigitOrUnderscore (exponentChars exponent ++ rest) :=
    hstops.mono fun c hc => by simp [hc]
  rw [chars_eq, take]
  cases fraction with
  | none =>
      simp only [Option.map_none, Option.getD_none, List.nil_append, List.append_assoc]
      rw [takeWhile_append_of_stops h.whole hdigits, dropWhile_append_of_stops h.whole hdigits]
      split
      · rename_i after hafter
        rw [hafter] at hstops
        exact absurd (stops_cons.mp hstops) (by decide)
      · rw [hexponent]
  | some run =>
      have hpoint : Stops isDigitOrUnderscore ('.' :: (run ++ (exponentChars exponent ++ rest))) :=
        stops_cons.mpr (by decide)
      simp only [Option.map_some, Option.getD_some, List.append_assoc, List.cons_append]
      rw [takeWhile_append_of_stops h.whole hpoint, dropWhile_append_of_stops h.whole hpoint]
      show Written.mk whole (some ((run ++ (exponentChars exponent ++ rest)).takeWhile _))
        (exponentOf ((run ++ (exponentChars exponent ++ rest)).dropWhile _)) = _
      rw [takeWhile_append_of_stops (h.fraction _ rfl) hdigits,
        dropWhile_append_of_stops (h.fraction _ rfl) hdigits, hexponent]

end Written

/-! ## Numbers -/

/-- A radix is announced by a zero and a letter. -/
theorem exists_of_radix? {cs : List Char} {radix : ℕ} (h : radix? cs = some radix) :
    ∃ mark body, cs = '0' :: mark :: body ∧ isWordChar mark = true ∧
      ∀ body', radix? ('0' :: mark :: body') = some radix := by
  unfold radix? at h
  split at h
  · rename_i mark body
    refine ⟨mark, body, rfl, ?_, fun _ => h⟩
    by_contra hword
    have hne : ∀ letter : Char, isWordChar letter = true → (mark == letter) = false := by
      intro letter hletter
      rw [beq_eq_false_iff_ne]
      rintro rfl
      exact hword hletter
    simp only [hne 'x' (by decide), hne 'X' (by decide), hne 'o' (by decide), hne 'O' (by decide),
      hne 'b' (by decide), hne 'B' (by decide), Bool.or_self, Bool.false_eq_true, if_false] at h
    cases h
  · cases h

/-- A radix that is announced in front of one text is announced in front of all, if a number ends
there. -/
theorem radix?_append {cs tail : List Char} {radix : ℕ} (h : radix? (cs ++ rest) = some radix)
    (hrest : Stops goesOn rest) : radix? (cs ++ tail) = some radix := by
  obtain ⟨mark, body, hcs, hmark, hbody⟩ := exists_of_radix? h
  have hne : ∀ {c : Char} {more : List Char}, goesOn c = true → rest ≠ c :: more := by
    rintro c more hc rfl
    rw [stops_cons.mp hrest] at hc
    cases hc
  match cs with
  | [] => exact absurd hcs (hne (by decide))
  | [c] =>
      rw [List.singleton_append, List.cons.injEq] at hcs
      exact absurd hcs.2 (hne (goesOn_of_isWordChar hmark))
  | c :: c' :: more =>
      rw [List.cons_append, List.cons_append, List.cons.injEq, List.cons.injEq] at hcs
      rw [hcs.1, hcs.2.1]
      exact hbody _

/-- A number is read if the number of its kind is, and nothing goes on behind it. -/
theorem scan_eq_ok_iff {cs : List Char} {l : Literal} {count : ℕ} :
    scan cs = .ok (l, count) ↔
      ((radix? cs).elim (scanDecimal cs) fun radix => scanRadix radix cs) = .ok (l, count) ∧
        Stops goesOn (cs.drop count) := by
  have hfinish : ∀ number : Scanned,
      (number >>= fun found =>
        if ((cs.drop found.2).takeWhile goesOn).isEmpty then .ok found
        else .error (.badNumber, found.2 + ((cs.drop found.2).takeWhile goesOn).length)) =
          .ok (l, count) ↔
        number = .ok (l, count) ∧ Stops goesOn (cs.drop count) := by
    intro number
    rw [bind_eq_ok_iff]
    constructor
    · rintro ⟨found, rfl, h⟩
      split at h
      · rename_i hexcess
        cases h
        exact ⟨rfl, isEmpty_takeWhile_iff.mp hexcess⟩
      · cases h
    · rintro ⟨rfl, hstops⟩
      exact ⟨_, rfl, if_pos (isEmpty_takeWhile_iff.mpr hstops)⟩
  unfold scan
  rcases radix? cs with _ | radix
  · exact hfinish (scanDecimal cs)
  · exact hfinish (scanRadix radix cs)

/-- A decimal is read from its own characters. -/
theorem exists_lexeme_of_scanDecimal {cs : List Char} {l : Literal} {count : ℕ}
    (h : scanDecimal cs = .ok (l, count)) :
    ∃ lexeme tail, cs = lexeme ++ tail ∧ lexeme.length = count ∧
      ∀ rest, Stops goesOn rest → scanDecimal (lexeme ++ rest) = .ok (l, count) := by
  obtain ⟨tail, hcs⟩ := Written.exists_chars_take_append cs
  unfold scanDecimal at h
  dsimp only at h
  split at h
  · rename_i hplaced
    cases h
    refine ⟨(Written.take cs).chars, tail, hcs, rfl, fun rest hrest => ?_⟩
    rw [scanDecimal, Written.take_chars_append (Written.proper_take cs) hrest]
    exact if_pos hplaced
  · cases h

/-- Behind the mark, an integer with a radix takes what goes on with a word. -/
theorem scanRadix_cons_cons (radix : ℕ) (zero mark : Char) (after : List Char) :
    scanRadix radix (zero :: mark :: after) =
      if isRadixBody radix (after.takeWhile isWordChar) then
        .ok (radixLiteral radix (digitsOf (after.takeWhile isWordChar)),
          2 + (after.takeWhile isWordChar).length)
      else .error (.badInteger, 2 + (after.takeWhile isWordChar).length) :=
  rfl

/-- An integer with a radix is read from its own characters. -/
theorem exists_lexeme_of_scanRadix {radix : ℕ} {zero mark : Char} {after : List Char} {l : Literal}
    {count : ℕ} (h : scanRadix radix (zero :: mark :: after) = .ok (l, count)) :
    ∃ body tail, after = body ++ tail ∧ body.length + 2 = count ∧
      ∀ rest, Stops goesOn rest →
        scanRadix radix (zero :: mark :: (body ++ rest)) = .ok (l, count) := by
  rw [scanRadix_cons_cons] at h
  split at h
  · rename_i hbody
    cases h
    refine ⟨after.takeWhile isWordChar, after.dropWhile isWordChar,
      List.takeWhile_append_dropWhile.symm, Nat.add_comm _ _, fun rest hrest => ?_⟩
    rw [scanRadix_cons_cons, takeWhile_append_of_stops (fun c => List.mem_takeWhile_imp)
      (hrest.mono fun c => goesOn_of_isWordChar), if_pos hbody]
  · cases h

/-- **Numbers.** What is read as a number is decided by its own characters, if what follows does not
go on. -/
theorem exists_lexeme {cs : List Char} {l : Literal} {count : ℕ} (h : scan cs = .ok (l, count)) :
    ∃ lexeme tail, cs = lexeme ++ tail ∧ lexeme.length = count ∧ Stops goesOn tail ∧
      ∀ rest, Stops goesOn rest → scan (lexeme ++ rest) = .ok (l, count) := by
  obtain ⟨hnumber, hstops⟩ := scan_eq_ok_iff.mp h
  rcases hradix : radix? cs with _ | radix
  · rw [hradix] at hnumber
    obtain ⟨lexeme, tail, rfl, rfl, hlexeme⟩ := exists_lexeme_of_scanDecimal hnumber
    rw [List.drop_left] at hstops
    refine ⟨lexeme, tail, rfl, rfl, hstops, fun rest hrest => ?_⟩
    have hnone : radix? (lexeme ++ rest) = none := by
      rcases hsome : radix? (lexeme ++ rest) with _ | radix
      · rfl
      · rw [radix?_append hsome hrest] at hradix
        cases hradix
    rw [scan_eq_ok_iff, hnone, List.drop_left]
    exact ⟨hlexeme rest hrest, hrest⟩
  · rw [hradix] at hnumber
    obtain ⟨mark, after, rfl, -, hmark⟩ := exists_of_radix? hradix
    obtain ⟨body, tail, rfl, rfl, hbody⟩ := exists_lexeme_of_scanRadix hnumber
    rw [List.drop_succ_cons, List.drop_succ_cons, List.drop_left] at hstops
    refine ⟨'0' :: mark :: body, tail, rfl, rfl, hstops, fun rest hrest => ?_⟩
    rw [scan_eq_ok_iff, List.cons_append, List.cons_append, hmark, List.drop_succ_cons,
      List.drop_succ_cons, List.drop_left]
    exact ⟨hbody rest hrest, hrest⟩

end Numeral

/-! ## Tokens -/

namespace Token

open Text

/-- The characters `more` complete the token that starts with `c`, in front of every text that sets
them off. -/
def Completes (c : Char) (more : List Char) (token : Token) : Prop :=
  ∀ rest, Separates rest → scan c (more ++ rest) = .token token more.length

/-- Whether a number starts here: with a digit, or with a point and a digit. -/
def startsNumber (c : Char) (rest : List Char) : Bool :=
  c.isDigit || (c == '.' && rest.head?.any Char.isDigit)

/-- What starts a number is scanned as one. -/
theorem scan_of_startsNumber {c : Char} {rest : List Char} (h : startsNumber c rest = true) :
    scan c rest = scanNumber (c :: rest) :=
  if_pos h

/-- What starts a number goes on with one. -/
theorem goesOn_of_startsNumber {c : Char} {rest : List Char} (h : startsNumber c rest = true) :
    Numeral.goesOn c = true := by
  simp only [startsNumber, Bool.or_eq_true, Bool.and_eq_true] at h
  rcases h with h | ⟨h, -⟩
  · exact Numeral.goesOn_of_isDigitOrUnderscore (by simp [Numeral.isDigitOrUnderscore, h])
  · simp [Numeral.goesOn, h]

/-- A number starts in the same way if the characters of the number stay. -/
theorem startsNumber_append {c : Char} {more tail : List Char}
    (h : startsNumber c (more ++ tail) = true) (htail : Stops Numeral.goesOn tail)
    (rest : List Char) : startsNumber c (more ++ rest) = true := by
  cases more with
  | cons d more => exact h
  | nil =>
      simp only [startsNumber, Bool.or_eq_true, Bool.and_eq_true] at h ⊢
      rcases h with h | ⟨-, h⟩
      · exact .inl h
      · -- A digit behind the point would go on.
        cases tail with
        | nil => cases h
        | cons d tail =>
            have hdigit : Numeral.isDigitOrUnderscore d = true := by
              simp_all [Numeral.isDigitOrUnderscore]
            have hgoesOn := Numeral.goesOn_of_isDigitOrUnderscore hdigit
            rw [stops_cons.mp htail] at hgoesOn
            cases hgoesOn

/-- A number is completed by its own characters. -/
theorem exists_completes_number {c : Char} {cs : List Char} {token : Token} {more : ℕ}
    (hstart : startsNumber c cs = true) (h : scan c cs = .token token more) :
    ∃ lexeme tail, cs = lexeme ++ tail ∧ lexeme.length = more ∧ Completes c lexeme token := by
  rw [scan_of_startsNumber hstart, scanNumber] at h
  split at h
  · rename_i l count hscan
    cases h
    obtain ⟨lexeme, tail, hcs, rfl, htail, hlexeme⟩ := Numeral.exists_lexeme hscan
    cases lexeme with
    | nil =>
        rw [List.nil_append] at hcs
        rw [← hcs, stops_cons, goesOn_of_startsNumber hstart] at htail
        cases htail
    | cons first lexeme =>
        obtain ⟨rfl, rfl⟩ := List.cons.inj hcs
        refine ⟨lexeme, tail, rfl, rfl, fun rest hrest => ?_⟩
        rw [scan_of_startsNumber (startsNumber_append hstart htail rest), scanNumber,
          ← List.cons_append, hlexeme rest hrest.stops_goesOn]
        rfl
  · cases h

/-- A quoted text is completed by its content and the quote at its end. -/
theorem exists_completes_quoted {quote : Char} {cs : List Char} {token : Token} {more : ℕ}
    (hscan : ∀ rest, scan quote rest = scanQuoted quote rest)
    (h : scanQuoted quote cs = .token token more) :
    ∃ lexeme tail, cs = lexeme ++ tail ∧ lexeme.length = more ∧ Completes quote lexeme token := by
  unfold scanQuoted at h
  dsimp only at h
  split at h
  · rename_i hclosed
    cases h
    have hall := List.all_takeWhile (p := fun c => c != quote && c != '\n') (l := cs)
    obtain ⟨after, hcs⟩ := List.takeWhile_prefix (fun c => c != quote && c != '\n') (l := cs)
    generalize (cs.takeWhile fun c => c != quote && c != '\n') = content at *
    subst hcs
    rw [List.drop_left] at hclosed
    obtain ⟨tail, rfl⟩ := List.head?_eq_some_iff.mp hclosed
    refine ⟨content ++ [quote], tail, by simp, by simp, fun rest hrest => ?_⟩
    have hcontent : (content ++ quote :: rest).takeWhile (fun c => c != quote && c != '\n') =
        content :=
      takeWhile_append_of_stops (List.all_eq_true.mp hall) (stops_cons.mpr (by simp))
    rw [hscan, scanQuoted, List.append_assoc, List.singleton_append, hcontent]
    simp
  · cases h

/-- No symbol has a blank for its second sign. -/
theorem double?_of_isBlank {c d : Char} (h : isBlank d = true) : Symbol.double? c d = none := by
  unfold Symbol.double?
  split
  case h_9 => rfl
  all_goals exact absurd h (by decide)

/-- A symbol is completed by its second sign, if it has one. -/
theorem exists_completes_symbol {c : Char} {cs : List Char} {token : Token} {more : ℕ}
    (hscan : ∀ rest, scan c rest = scanSymbol c rest)
    (h : scanSymbol c cs = .token token more) :
    ∃ lexeme tail, cs = lexeme ++ tail ∧ lexeme.length = more ∧ Completes c lexeme token := by
  unfold scanSymbol at h
  split at h
  · rename_i sign hdouble
    cases h
    obtain ⟨d, hhead, hd⟩ := Option.bind_eq_some_iff.mp hdouble
    obtain ⟨tail, rfl⟩ := List.head?_eq_some_iff.mp hhead
    refine ⟨[d], tail, rfl, rfl, fun rest _ => ?_⟩
    rw [hscan, scanSymbol, List.singleton_append, List.head?_cons, Option.bind_some, hd]
    rfl
  · split at h
    · rename_i sign hsingle
      cases h
      refine ⟨[], cs, rfl, rfl, fun rest hrest => ?_⟩
      have hnone : rest.head?.bind (Symbol.double? c) = none := by
        rcases hhead : rest.head? with _ | d
        · rfl
        · exact double?_of_isBlank (by simpa using hrest d hhead)
      rw [hscan, scanSymbol, List.nil_append, hnone, hsingle]
      rfl
    · cases h

/-- A word is completed by its further characters. -/
theorem exists_completes_word {c : Char} {cs : List Char} {token : Token} {more : ℕ}
    (hscan : ∀ rest, scan c rest = .token (ofWord (String.ofList (c :: rest.takeWhile isWordChar)))
      (rest.takeWhile isWordChar).length)
    (h : scan c cs = .token token more) :
    ∃ lexeme tail, cs = lexeme ++ tail ∧ lexeme.length = more ∧ Completes c lexeme token := by
  rw [hscan] at h
  cases h
  refine ⟨cs.takeWhile isWordChar, cs.dropWhile isWordChar, List.takeWhile_append_dropWhile.symm,
    rfl, fun rest hrest => ?_⟩
  have hstops : Stops isWordChar rest :=
    hrest.stops_goesOn.mono fun c => Numeral.goesOn_of_isWordChar
  rw [hscan, takeWhile_append_of_stops (fun c => List.mem_takeWhile_imp) hstops]

/-- A point that does not start a number is complete, and so it is if it is set off. -/
theorem completes_point {cs : List Char} {token : Token} {more : ℕ}
    (hstart : startsNumber '.' cs = false) (h : scan '.' cs = .token token more) :
    more = 0 ∧ Completes '.' [] token := by
  have hscan : ∀ rest, startsNumber '.' rest = false → scan '.' rest = .token .dot 0 :=
    fun _ hrest => (if_neg (Bool.not_eq_true _ ▸ hrest)).trans rfl
  rw [hscan cs hstart] at h
  cases h
  refine ⟨rfl, fun rest hrest => hscan _ ?_⟩
  by_contra hnumber
  have hpoint : startsNumber '.' ([] ++ rest) = true := by simpa using hnumber
  have hempty := startsNumber_append hpoint hrest.stops_goesOn []
  cases hempty

/-- **Tokens.** Every token is completed by the characters that were read with it. -/
theorem exists_completes {c : Char} {cs : List Char} {token : Token} {more : ℕ}
    (h : scan c cs = .token token more) :
    ∃ lexeme tail, cs = lexeme ++ tail ∧ lexeme.length = more ∧ Completes c lexeme token := by
  by_cases hstart : startsNumber c cs = true
  · exact exists_completes_number hstart h
  by_cases hpoint : c = '.'
  · subst hpoint
    obtain ⟨rfl, hcompletes⟩ := completes_point (Bool.not_eq_true _ ▸ hstart) h
    exact ⟨[], cs, rfl, rfl, hcompletes⟩
  -- From here on the first character alone decides what is read.
  have hrest : ∀ rest, ¬startsNumber c rest = true := by
    simp_all [startsNumber]
  by_cases hword : isWordStart c = true
  · exact exists_completes_word (fun rest => (if_neg (hrest rest)).trans (if_pos hword)) h
  by_cases hquote : (c = '\x27' || c = '\x22') = true
  · have hscan : ∀ rest, scan c rest = scanQuoted c rest := fun rest =>
      (if_neg (hrest rest)).trans ((if_neg hword).trans (if_pos hquote))
    exact exists_completes_quoted hscan (hscan cs ▸ h)
  by_cases hbracket : c = '(' ∨ c = ')' ∨ c = ','
  · have hfixed : ∀ rest, scan c rest = scan c cs := by
      intro rest
      rcases hbracket with rfl | rfl | rfl <;> rfl
    have hmore : more = 0 := by
      rcases hbracket with rfl | rfl | rfl <;> cases h <;> rfl
    subst hmore
    exact ⟨[], cs, rfl, rfl, fun rest _ => (hfixed _).trans h⟩
  obtain ⟨hleft, hright, hcomma⟩ : c ≠ '(' ∧ c ≠ ')' ∧ c ≠ ',' := by simpa using hbracket
  have hscan : ∀ rest, scan c rest =
      if 128 ≤ c.toNat then .mistake .nonAscii 1 else scanSymbol c rest := by
    intro rest
    refine (if_neg (hrest rest)).trans ((if_neg hword).trans ((if_neg hquote).trans ?_))
    rw [if_neg hleft, if_neg hright, if_neg hcomma, if_neg hpoint]
  by_cases hascii : 128 ≤ c.toNat
  · rw [hscan, if_pos hascii] at h
    cases h
  · have hsymbol : ∀ rest, scan c rest = scanSymbol c rest := fun rest =>
      (hscan rest).trans (if_neg hascii)
    exact exists_completes_symbol hsymbol (hsymbol cs ▸ h)

/-! ## Texts -/

/-- The characters of a token, from the first one on, which is no blank. -/
def IsLexeme (token : Token) (lexeme : List Char) : Prop :=
  ∃ c more, lexeme = c :: more ∧ isBlank c = false ∧ Completes c more token

/-- Characters belong to a token if the token is read from them and takes them all. -/
theorem isLexeme_cons_iff {token : Token} {c : Char} {more : List Char} :
    IsLexeme token (c :: more) ↔ isBlank c = false ∧ scan c more = .token token more.length := by
  constructor
  · rintro ⟨_, _, hcons, hblank, hcompletes⟩
    obtain ⟨rfl, rfl⟩ := List.cons.inj hcons
    refine ⟨hblank, ?_⟩
    simpa using hcompletes [] stops_nil
  · rintro ⟨hblank, hscan⟩
    obtain ⟨lexeme, tail, rfl, hlength, hcompletes⟩ := exists_completes hscan
    obtain rfl : tail = [] := by simpa using hlength
    rw [List.append_nil]
    exact ⟨c, lexeme, rfl, hblank, hcompletes⟩

/-- How a text that starts at a byte divides into tokens and blanks: every token has its characters,
which its span covers, and between the tokens there are blanks only. -/
inductive Divides : ℕ → List Char → List (Located Token) → Prop
  | blanks {position : ℕ} (gap : List Char) (hgap : ∀ c ∈ gap, isBlank c = true) :
      Divides position gap []
  | token {position : ℕ} (gap : List Char) {lexeme rest : List Char} {token : Token}
      {tokens : List (Located Token)} (hgap : ∀ c ∈ gap, isBlank c = true)
      (hlexeme : IsLexeme token lexeme)
      (hrest : Divides (position + byteLength gap + byteLength lexeme) rest tokens) :
      Divides position (gap ++ (lexeme ++ rest))
        (⟨token, ⟨position + byteLength gap, position + byteLength gap + byteLength lexeme⟩⟩ ::
          tokens)

/-- Blanks are one byte long. -/
theorem utf8Size_of_isBlank {c : Char} (h : isBlank c = true) : c.utf8Size = 1 := by
  rcases isBlank_iff.mp h with rfl | rfl | rfl | rfl | rfl <;> rfl

/-- A blank in front belongs to the blanks in front. -/
theorem Divides.cons_blank {position : ℕ} {c : Char} {cs : List Char}
    {tokens : List (Located Token)} (hc : isBlank c = true) (h : Divides (position + 1) cs tokens) :
    Divides position (c :: cs) tokens := by
  cases h with
  | blanks gap hgap => exact .blanks _ (List.forall_mem_cons.mpr ⟨hc, hgap⟩)
  | token gap hgap hlexeme hrest =>
      have hposition : position + byteLength (c :: gap) = position + 1 + byteLength gap := by
        rw [byteLength_cons, utf8Size_of_isBlank hc, Nat.add_assoc]
      rw [← hposition] at hrest ⊢
      exact .token (c :: gap) (List.forall_mem_cons.mpr ⟨hc, hgap⟩) hlexeme hrest

/-- **Texts.** What is read divides into the tokens that are read. -/
theorem divides_of_allFrom {position covered : ℕ} {cs : List Char} {tokens : List (Located Token)}
    (h : allFrom position covered cs = .ok tokens) :
    Divides (position + byteLength (cs.take covered)) (cs.drop covered) tokens := by
  fun_induction allFrom position covered cs generalizing tokens with
  | case1 =>
      cases h
      simpa using Divides.blanks [] (List.forall_mem_nil _)
  | case2 position covered c rest ih =>
      simpa [Nat.add_assoc] using ih h
  | case3 position c rest hblank ih =>
      simpa using (ih h).cons_blank hblank
  | case4 => cases h
  | case5 position c rest hblank token more hscan tokens hrest width =>
      rename_i ih
      cases h
      obtain ⟨lexeme, tail, rfl, rfl, hcompletes⟩ := exists_completes hscan
      have hlexeme : IsLexeme token (c :: lexeme) :=
        ⟨c, lexeme, rfl, by simpa using hblank, hcompletes⟩
      have hdivides := ih hrest
      rw [List.take_left, List.drop_left, Nat.add_assoc] at hdivides
      simp only [width, List.take_left]
      exact .token [] (List.forall_mem_nil _) hlexeme hdivides
  | case6 => cases h

/-- The tokens of a text divide it. -/
theorem divides_of_all {source : List Char} {tokens : List (Located Token)}
    (h : all source = .ok tokens) : Divides 0 source tokens := by
  simpa using divides_of_allFrom h

/-- The span of a part of a text covers that part. -/
theorem fragmentChars_append (before lexeme rest : List Char) :
    (Span.mk (byteLength before) (byteLength before + byteLength lexeme)).fragmentChars
      (before ++ (lexeme ++ rest)) = lexeme := by
  have hstop : min (byteLength before + byteLength lexeme)
      (byteLength (before ++ (lexeme ++ rest))) = byteLength before + byteLength lexeme := by
    simp
  have hstart : min (byteLength before) (byteLength before + byteLength lexeme) =
      byteLength before := by
    simp
  rw [Span.fragmentChars, hstop, hstart, dropBytes_byteLength, Nat.add_sub_cancel_left,
    Option.bind_some, takeBytes_byteLength, Option.getD_some]

/-- The characters that the spans of tokens cover. -/
def lexemes (source : List Char) (tokens : List (Located Token)) : List (List Char) :=
  tokens.map fun t => t.span.fragmentChars source

/-- The span of the first token covers its characters. -/
theorem lexemes_cons (before gap lexeme rest : List Char) (token : Token)
    (tokens : List (Located Token)) :
    lexemes (before ++ (gap ++ (lexeme ++ rest)))
        (⟨token, ⟨byteLength before + byteLength gap,
          byteLength before + byteLength gap + byteLength lexeme⟩⟩ :: tokens) =
      lexeme :: lexemes (before ++ gap ++ lexeme ++ rest) tokens := by
  have hspan := fragmentChars_append (before ++ gap) lexeme rest
  rw [byteLength_append] at hspan
  simp only [List.append_assoc] at hspan ⊢
  rw [lexemes, List.map_cons, hspan, lexemes]

/-- The spans of tokens cover their characters. -/
theorem Divides.forall₂_isLexeme {position : ℕ} {cs : List Char} {tokens : List (Located Token)}
    (h : Divides position cs tokens) (before : List Char) (hbefore : byteLength before = position) :
    List.Forall₂ IsLexeme (Parser.values tokens) (lexemes (before ++ cs) tokens) := by
  induction h generalizing before with
  | blanks => exact .nil
  | @token position gap lexeme rest token tokens hgap hlexeme hrest ih =>
      subst hbefore
      rw [lexemes_cons]
      exact .cons hlexeme (ih _ (by simp [Nat.add_assoc]))

end Token

end Elementwise
