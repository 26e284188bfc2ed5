import Elementwise.Proofs.Cursor

/-!
# Reading loses nothing

A text that is read divides into tokens and blanks. `Token.Lossless` says what this means for the
bytes of the text: spans follow one another, whatever they leave out is blank, and the bytes of a
span on their own are read as the token they belong to. Each field comes from one lemma on
`Token.Divides`.

`Token.all_lossless` adds what holds of all texts. Reading ends, with no more tokens than there are
bytes, and cuts the text between characters only.
-/

namespace Elementwise

/-! ## Bytes -/

namespace Text

/-- The bytes of a text in UTF-8. -/
def bytes (cs : List Char) : List UInt8 :=
  cs.flatMap String.utf8EncodeChar

/-- The bytes of characters side by side. -/
theorem bytes_append (cs ds : List Char) : bytes (cs ++ ds) = bytes cs ++ bytes ds :=
  List.flatMap_append

/-- Characters have as many bytes as their length says. -/
theorem length_bytes (cs : List Char) : (bytes cs).length = byteLength cs := by
  induction cs with
  | nil => rfl
  | cons c cs ih =>
      rw [bytes, List.flatMap_cons, ← bytes, List.length_append, String.length_utf8EncodeChar, ih,
        byteLength_cons]

/-- The bytes of a text are those of its characters. -/
theorem data_toByteArray (text : String) : text.toByteArray.data = (bytes text.toList).toArray := by
  conv_lhs => rw [← String.ofList_toList (s := text), String.toByteArray_ofList]
  exact List.data_toByteArray

/-- Only the empty text has no bytes. -/
theorem eq_nil_of_byteLength {cs : List Char} (h : byteLength cs = 0) : cs = [] := by
  cases cs with
  | nil => rfl
  | cons c cs =>
      have hpos := c.utf8Size_pos
      rw [byteLength_cons] at h
      omega

/-- The length of a text in bytes is the size that its string has. -/
theorem utf8ByteSize_eq (text : String) : text.utf8ByteSize = byteLength text.toList := by
  rw [← length_bytes, ← List.size_toArray, ← data_toByteArray]
  rfl

/-- A byte of a text is found among those of its characters. -/
theorem getElem_toByteArray {text : String} {i : ℕ} (h : i < text.utf8ByteSize) :
    (bytes text.toList)[i]? = some (text.toByteArray[i]) := by
  rw [ByteArray.getElem_eq_getElem_data, ← Array.getElem?_eq_getElem, data_toByteArray,
    List.getElem?_toArray]

/-- A text can be cut where a beginning of it ends. -/
theorem isValid_of_append {text : String} {before after : List Char}
    (h : text.toList = before ++ after) : String.Pos.Raw.IsValid text ⟨byteLength before⟩ := by
  refine String.Pos.Raw.isValid_iff_exists_append.mpr
    ⟨String.ofList before, String.ofList after, ?_, ?_⟩
  · rw [← String.ofList_append, ← h, String.ofList_toList]
  · rw [String.rawEndPos, utf8ByteSize_eq, String.toList_ofList]

/-- The bytes of a part of a text are bytes of the text. -/
theorem extract_toByteArray {text : String} {before part after : List Char}
    (h : text.toList = before ++ (part ++ after)) :
    text.toByteArray.extract (byteLength before) (byteLength before + byteLength part) =
      (String.ofList part).toByteArray := by
  have htext : text = String.ofList before ++ (String.ofList part ++ String.ofList after) := by
    rw [← String.ofList_append, ← String.ofList_append, ← h, String.ofList_toList]
  have hsize (cs : List Char) : byteLength cs = (String.ofList cs).toByteArray.size := by
    rw [String.size_toByteArray, utf8ByteSize_eq, String.toList_ofList]
  rw [htext, String.toByteArray_append, String.toByteArray_append,
    ← Nat.add_zero (byteLength before), Nat.add_assoc, Nat.zero_add,
    ByteArray.extract_append_size_add' (hsize before),
    ByteArray.extract_append_eq_left (hsize part)]

/-- The bytes of blanks: space, tab, line feed, form feed and carriage return. -/
def blankBytes : List UInt8 :=
  [0x20, 0x09, 0x0a, 0x0c, 0x0d]

/-- The bytes of a gap are those of blanks. -/
theorem mem_blankBytes {gap : List Char} (hgap : ∀ c ∈ gap, isBlank c = true) {b : UInt8}
    (hb : b ∈ bytes gap) : b ∈ blankBytes := by
  obtain ⟨c, hc, hb⟩ := List.mem_flatMap.mp hb
  rcases isBlank_iff.mp (hgap c hc) with rfl | rfl | rfl | rfl | rfl
  all_goals
    rw [List.mem_singleton.mp hb]
    decide

/-- The bytes of ASCII characters that are no white space are not blank. -/
theorem not_mem_blankBytes {lexeme : List Char}
    (hlexeme : ∀ c ∈ lexeme, c.toNat < 128 ∧ isSpace c = false) {b : UInt8}
    (hb : b ∈ bytes lexeme) :
    b ∉ blankBytes := by
  obtain ⟨c, hc, hb⟩ := List.mem_flatMap.mp hb
  obtain ⟨hascii, hspace⟩ := hlexeme c hc
  rw [String.utf8EncodeChar_eq_singleton (utf8Size_of_ascii hascii), List.mem_singleton] at hb
  have hnat : b.toNat = c.toNat := by
    rw [hb, UInt32.toNat_toUInt8, Char.toNat_val]
    omega
  intro hmem
  have hrange : c.toNat = 32 ∨ 9 ≤ c.toNat ∧ c.toNat ≤ 13 := by
    rw [← hnat]
    simp only [blankBytes, List.mem_cons, List.not_mem_nil, or_false] at hmem
    rcases hmem with rfl | rfl | rfl | rfl | rfl <;> decide
  simp only [isSpace, Bool.or_eq_false_iff, Bool.and_eq_false_iff, decide_eq_false_iff_not,
    beq_eq_false_iff_ne] at hspace
  omega

end Text

/-- A span covers a byte. -/
def Span.Covers (s : Span) (i : ℕ) : Prop :=
  s.start ≤ i ∧ i < s.stop

namespace Token

open Text

/-! ## Tokens in their texts -/

/-- The characters of a token on their own are read as the token. -/
theorem IsLexeme.all_eq {token : Token} {lexeme : List Char} (h : IsLexeme token lexeme) :
    all lexeme = .ok [⟨token, ⟨0, byteLength lexeme⟩⟩] := by
  obtain ⟨c, more, rfl, hblank, hcompletes⟩ := h
  have hstep : (Cursor.mk 0 (c :: (more ++ []))).Advances
      [⟨token, ⟨0, 0 + byteLength (c :: more)⟩⟩] ⟨0 + byteLength (c :: more), []⟩ :=
    .token hblank (hcompletes [] stops_nil)
  have hread := hstep.read_eq
  rw [List.append_nil, Nat.zero_add] at hread
  exact hread

/-- A token has at least one byte. -/
theorem IsLexeme.byteLength_pos {token : Token} {lexeme : List Char} (h : IsLexeme token lexeme) :
    0 < byteLength lexeme := by
  obtain ⟨c, more, rfl, -⟩ := h
  exact Nat.add_pos_left c.utf8Size_pos _

namespace Divides

variable {position : ℕ} {cs : List Char} {tokens : List (Located Token)}

/-- Every token stands in the text with its characters, which its span covers. -/
theorem exists_lexeme (h : Divides position cs tokens) {t : Located Token} (ht : t ∈ tokens) :
    ∃ before lexeme after, cs = before ++ (lexeme ++ after) ∧ IsLexeme t.value lexeme ∧
      t.span =
        ⟨position + byteLength before, position + byteLength before + byteLength lexeme⟩ := by
  induction h with
  | blanks => cases ht
  | @token position gap lexeme rest token tokens hgap hlexeme hrest ih =>
      rcases List.mem_cons.mp ht with rfl | ht
      · exact ⟨gap, lexeme, rest, rfl, hlexeme, rfl⟩
      · obtain ⟨before, found, after, rfl, hfound, hspan⟩ := ih ht
        refine ⟨gap ++ (lexeme ++ before), found, after, by simp, hfound, ?_⟩
        rw [hspan, byteLength_append, byteLength_append]
        simp only [Nat.add_assoc]

/-- No token starts before the text. -/
theorem position_le_start (h : Divides position cs tokens) {t : Located Token} (ht : t ∈ tokens) :
    position ≤ t.span.start := by
  obtain ⟨before, lexeme, after, -, -, hspan⟩ := h.exists_lexeme ht
  rw [hspan]
  exact Nat.le_add_right _ _

/-- Spans stand one behind the other. -/
theorem ordered (h : Divides position cs tokens) :
    tokens.Pairwise fun t u => t.span.start < u.span.start ∧ t.span.stop ≤ u.span.start := by
  induction h with
  | blanks => exact .nil
  | token gap hgap hlexeme hrest ih =>
      refine .cons (fun u hu => ?_) ih
      have hstart := hrest.position_le_start hu
      have hpos := hlexeme.byteLength_pos
      dsimp only
      omega

/-- The bytes that no span covers are the blank ones outside quoted texts. -/
theorem blank_iff (h : Divides position cs tokens) {i : ℕ} {b : UInt8}
    (hb : (bytes cs)[i]? = some b) :
    (∀ t ∈ tokens, ¬t.span.Covers (position + i)) ↔
      b ∈ blankBytes ∧
        ∀ t ∈ tokens, t.span.Covers (position + i) → ∀ content, t.value ≠ .quoted content := by
  induction h generalizing i with
  | blanks gap hgap =>
      have hblank := mem_blankBytes hgap (List.mem_of_getElem? hb)
      simp [hblank]
  | @token position gap lexeme rest token tokens hgap hlexeme hrest ih =>
      have hfirst : (Span.mk (position + byteLength gap)
          (position + byteLength gap + byteLength lexeme)).Covers (position + i) ↔
            byteLength gap ≤ i ∧ i < byteLength gap + byteLength lexeme := by
        simp only [Span.Covers]
        omega
      rw [bytes_append, bytes_append] at hb
      rw [List.forall_mem_cons, List.forall_mem_cons, hfirst]
      rcases Nat.lt_or_ge i (byteLength gap) with hi | hi
      · -- The byte stands before all tokens.
        rw [List.getElem?_append_left (by rwa [length_bytes])] at hb
        have hblank := mem_blankBytes hgap (List.mem_of_getElem? hb)
        have hothers : ∀ t ∈ tokens, ¬t.span.Covers (position + i) := by
          intro t ht hcovers
          have hstart := Nat.le_trans (hrest.position_le_start ht) hcovers.1
          omega
        exact iff_of_true ⟨fun h => absurd h.1 (Nat.not_le.mpr hi), hothers⟩
          ⟨hblank, fun h => absurd h.1 (Nat.not_le.mpr hi),
            fun t ht hcovers => absurd hcovers (hothers t ht)⟩
      rw [List.getElem?_append_right (by rwa [length_bytes]), length_bytes] at hb
      rcases Nat.lt_or_ge (i - byteLength gap) (byteLength lexeme) with hin | hbehind
      · -- The byte belongs to the first token, which has no blank byte unless it is quoted.
        rw [List.getElem?_append_left (by rwa [length_bytes])] at hb
        have hcovers : byteLength gap ≤ i ∧ i < byteLength gap + byteLength lexeme := by omega
        refine iff_of_false (fun hnone => hnone.1 hcovers) ?_
        rintro ⟨hblank, hplain, -⟩
        exact not_mem_blankBytes (hlexeme.spelled.ascii (hplain hcovers)) (List.mem_of_getElem? hb)
          hblank
      · -- The byte belongs to the rest.
        rw [List.getElem?_append_right (by rwa [length_bytes]), length_bytes] at hb
        have hposition : position + byteLength gap + byteLength lexeme +
            (i - byteLength gap - byteLength lexeme) = position + i := by omega
        have hothers := ih hb
        rw [hposition] at hothers
        have hbefore : ¬(byteLength gap ≤ i ∧ i < byteLength gap + byteLength lexeme) := by omega
        rw [hothers]
        simp only [hbefore, not_false_eq_true, true_and, false_implies]

end Divides

/-- **Lexemes.** A text is read as one token that covers all of it exactly if it has the characters
of that token. -/
theorem all_eq_singleton_iff {token : Token} {source : List Char} :
    all source = .ok [⟨token, ⟨0, byteLength source⟩⟩] ↔ IsLexeme token source := by
  constructor
  · intro h
    obtain ⟨before, lexeme, after, rfl, hlexeme, hspan⟩ :=
      (divides_of_all h).exists_lexeme (List.mem_singleton_self _)
    rw [Span.mk.injEq, byteLength_append, byteLength_append] at hspan
    obtain rfl : before = [] := eq_nil_of_byteLength (by omega)
    obtain rfl : after = [] := eq_nil_of_byteLength (by omega)
    simpa using hlexeme
  · exact IsLexeme.all_eq

/-! ## Lossless reading -/

/-- The tokens account for every byte of the text. -/
structure Lossless (text : String) (tokens : List (Located Token)) : Prop where
  /-- Spans are not empty and lie within the text. -/
  within : ∀ t ∈ tokens, t.span.start < t.span.stop ∧ t.span.stop ≤ text.utf8ByteSize
  /-- Each span starts behind the start, and not before the end, of those before it. -/
  ordered : tokens.Pairwise fun t u => t.span.start < u.span.start ∧ t.span.stop ≤ u.span.start
  /-- The bytes outside all spans are the blank ones, but for those in quoted texts. -/
  blank_iff : ∀ i (h : i < text.utf8ByteSize),
    (∀ t ∈ tokens, ¬t.span.Covers i) ↔
      text.toByteArray[i] ∈ blankBytes ∧
        ∀ t ∈ tokens, t.span.Covers i → ∀ content, t.value ≠ .quoted content
  /-- The part of the text at a span consists of the bytes that the span covers. -/
  bytes_eq : ∀ t ∈ tokens,
    (t.span.fragment text).toByteArray = text.toByteArray.extract t.span.start t.span.stop
  /-- On its own that part is read as the one token. -/
  alone : ∀ t ∈ tokens,
    all (t.span.fragment text).toList = .ok [⟨t.value, ⟨0, t.span.stop - t.span.start⟩⟩]

/-- A text that divides into tokens and blanks has lost nothing. -/
theorem Divides.lossless {text : String} {tokens : List (Located Token)}
    (h : Divides 0 text.toList tokens) : Lossless text tokens where
  within t ht := by
    obtain ⟨before, lexeme, after, hcs, hlexeme, hspan⟩ := h.exists_lexeme ht
    have hpos := hlexeme.byteLength_pos
    rw [utf8ByteSize_eq, hcs, hspan, byteLength_append, byteLength_append]
    dsimp only
    omega
  ordered := h.ordered
  blank_iff i hi := by
    have hiff := h.blank_iff (getElem_toByteArray hi)
    rwa [Nat.zero_add] at hiff
  bytes_eq t ht := by
    obtain ⟨before, lexeme, after, hcs, -, hspan⟩ := h.exists_lexeme ht
    rw [Nat.zero_add] at hspan
    rw [hspan, Span.fragment, hcs, fragmentChars_append]
    exact (extract_toByteArray hcs).symm
  alone t ht := by
    obtain ⟨before, lexeme, after, hcs, hlexeme, hspan⟩ := h.exists_lexeme ht
    rw [Nat.zero_add] at hspan
    rw [hspan, Span.fragment, hcs, fragmentChars_append, String.toList_ofList, hlexeme.all_eq,
      Nat.add_sub_cancel_left]

/-- **Reading loses nothing.** The tokens of a text that is read account for all its bytes.

Reading a text, whatever it holds, gets step by step to the end or to a mistake. At no step are
there more tokens than the bytes passed over so far, and the places at which a step cuts the text
are ends of characters. -/
theorem all_lossless (text : String) :
    (∀ tokens, all text.toList = .ok tokens → Lossless text tokens) ∧
    (∃ tokens a, (Cursor.mk 0 text.toList).Reaches tokens a ∧
      (a.rest = [] ∧ all text.toList = .ok tokens ∨
        ∃ m, a.Stuck m ∧ all text.toList = .error m)) ∧
    ∀ tokens a, (Cursor.mk 0 text.toList).Reaches tokens a →
      tokens.length ≤ a.position ∧ a.position ≤ text.utf8ByteSize ∧
      String.Pos.Raw.IsValid text ⟨a.position⟩ ∧
      ∀ c rest, a.rest = c :: rest → ∀ offset, IsCut c rest offset →
        String.Pos.Raw.IsValid text ⟨a.position + offset⟩ := by
  refine ⟨fun tokens h => (divides_of_all h).lossless, Cursor.exists_reaches _, ?_⟩
  intro tokens a h
  obtain ⟨passed, hpassed, hposition, hlength⟩ := h.exists_passed
  rw [Nat.zero_add] at hposition
  refine ⟨hposition ▸ hlength, ?_, hposition ▸ isValid_of_append hpassed, ?_⟩
  · have htext : text.toList = passed ++ a.rest := hpassed
    rw [utf8ByteSize_eq, htext, byteLength_append, hposition]
    exact Nat.le_add_right _ _
  · intro c rest hrest offset hcut
    obtain ⟨before, after, hsplit, rfl⟩ := exists_split_of_isCut hcut
    have htext : text.toList = passed ++ before ++ after := by
      rw [List.append_assoc, ← hsplit, ← hrest]
      exact hpassed
    rw [hposition, ← byteLength_append]
    exact isValid_of_append htext

/-- A text with a quoted part that is not ASCII has three tokens, and the one blank in quotes is no
gap. In a text whose quote has no end, the cut behind its two-byte character is the end of that. -/
theorem all_lossless_quoted :
    Lossless "a ** 'é b'"
        [⟨.name "a", ⟨0, 1⟩⟩, ⟨.symbol .doubleStar, ⟨2, 4⟩⟩, ⟨.quoted "é b", ⟨5, 11⟩⟩] ∧
      String.Pos.Raw.IsValid "x 'é" ⟨2 + 3⟩ := by
  refine ⟨(all_lossless _).1 _ (by rfl), ?_⟩
  have hreaches : (Cursor.mk 0 "x 'é".toList).Reaches [⟨.name "x", ⟨0, 1⟩⟩] ⟨2, ['\x27', 'é']⟩ :=
    .step (@Cursor.Advances.token 0 'x' [] _ _ rfl rfl) (.step (.blank rfl) (.refl _))
  have hcut : IsCut '\x27' ['é'] 3 := by
    show 3 ∈ [0, 1, 3]
    decide
  exact ((all_lossless _).2.2 _ _ hreaches).2.2.2 _ _ rfl 3 hcut

end Token

end Elementwise
