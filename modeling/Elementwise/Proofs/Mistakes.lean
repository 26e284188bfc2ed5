import Elementwise.Proofs.Lossless

/-!
# Errors point at what they are about

An error of reading carries a span. `Span.Marks` says that a span covers some characters of a text;
such a span lies within the text, and its fragment has the bytes that it covers.

* A mistake in a token covers what was taken for the token, but for a character that is not ASCII,
  of which it covers one byte (`Token.marks_of_all`).
* A mistake in the grammar is about a token or about the end of the text (`Parser.Blames`). The
  parsers are followed one by one: each blames its own tokens, or what is left of them
  (`Parser.whole_part_blames`).
* The end of the text is its last character that is no white space, which belongs to the last token
  and is ASCII (`Token.Divides.marks_finish`).
-/

namespace Elementwise

open Text

/-! ## Marked parts of a text -/

/-- A span marks some characters of a text, at least one. -/
def Span.Marks (span : Span) (source : List Char) : Prop :=
  ∃ before part after, source = before ++ (part ++ after) ∧ part ≠ [] ∧
    span = ⟨byteLength before, byteLength before + byteLength part⟩

namespace Span.Marks

variable {span : Span}

/-- What is marked is not empty and lies in the text. -/
theorem within {source : List Char} (h : span.Marks source) :
    span.start < span.stop ∧ span.stop ≤ byteLength source := by
  obtain ⟨before, part, after, rfl, hne, rfl⟩ := h
  have hpos : byteLength part ≠ 0 := fun hzero => hne (eq_nil_of_byteLength hzero)
  rw [byteLength_append, byteLength_append]
  dsimp only
  omega

/-- What a span quotes has the bytes that it covers. -/
theorem toByteArray_fragmentChars {text : String} (h : span.Marks text.toList) :
    (String.ofList (span.fragmentChars text.toList)).toByteArray =
      text.toByteArray.extract span.start span.stop := by
  obtain ⟨before, part, after, htext, -, rfl⟩ := h
  rw [extract_toByteArray htext, htext, Token.fragmentChars_append]

end Span.Marks

/-- A character that is not ASCII has several bytes. -/
theorem Text.one_lt_utf8Size {c : Char} (h : 128 ≤ c.toNat) : 1 < c.utf8Size := by
  have hne : c.utf8Size ≠ 1 := by
    intro hone
    have hle := UInt32.le_iff_toNat_le.mp (Char.utf8Size_eq_one_iff.mp hone)
    exact absurd (Nat.le_trans h hle) (by decide)
  have hpos := c.utf8Size_pos
  omega

/-- A span covers the first byte of a character of several bytes. -/
def Span.Splits (span : Span) (source : List Char) : Prop :=
  ∃ before c after, source = before ++ c :: after ∧ 1 < c.utf8Size ∧
    span = .single (byteLength before)

namespace Span.Splits

variable {span : Span} {source : List Char}

/-- The first byte of a character lies in the text. -/
theorem within (h : span.Splits source) :
    span.start < span.stop ∧ span.stop ≤ byteLength source := by
  obtain ⟨before, c, after, rfl, hc, rfl⟩ := h
  rw [byteLength_append, byteLength_cons]
  dsimp only [Span.single]
  omega

/-- Part of a character is no text. -/
theorem fragmentChars_eq_nil (h : span.Splits source) : span.fragmentChars source = [] := by
  obtain ⟨before, c, after, rfl, hc, rfl⟩ := h
  have hstop : min (byteLength before + 1) (byteLength (before ++ c :: after)) =
      byteLength before + 1 := by
    rw [byteLength_append, byteLength_cons]
    omega
  have hstart : min (byteLength before) (byteLength before + 1) = byteLength before := by
    simp
  rw [fragmentChars, single, hstop, hstart, dropBytes_byteLength, Nat.add_sub_cancel_left,
    Option.bind_some, takeBytes, if_neg (Nat.not_le.mpr hc), Option.getD_none]

end Span.Splits

/-! ## Tokens and the end of the text -/

namespace Token

/-- A token ends with an ASCII character that is no white space. -/
theorem IsLexeme.exists_last {token : Token} {lexeme : List Char} (h : IsLexeme token lexeme) :
    ∃ front last, lexeme = front ++ [last] ∧ last.toNat < 128 ∧ isSpace last = false := by
  by_cases hquoted : ∃ content, token = .quoted content
  · obtain ⟨content, rfl⟩ := hquoted
    obtain ⟨quote, hquote, rfl⟩ := h.spelled
    refine ⟨quote :: content.toList, quote, rfl, ?_⟩
    rcases hquote with rfl | rfl <;> decide
  · have hascii := h.spelled.ascii fun content htoken => hquoted ⟨content, htoken⟩
    obtain ⟨c, more, rfl, -⟩ := h
    exact ⟨(c :: more).dropLast, (c :: more).getLast (List.cons_ne_nil _ _),
      (List.dropLast_append_getLast _).symm, hascii _ (List.getLast_mem _)⟩

namespace Divides

variable {position : ℕ} {cs : List Char} {tokens : List (Located Token)}

/-- Behind the last character of the last token there are only blanks. -/
theorem exists_last (h : Divides position cs tokens) (hne : tokens ≠ []) :
    ∃ front last gap, cs = front ++ last :: gap ∧ last.toNat < 128 ∧ isSpace last = false ∧
      ∀ c ∈ gap, isBlank c = true := by
  induction h with
  | blanks => exact absurd rfl hne
  | @token position gap lexeme rest token tokens hgap hlexeme hrest ih =>
      -- Either this token is the last one, or the last one is among those behind it.
      cases hrest with
      | blanks rest hblank =>
          obtain ⟨front, last, rfl, hascii, hspace⟩ := hlexeme.exists_last
          exact ⟨gap ++ front, last, rest, by simp, hascii, hspace, hblank⟩
      | token next hnext hfound hothers =>
          obtain ⟨front, last, blanks, hcs, hlast⟩ := ih (List.cons_ne_nil _ _)
          rw [hcs]
          exact ⟨gap ++ (lexeme ++ front), last, blanks, by simp, hlast⟩

/-- A token marks its characters. -/
theorem marks (h : Divides 0 cs tokens) {t : Located Token} (ht : t ∈ tokens) :
    t.span.Marks cs := by
  obtain ⟨before, lexeme, after, hcs, hlexeme, hspan⟩ := h.exists_lexeme ht
  obtain ⟨c, more, hcons, -⟩ := hlexeme
  refine ⟨before, lexeme, after, hcs, hcons ▸ List.cons_ne_nil _ _, ?_⟩
  rw [hspan, Nat.zero_add]

/-- The end of the text marks its last character that is no white space. -/
theorem marks_finish (h : Divides position cs tokens) (hne : tokens ≠ []) :
    (Equation.finish cs).Marks cs := by
  obtain ⟨front, last, gap, rfl, hascii, hspace, hgap⟩ := h.exists_last hne
  have htrim : trimEnd (front ++ last :: gap) = front ++ [last] := by
    have hreverse : (front ++ last :: gap).reverse = gap.reverse ++ (last :: front.reverse) := by
      simp
    rw [trimEnd, hreverse, dropWhile_append_of_stops
      (fun c hc => isSpace_of_isBlank (hgap c (List.mem_reverse.mp hc))) (stops_cons.mpr hspace)]
    simp
  refine ⟨front, [last], gap, by simp, List.cons_ne_nil _ _, ?_⟩
  rw [Equation.finish, htrim]
  simp [utf8Size_of_ascii hascii]

end Divides

/-! ## Mistakes in tokens -/

/-- A mistake in a token marks characters of the text, unless it is a character that is not ASCII:
then it covers the first byte of several. -/
theorem marks_of_all {source : List Char} {m : Located Mistake} (h : all source = .error m) :
    m.value = .nonAscii ∧ m.span.Splits source ∨ m.value ≠ .nonAscii ∧ m.span.Marks source := by
  obtain ⟨tokens, b, hreaches, hend⟩ := (Cursor.mk 0 source).exists_reaches
  have hread : (Cursor.mk 0 source).read = .error m := h
  rcases hend with ⟨-, hok⟩ | ⟨m', hstuck, herror⟩
  · rw [hread] at hok
    cases hok
  obtain rfl : m = m' := Except.error.inj (hread.symm.trans herror)
  -- Reading got stuck behind the characters that it has passed, so the mistake stands there.
  obtain ⟨passed, hsource, hposition, -⟩ := hreaches.exists_passed
  obtain ⟨c, rest, width, hrest, -, hscan, hspan⟩ := hstuck
  dsimp only at hsource hposition
  rw [Nat.zero_add] at hposition
  rw [hrest] at hsource
  rw [hposition] at hspan
  rcases taken_of_mistake hscan with ⟨hvalue, hc, rfl⟩ | ⟨hvalue, hc, content, after, rfl, rfl⟩ |
    ⟨hvalue, -, hpos, taken, after, hcs, hlength, hascii⟩
  · exact .inl ⟨hvalue, passed, c, rest, hsource, one_lt_utf8Size hc, hspan⟩
  · refine .inr ⟨by simp [hvalue], passed, c :: content, after, hsource, List.cons_ne_nil _ _, ?_⟩
    rw [hspan, byteLength_cons, utf8Size_of_ascii hc]
  · rw [hcs] at hsource
    refine .inr ⟨hvalue, passed, taken, after, hsource, ?_, ?_⟩
    · rintro rfl
      exact absurd hlength (Nat.ne_of_lt hpos)
    · rw [hspan, byteLength_of_ascii hascii, hlength]

end Token

/-! ## Mistakes in the grammar -/

namespace Parser

/-- A mistake is about one of some tokens, or about the end of the text. -/
structure Blames (c : Context) (ts : Tokens) (m : Located Mistake) : Prop where
  value : m.value ≠ .nonAscii
  span : m.span = c.finish ∨ ∃ t ∈ ts, m.span = t.span

variable {c : Context} {ts rest : Tokens} {m : Located Mistake}

/-- A mistake about some tokens is one about more tokens. -/
theorem Blames.mono (h : Blames c rest m) (hsub : rest ⊆ ts) : Blames c ts m := by
  refine ⟨h.value, ?_⟩
  rcases h.span with hspan | ⟨t, ht, hspan⟩
  · exact .inl hspan
  · exact .inr ⟨t, hsub ht, hspan⟩

/-- A token in front makes no difference. -/
theorem Blames.cons (h : Blames c rest m) (t : Located Token) : Blames c (t :: rest) m :=
  h.mono (List.subset_cons_self _ _)

/-- What is wrong at the next token is about it, or about the end of the text. -/
theorem blames_place {what : Mistake} (h : what ≠ .nonAscii) : Blames c ts ⟨what, place c ts⟩ := by
  refine ⟨h, ?_⟩
  cases ts with
  | nil => exact .inl rfl
  | cons t ts => exact .inr ⟨t, List.mem_cons_self, rfl⟩

/-- What is unexpected is the next token, or the end. -/
theorem blames_unexpected (wanted : Wanted) : Blames c ts (unexpected c wanted ts) :=
  blames_place (by simp)

/-- A tree that is too tall is the fault of the token at its root. -/
theorem grow_blames {tree : Expr} {below : ℕ} {t : Located Token}
    (h : grow c tree below t.span = .error m) (ht : t ∈ ts) : Blames c ts m := by
  unfold grow at h
  split_ifs at h
  cases h
  exact ⟨by simp, .inr ⟨t, ht, rfl⟩⟩

/-- A missing parenthesis is blamed on a token or on the end. -/
theorem closing_blames (h : closing c ts = .error m) : Blames c ts m := by
  unfold closing at h
  split at h
  · cases h
  · cases h
    exact blames_unexpected _

/-- What is left behind a closing parenthesis was ahead before. -/
theorem closing_subset (h : closing c ts = .ok rest) : rest ⊆ ts := by
  obtain ⟨span, rfl⟩ := closing_eq_ok h
  exact List.subset_cons_self _ _

/-- What is left after reading are some of the tokens. -/
theorem Reads.subset {level : Grammar.Level} {g : Grown} (h : Reads c level ts g rest) :
    rest ⊆ ts := by
  obtain ⟨w, rfl, -⟩ := h.derives
  exact List.subset_append_right w rest

/-- A parser of whole expressions that blames its tokens. -/
def WholeBlames (c : Context) (whole : ExprParser) : Prop :=
  ∀ ts m, whole ts = .error m → Blames c ts m

/-- A parser of operands that blames its tokens. -/
def PartBlames (c : Context) (part : ℕ → ExprParser) : Prop :=
  ∀ least ts m, part least ts = .error m → Blames c ts m

section Whole

variable {whole : ExprParser} (hreads : WholeReads c whole) (hwhole : WholeBlames c whole)

include hreads hwhole

/-- A mistake in an atom is about a token ahead or about the end. -/
theorem atom_blames (h : atom c whole ts = .error m) : Blames c ts m := by
  unfold atom at h
  split at h
  case h_1 | h_2 | h_3 => cases h
  case h_4 span _ _ =>
      cases h
      exact ⟨by simp, .inr ⟨⟨.leftParen, span⟩, List.mem_cons_self, rfl⟩⟩
  case h_5 span after _ =>
      rcases bind_eq_error_iff.mp h with h | ⟨⟨inner, mid⟩, hinner, h⟩
      · exact (hwhole _ _ h).cons _
      · have hmid := (hreads _ _ _ hinner).subset
        rcases bind_eq_error_iff.mp h with h | ⟨last, -, h⟩
        · exact ((closing_blames h).mono hmid).cons _
        · cases h
  case h_6 =>
      cases h
      exact blames_unexpected _

/-- So is a mistake in arguments, in whatever round. -/
theorem arguments_blames {rounds : ℕ} (h : arguments c whole rounds ts = .error m) :
    Blames c ts m := by
  fun_induction arguments c whole rounds ts with
  | case1 => cases h
  | case2 =>
      cases h
      exact blames_unexpected _
  | case3 rounds ts _ ih =>
      rcases bind_eq_error_iff.mp h with h | ⟨⟨first, after⟩, hfirst, h⟩
      · exact hwhole _ _ h
      · have hafter := (hreads _ _ _ hfirst).subset
        dsimp only at h
        split at h
        · rename_i span more
          rcases bind_eq_error_iff.mp h with h | ⟨_, -, h⟩
          · exact ((ih _ h).cons _).mono hafter
          · cases h
        · cases h
        · cases h
          exact (blames_unexpected _).mono (List.nil_subset _)
        · cases h
          exact (blames_unexpected _).mono hafter

/-- So is a mistake in members and calls, in whatever round. -/
theorem trailers_blames {rounds : ℕ} {operand : Grown}
    (h : trailers c whole rounds operand ts = .error m) : Blames c ts m := by
  fun_induction trailers c whole rounds operand ts with
  | case1 rounds operand dot field fieldSpan after ih =>
      rcases bind_eq_error_iff.mp h with h | ⟨node, -, h⟩
      · exact grow_blames (t := ⟨.dot, dot⟩) h List.mem_cons_self
      · exact ((ih _ h).cons _).cons _
  | case2 =>
      cases h
      exact (blames_unexpected _).cons _
  | case3 rounds operand paren after ih =>
      rcases bind_eq_error_iff.mp h with h | ⟨⟨⟨args, height⟩, mid⟩, hargs, h⟩
      · exact (arguments_blames hreads hwhole h).cons _
      · have hmid : mid ⊆ after := by
          obtain ⟨⟨w, hw, -⟩, -⟩ := arguments_reads hreads hargs
          exact hw ▸ List.subset_append_right w mid
        rcases bind_eq_error_iff.mp h with h | ⟨last, hclose, h⟩
        · exact ((closing_blames h).mono hmid).cons _
        · rcases bind_eq_error_iff.mp h with h | ⟨node, -, h⟩
          · exact grow_blames (t := ⟨.leftParen, paren⟩) h List.mem_cons_self
          · exact (((ih _ _ h).mono (closing_subset hclose)).mono hmid).cons _
  | case4 => cases h

/-- So is a mistake in an operand without an operator in front. -/
theorem plain_blames (h : plain c whole ts = .error m) : Blames c ts m := by
  rcases bind_eq_error_iff.mp h with h | ⟨⟨first, mid⟩, hfirst, h⟩
  · exact atom_blames hreads hwhole h
  · exact (trailers_blames hreads hwhole h).mono (atom_reads hreads hfirst).subset

/-- So is a mistake in any operand. -/
theorem operand_blames {part : ℕ → ExprParser} (hpart : PartBlames c part) {least : ℕ}
    (h : operand c whole part least ts = .error m) : Blames c ts m := by
  unfold operand at h
  dsimp only at h
  split at h
  · rename_i sign span after
    split at h
    · split_ifs at h
      · cases h
        exact blames_unexpected _
      · rcases bind_eq_error_iff.mp h with h | ⟨⟨inner, mid⟩, -, h⟩
        · exact (hpart _ _ _ h).cons _
        · rcases bind_eq_error_iff.mp h with h | ⟨node, -, h⟩
          · exact grow_blames (t := ⟨.symbol sign, span⟩) h List.mem_cons_self
          · cases h
    · exact plain_blames hreads hwhole h
  · exact plain_blames hreads hwhole h

end Whole

/-- Every operator blames itself or what follows it. -/
theorem operators_blames {part : ℕ → ExprParser} (hreads : PartReads c part)
    (hpart : PartBlames c part) {least rounds : ℕ} {left : Grown}
    (h : operators c part least rounds left ts = .error m) : Blames c ts m := by
  fun_induction operators c part least rounds left ts with
  | case1 => cases h
  | case2 rounds left sign span after op hop hlt ih =>
      rcases bind_eq_error_iff.mp h with h | ⟨⟨right, mid⟩, hright, h⟩
      · exact (hpart _ _ _ h).cons _
      · have hmid := (hreads _ _ _ _ hright).1.subset
        dsimp only at h
        split_ifs at h
        · cases h
          exact ⟨by simp, .inr ⟨⟨.symbol sign, span⟩, List.mem_cons_self, rfl⟩⟩
        · rcases bind_eq_error_iff.mp h with h | ⟨node, -, h⟩
          · exact grow_blames (t := ⟨.symbol sign, span⟩) h List.mem_cons_self
          · exact ((ih _ _ h).mono hmid).cons _
  | case3 => cases h
  | case4 => cases h

/-- What the parsers of a nesting blame, if those of one nesting less do. -/
theorem part_succ_blames {room : ℕ} (hwhole : WholeBlames c (whole c room))
    (hpart : PartBlames c (part c room)) : PartBlames c (part c (room + 1)) := by
  obtain ⟨hwholeReads, hpartReads⟩ := whole_part_reads c room
  intro least ts m h
  rw [part] at h
  rcases bind_eq_error_iff.mp h with h | ⟨⟨left, mid⟩, hleft, h⟩
  · exact operand_blames hwholeReads hwhole hpart h
  · exact (operators_blames hpartReads hpart h).mono
      (operand_ready hwholeReads hpartReads hleft).asked.subset

/-- One nesting more keeps this so for whole expressions. -/
theorem whole_succ_blames {room : ℕ} (hwhole : WholeBlames c (whole c room))
    (hpart : PartBlames c (part c room)) : WholeBlames c (whole c (room + 1)) := by
  have hreads := (whole_part_reads c room).2
  intro ts m h
  rw [whole] at h
  rcases bind_eq_error_iff.mp h with h | ⟨⟨body, mid⟩, hbody, h⟩
  · exact hpart _ _ _ h
  · refine Blames.mono ?_ (hreads _ _ _ _ hbody).1.subset
    dsimp only at h
    split at h
    · rename_i span after
      rcases bind_eq_error_iff.mp h with h | ⟨⟨test, behind⟩, htest, h⟩
      · exact (hpart _ _ _ h).cons _
      · have hbehind := (hreads _ _ _ _ htest).1.subset
        dsimp only at h
        split at h
        · rcases bind_eq_error_iff.mp h with h | ⟨⟨alternative, last⟩, -, h⟩
          · exact (((hwhole _ _ h).cons _).mono hbehind).cons _
          · rcases bind_eq_error_iff.mp h with h | ⟨node, -, h⟩
            · exact grow_blames (t := ⟨.keyword "if", span⟩) h List.mem_cons_self
            · cases h
        · cases h
          exact ((blames_unexpected _).mono hbehind).cons _
    · cases h

/-- **The grammar blames tokens.** Whatever the parsers refuse, in whatever room, they refuse for
one of their tokens or for the end of the text. -/
theorem whole_part_blames (c : Context) (room : ℕ) :
    WholeBlames c (whole c room) ∧ PartBlames c (part c room) := by
  induction room with
  | zero =>
      refine ⟨fun ts m h => ?_, fun least ts m h => ?_⟩
      · rw [whole] at h
        cases h
        exact blames_place (by simp)
      · rw [part] at h
        cases h
        exact blames_place (by simp)
  | succ room ih => exact ⟨whole_succ_blames ih.1 ih.2, part_succ_blames ih.1 ih.2⟩

/-- A mistake of the parser is about a token or about the end. -/
theorem parse_blames {finish : Span} (h : parse finish ts = .error m) :
    Blames ⟨finish, maxHeight⟩ ts m := by
  unfold parse at h
  rcases bind_eq_error_iff.mp h with h | ⟨⟨g, rest⟩, hg, h⟩
  · exact (whole_part_blames _ _).1 _ _ h
  · dsimp only at h
    split at h
    · cases h
    · cases h
      exact (blames_unexpected _).mono ((whole_part_reads _ _).1 _ _ _ hg).subset

end Parser

/-! ## Errors -/

namespace Equation

/-- The first illegal character stands where its span says. -/
theorem exists_of_firstIllegal? {position : ℕ} {cs : List Char} {found : Located Char}
    (h : firstIllegal? position cs = some found) :
    ∃ before after, cs = before ++ found.value :: after ∧ found.value ∈ illegalCharacters ∧
      found.span = .single (position + byteLength before) := by
  induction cs generalizing position with
  | nil => cases h
  | cons c cs ih =>
      rw [firstIllegal?] at h
      split_ifs at h with hc
      · cases h
        exact ⟨[], cs, rfl, hc, rfl⟩
      · obtain ⟨before, after, rfl, hmem, hspan⟩ := ih h
        refine ⟨c :: before, after, rfl, hmem, ?_⟩
        rw [hspan, byteLength_cons, Nat.add_assoc]

/-- Illegal characters are one byte long. -/
theorem utf8Size_of_mem_illegalCharacters {c : Char} (h : c ∈ illegalCharacters) :
    c.utf8Size = 1 := by
  simp only [illegalCharacters, List.mem_cons, List.not_mem_nil, or_false] at h
  rcases h with rfl | rfl | rfl | rfl | rfl | rfl | rfl | rfl | rfl | rfl | rfl <;> rfl

/-- The span of an illegal character covers its bytes. -/
theorem within_of_firstIllegal? {text : String} {found : Located Char}
    (h : firstIllegal? 0 text.toList = some found) :
    found.span.Marks text.toList ∧
      text.toByteArray.extract found.span.start found.span.stop =
        (String.ofList [found.value]).toByteArray := by
  obtain ⟨before, after, htext, hmem, hspan⟩ := exists_of_firstIllegal? h
  replace hspan :
      found.span = ⟨byteLength before, byteLength before + byteLength [found.value]⟩ := by
    rw [hspan, byteLength_cons, utf8Size_of_mem_illegalCharacters hmem, Nat.zero_add]
    rfl
  refine ⟨⟨before, [found.value], after, htext, List.cons_ne_nil _ _, hspan⟩, ?_⟩
  rw [hspan]
  exact extract_toByteArray htext

/-- The ways in which a text is refused. -/
inductive Refused (text : String) : Error → Prop
  | empty : Refused text .emptyEquation
  | unbalanced (opening closing : ℕ) : Refused text (.unbalancedParentheses opening closing)
  | illegal {found : Located Char} (h : firstIllegal? 0 text.toList = some found) :
      Refused text (.illegalCharacter found.value found.span)
  | token {m : Located Mistake} (h : Token.all text.toList = .error m) :
      Refused text (mistakeError text.toList m)
  | grammar {tokens : List (Located Token)} {m : Located Mistake}
      (htokens : Token.all text.toList = .ok tokens) (hne : tokens ≠ [])
      (h : Parser.parse (finish text.toList) tokens = .error m) :
      Refused text (mistakeError text.toList m)

/-- Every refusal of a text has one of these causes. -/
theorem refused_of_parse {text : String} {error : Error} (h : parse text = .error error) :
    Refused text error := by
  rcases bind_eq_error_iff.mp h with h | ⟨_, -, h⟩
  · unfold precheck at h
    dsimp only at h
    split_ifs at h
    · cases h
      exact .empty
    · cases h
      exact .unbalanced _ _
    · split at h
      · rename_i hfound
        cases h
        exact .illegal hfound
      · cases h
  · unfold read at h
    split at h
    · rename_i htokens
      unfold ofTokens at h
      split_ifs at h with hempty
      · cases h
        exact .empty
      · split at h
        · cases h
        · rename_i hparse
          cases h
          exact .grammar htokens (by simpa using hempty) hparse
    · rename_i hmistake
      cases h
      exact .token hmistake

/-- What is no equation is refused as such. -/
theorem kind_of_parse {text : String} {error : Error} (h : parse text = .error error) :
    error.kind = .parse := by
  cases refused_of_parse h <;> rfl

/-- The span of a mistake in the grammar marks a part of the text. -/
theorem marks_of_parse {source : List Char} {tokens : List (Located Token)} {m : Located Mistake}
    (htokens : Token.all source = .ok tokens) (hne : tokens ≠ [])
    (h : Parser.parse (finish source) tokens = .error m) :
    m.value ≠ .nonAscii ∧ m.span.Marks source := by
  have hdivides := Token.divides_of_all htokens
  obtain ⟨hvalue, hspan⟩ := Parser.parse_blames h
  refine ⟨hvalue, ?_⟩
  rcases hspan with hspan | ⟨t, ht, hspan⟩
  · rw [hspan]
    exact hdivides.marks_finish hne
  · rw [hspan]
    exact hdivides.marks ht

/-- The span of a mistake marks a part of the text, or splits a character that is not ASCII. -/
theorem marks_of_invalidSyntax {text : String} {mistake : Mistake} {fragment : String} {span : Span}
    (h : parse text = .error (.invalidSyntax mistake fragment span)) :
    fragment = String.ofList (span.fragmentChars text.toList) ∧
      (mistake = .nonAscii ∧ span.Splits text.toList ∨
        mistake ≠ .nonAscii ∧ span.Marks text.toList) := by
  have hrefused := refused_of_parse h
  generalize herror : Error.invalidSyntax mistake fragment span = error at hrefused
  cases hrefused with
  | empty | unbalanced | illegal => cases herror
  | token hmistake =>
      rw [mistakeError, Error.invalidSyntax.injEq] at herror
      obtain ⟨rfl, rfl, rfl⟩ := herror
      exact ⟨rfl, Token.marks_of_all hmistake⟩
  | grammar htokens hne hmistake =>
      rw [mistakeError, Error.invalidSyntax.injEq] at herror
      obtain ⟨rfl, rfl, rfl⟩ := herror
      exact ⟨rfl, .inr (marks_of_parse htokens hne hmistake)⟩

/-- **Errors point at what they are about.** Every error of reading is of the kind for that. A span
that it carries covers at least one byte of the text. What it quotes has the bytes of its span,
except for characters that are not ASCII, of which nothing is quoted. -/
theorem parse_error_located {text : String} {error : Error} (h : parse text = .error error) :
    error.kind = .parse ∧
    (∀ mistake fragment span, error = .invalidSyntax mistake fragment span →
      span.start < span.stop ∧ span.stop ≤ text.utf8ByteSize ∧
      (mistake ≠ .nonAscii →
        fragment.toByteArray = text.toByteArray.extract span.start span.stop) ∧
      (mistake = .nonAscii → fragment = "")) ∧
    ∀ character span, error = .illegalCharacter character span →
      span.start < span.stop ∧ span.stop ≤ text.utf8ByteSize ∧
        text.toByteArray.extract span.start span.stop =
          (String.ofList [character]).toByteArray := by
  refine ⟨kind_of_parse h, ?_, ?_⟩
  · rintro mistake fragment span rfl
    obtain ⟨rfl, ⟨hvalue, hsplits⟩ | ⟨hvalue, hmarks⟩⟩ := marks_of_invalidSyntax h
    · obtain ⟨hpos, hle⟩ := hsplits.within
      refine ⟨hpos, utf8ByteSize_eq text ▸ hle, fun hne => absurd hvalue hne, fun _ => ?_⟩
      rw [hsplits.fragmentChars_eq_nil]
    · obtain ⟨hpos, hle⟩ := hmarks.within
      exact ⟨hpos, utf8ByteSize_eq text ▸ hle, fun _ => hmarks.toByteArray_fragmentChars,
        fun heq => absurd heq hvalue⟩
  · rintro character span rfl
    have hrefused := refused_of_parse h
    generalize herror : Error.illegalCharacter character span = error at hrefused
    cases hrefused with
    | empty | unbalanced | token | grammar => cases herror
    | illegal hfound =>
        cases herror
        obtain ⟨hmarks, hbytes⟩ := within_of_firstIllegal? hfound
        obtain ⟨hpos, hle⟩ := hmarks.within
        exact ⟨hpos, utf8ByteSize_eq text ▸ hle, hbytes⟩

/-- `x + ` lacks an operand, which the last sign is blamed for. In `x + é` the first of the two
bytes of the letter is blamed, and nothing is quoted. In `x @ y` the sign is illegal. -/
theorem parse_error_located_ends :
    (parse "x + " = .error (.invalidSyntax (.unexpected .operand none) "+" ⟨2, 3⟩) ∧
      "+".toByteArray = "x + ".toByteArray.extract 2 3) ∧
    (∃ fragment, parse "x + é" = .error (.invalidSyntax .nonAscii fragment ⟨4, 5⟩) ∧
      fragment = "") ∧
    parse "x @ y" = .error (.illegalCharacter '@' ⟨2, 3⟩) ∧ 3 ≤ "x @ y".utf8ByteSize := by
  have hend : parse "x + " = .error (.invalidSyntax (.unexpected .operand none) "+" ⟨2, 3⟩) := rfl
  have hletter : parse "x + é" = .error (.invalidSyntax .nonAscii "" ⟨4, 5⟩) := rfl
  have hillegal : parse "x @ y" = .error (.illegalCharacter '@' ⟨2, 3⟩) := rfl
  exact ⟨⟨hend, ((parse_error_located hend).2.1 _ _ _ rfl).2.2.1 (by simp)⟩,
    ⟨_, hletter, ((parse_error_located hletter).2.1 _ _ _ rfl).2.2.2 rfl⟩,
    hillegal, ((parse_error_located hillegal).2.2 _ _ rfl).2.1⟩

end Equation

end Elementwise
