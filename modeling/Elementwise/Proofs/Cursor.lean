import Elementwise.Proofs.Spelling

/-!
# Reading step by step

`Token.allFrom` reads a text in one recursion. `Token.Cursor.Advances` tells the same in steps: a
cursor passes over a blank, or over the characters of a token. A step passes over at least one
character (`Advances.exists_passed`), so from every cursor reading gets to the end of the text or to
a mistake, and what it has found on the way is what `Token.allFrom` gives (`exists_reaches`).

`Token.IsCut` names the bytes at which the text of a token or of a mistake is cut. They all lie
between two characters (`exists_split_of_isCut`): quotes are ASCII, and so is everything else that
is cut, but for the content of a quoted text, which is cut at its ends only.
-/

namespace Elementwise

open Text

/-! ## ASCII text -/

namespace Text

theorem utf8Size_of_ascii {c : Char} (h : c.toNat < 128) : c.utf8Size = 1 :=
  Char.utf8Size_eq_one_iff.mpr (UInt32.le_iff_toNat_le.mpr (Nat.le_of_lt_succ h))

/-- ASCII characters are one byte each. -/
theorem byteLength_of_ascii {cs : List Char} (h : ∀ c ∈ cs, c.toNat < 128) :
    byteLength cs = cs.length := by
  induction cs with
  | nil => rfl
  | cons c cs ih =>
      obtain ⟨hc, hcs⟩ := List.forall_mem_cons.mp h
      rw [byteLength_cons, ih hcs, utf8Size_of_ascii hc, List.length_cons, Nat.add_comm]

/-- ASCII text can be cut anywhere. -/
theorem exists_split_of_ascii {cs taken rest : List Char} (hcs : cs = taken ++ rest)
    (h : ∀ c ∈ taken, c.toNat < 128) {offset : ℕ} (hoffset : offset ≤ byteLength taken) :
    ∃ before after, cs = before ++ after ∧ byteLength before = offset := by
  rw [byteLength_of_ascii h] at hoffset
  refine ⟨taken.take offset, taken.drop offset ++ rest, ?_, ?_⟩
  · rw [← List.append_assoc, List.take_append_drop, hcs]
  · rw [byteLength_of_ascii fun c hc => h c (List.mem_of_mem_take hc), List.length_take,
      Nat.min_eq_left hoffset]

/-- A text can be cut at both ends of its first character and of what follows that, if the character
is one byte. -/
theorem exists_split_of_first {c : Char} (hc : c.utf8Size = 1)
    {content rest : List Char} {offset : ℕ}
    (hoffset : offset = 0 ∨ offset = 1 ∨ offset = 1 + byteLength content) :
    ∃ before after, c :: (content ++ rest) = before ++ after ∧ byteLength before = offset := by
  rcases hoffset with rfl | rfl | rfl
  · exact ⟨[], _, rfl, rfl⟩
  · exact ⟨[c], _, rfl, by simp [hc]⟩
  · exact ⟨c :: content, rest, rfl, by rw [byteLength_cons, hc]⟩

end Text

namespace Token

/-! ## Cursors -/

/-- Where reading stands in a text: at a byte, with the characters from there on. -/
structure Cursor where
  position : ℕ
  rest : List Char

namespace Cursor

/-- What is read from a cursor on. -/
def read (a : Cursor) : Except (Located Mistake) (List (Located Token)) :=
  allFrom a.position 0 a.rest

/-- `a.Advances found b`: one step leads from `a` to `b` and finds one token or none. -/
inductive Advances : Cursor → List (Located Token) → Cursor → Prop
  | blank {position : ℕ} {c : Char} {rest : List Char} :
      isBlank c = true → Advances ⟨position, c :: rest⟩ [] ⟨position + 1, rest⟩
  | token {position : ℕ} {c : Char} {more rest : List Char} {value : Token} :
      isBlank c = false → scan c (more ++ rest) = .token value more.length →
      Advances ⟨position, c :: (more ++ rest)⟩
        [⟨value, ⟨position, position + byteLength (c :: more)⟩⟩]
        ⟨position + byteLength (c :: more), rest⟩

/-- `a.Reaches tokens b`: steps lead from `a` to `b` and find `tokens`. -/
inductive Reaches : Cursor → List (Located Token) → Cursor → Prop
  | refl (a : Cursor) : Reaches a [] a
  | step {a b c : Cursor} {found tokens : List (Located Token)} :
      Advances a found b → Reaches b tokens c → Reaches a (found ++ tokens) c

/-- A mistake stands at a cursor. -/
def Stuck (a : Cursor) (m : Located Mistake) : Prop :=
  ∃ c rest width, a.rest = c :: rest ∧ isBlank c = false ∧ scan c rest = .mistake m.value width ∧
    m.span = ⟨a.position, a.position + width⟩

variable {a b : Cursor} {found tokens : List (Located Token)}

/-! ### Steps -/

/-- A step passes over some characters, and finds at most as many tokens as they have bytes. -/
theorem Advances.exists_passed (h : a.Advances found b) :
    ∃ passed, a.rest = passed ++ b.rest ∧ b.position = a.position + byteLength passed ∧
      passed ≠ [] ∧ found.length ≤ byteLength passed := by
  cases h with
  | @blank position c rest hblank =>
      refine ⟨[c], rfl, ?_, List.cons_ne_nil _ _, Nat.zero_le _⟩
      rw [byteLength_cons, utf8Size_of_isBlank hblank, byteLength_nil]
  | @token position c more rest value hblank hscan =>
      refine ⟨c :: more, rfl, rfl, List.cons_ne_nil _ _, ?_⟩
      have hpos := c.utf8Size_pos
      rw [byteLength_cons, List.length_singleton]
      omega

/-- What is read before a step is what it finds and what is read after it. -/
theorem Advances.read_eq (h : a.Advances found b) : a.read = b.read.map (found ++ ·) := by
  cases h with
  | @blank position c rest hblank =>
      rw [read, allFrom, if_pos hblank, read]
      rcases allFrom (position + 1) 0 rest with mistake | tokens <;> rfl
  | @token position c more rest value hblank hscan =>
      rw [read, allFrom, if_neg (by simp [hblank]), hscan]
      dsimp only
      rw [allFrom_covered, List.take_left, Nat.add_assoc, read, byteLength_cons]
      rcases allFrom (position + (c.utf8Size + byteLength more)) 0 rest with
        mistake | tokens <;> rfl

/-- A cursor is at the end, at a mistake, or before a step. -/
theorem advances_or_stuck (a : Cursor) :
    a.rest = [] ∨ (∃ m, a.Stuck m) ∨ ∃ found b, a.Advances found b := by
  obtain ⟨position, cs⟩ := a
  cases cs with
  | nil => exact .inl rfl
  | cons c rest =>
      by_cases hblank : isBlank c = true
      · exact .inr (.inr ⟨_, _, .blank hblank⟩)
      · rw [Bool.not_eq_true] at hblank
        rcases hscan : scan c rest with ⟨value, more⟩ | ⟨what, width⟩
        · obtain ⟨lexeme, tail, rfl, rfl, -⟩ := exists_completes hscan
          exact .inr (.inr ⟨_, _, .token hblank hscan⟩)
        · exact .inr (.inl ⟨⟨what, ⟨position, position + width⟩⟩, c, rest, width, rfl,
            hblank, hscan, rfl⟩)

/-- At a mistake nothing is read but the mistake. -/
theorem Stuck.read_eq {m : Located Mistake} (h : a.Stuck m) : a.read = .error m := by
  obtain ⟨c, rest, width, hrest, hblank, hscan, hspan⟩ := h
  rw [read, hrest, allFrom, if_neg (by simp [hblank]), hscan]
  dsimp only
  rw [← hspan]

/-! ### Runs -/

/-- Steps pass over characters, and find at most as many tokens as these have bytes. -/
theorem Reaches.exists_passed (h : a.Reaches tokens b) :
    ∃ passed, a.rest = passed ++ b.rest ∧ b.position = a.position + byteLength passed ∧
      tokens.length ≤ byteLength passed := by
  induction h with
  | refl a => exact ⟨[], rfl, rfl, Nat.le_refl 0⟩
  | step hstep _ ih =>
      obtain ⟨first, hfirst, hposition, -, hfound⟩ := hstep.exists_passed
      obtain ⟨others, hothers, hlast, htokens⟩ := ih
      refine ⟨first ++ others, ?_, ?_, ?_⟩
      · rw [hfirst, hothers, List.append_assoc]
      · rw [hlast, hposition, byteLength_append, Nat.add_assoc]
      · rw [List.length_append, byteLength_append]
        exact Nat.add_le_add hfound htokens

/-- What is read before some steps is what they find and what is read after them. -/
theorem Reaches.read_eq (h : a.Reaches tokens b) : a.read = b.read.map (tokens ++ ·) := by
  induction h with
  | refl a => rcases a.read with mistake | tokens <;> rfl
  | @step a b c found tokens hstep _ ih =>
      rw [hstep.read_eq, ih]
      rcases c.read with mistake | last
      · rfl
      · exact congrArg Except.ok (List.append_assoc found tokens last).symm

/-- Steps lead from every cursor to the end of the text, or to a mistake. -/
theorem exists_reaches_end (a : Cursor) :
    ∃ tokens b, a.Reaches tokens b ∧ (b.rest = [] ∨ ∃ m, b.Stuck m) := by
  -- Each step shortens the text.
  induction hlength : a.rest.length using Nat.strongRecOn generalizing a with
  | ind length ih =>
      subst hlength
      rcases a.advances_or_stuck with hend | hstuck | ⟨found, b, hstep⟩
      · exact ⟨[], a, .refl a, .inl hend⟩
      · exact ⟨[], a, .refl a, .inr hstuck⟩
      · obtain ⟨passed, hrest, -, hne, -⟩ := hstep.exists_passed
        have hshorter : b.rest.length < a.rest.length := by
          have hpos := List.length_pos_iff.mpr hne
          rw [hrest, List.length_append]
          omega
        obtain ⟨tokens, c, hreaches, hend⟩ := ih _ hshorter b rfl
        exact ⟨found ++ tokens, c, .step hstep hreaches, hend⟩

/-- **Reading ends.** Steps lead from every cursor to the end of the text, or to a mistake. What
they find is what is read, and so is the mistake. -/
theorem exists_reaches (a : Cursor) :
    ∃ tokens b, a.Reaches tokens b ∧
      (b.rest = [] ∧ a.read = .ok tokens ∨ ∃ m, b.Stuck m ∧ a.read = .error m) := by
  obtain ⟨tokens, b, hreaches, hend⟩ := a.exists_reaches_end
  refine ⟨tokens, b, hreaches, ?_⟩
  rw [hreaches.read_eq]
  rcases hend with hend | ⟨m, hstuck⟩
  · have hread : b.read = .ok [] := by rw [read, hend, allFrom]
    refine .inl ⟨hend, ?_⟩
    rw [hread]
    exact congrArg Except.ok (List.append_nil tokens)
  · refine .inr ⟨m, hstuck, ?_⟩
    rw [hstuck.read_eq]
    rfl

end Cursor

/-! ## Cuts -/

/-- The bytes, counted from a character, at which the text of what is scanned there is cut. A quoted
text is cut at its ends and at those of its content, all other text that is scanned may be cut
anywhere, and a character that is not ASCII is only cut off from what stands before it. -/
def IsCut (c : Char) (rest : List Char) (offset : ℕ) : Prop :=
  match scan c rest with
  | .token (.quoted content) _ =>
    offset ∈ [0, 1, 1 + byteLength content.toList, 2 + byteLength content.toList]
  | .token _ more => offset ≤ byteLength (c :: rest.take more)
  | .mistake .nonAscii _ => offset = 0
  | .mistake .unterminatedQuote width => offset ∈ [0, 1, width]
  | .mistake _ width => offset ≤ width

/-- **Cuts lie between characters**, whatever the text is. -/
theorem exists_split_of_isCut {c : Char} {rest : List Char} {offset : ℕ} (h : IsCut c rest offset) :
    ∃ before after, c :: rest = before ++ after ∧ byteLength before = offset := by
  unfold IsCut at h
  rcases hscan : scan c rest with ⟨token, more⟩ | ⟨what, width⟩
  · rw [hscan] at h
    have hspelled := spelled_of_scan hscan
    have hsplit : c :: rest = c :: rest.take more ++ rest.drop more := by simp
    cases token with
    | quoted content =>
        obtain ⟨quote, hquote, hlexeme⟩ := hspelled
        have hsize : quote.utf8Size = 1 := by rcases hquote with rfl | rfl <;> rfl
        rw [hsplit, hlexeme]
        simp only [List.mem_cons, List.not_mem_nil, or_false, ← or_assoc] at h
        rcases h with h | rfl
        · rw [List.cons_append, List.append_assoc]
          exact exists_split_of_first hsize (or_assoc.mp h)
        · refine ⟨_, _, rfl, ?_⟩
          rw [byteLength_cons, byteLength_append, byteLength_cons, byteLength_nil, hsize]
          omega
    | number _ | name _ | keyword _ | symbol _ | leftParen | rightParen | comma | dot =>
        have hascii := hspelled.ascii (by simp)
        exact exists_split_of_ascii hsplit (fun d hd => (hascii d hd).1) h
  · rw [hscan] at h
    rcases taken_of_mistake hscan with ⟨rfl, -⟩ | ⟨rfl, hc, content, after, rfl, rfl⟩ |
      ⟨-, hne, -, taken, after, hcs, hlength, hascii⟩
    · exact ⟨[], _, rfl, h.symm⟩
    · exact exists_split_of_first (utf8Size_of_ascii hc) (by simpa using h)
    · have hwidth : byteLength taken = width := (byteLength_of_ascii hascii).trans hlength
      refine exists_split_of_ascii hcs hascii ?_
      cases what with
      | nonAscii => exact h ▸ Nat.zero_le _
      | unterminatedQuote => exact absurd rfl hne
      | _ => exact hwidth ▸ h

end Token

end Elementwise
