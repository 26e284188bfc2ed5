import Mathlib.Tactic.SplitIfs
import Elementwise.Program.Compile
import Elementwise.Proofs.Literals

/-!
# Written names

A name in the tree of a text was read as a word. So it has the form of a name and is no keyword
(`Equation.isIdentifier_of_parse`), and no point stands in it: a point between two names is always a
reference to a member. Names that are declared are checked for the same form, and must not be
reserved (`checkName_eq_ok_iff`).
-/

namespace Elementwise

namespace Token

/-- A word that is read as a name is that name, and no keyword. -/
theorem ofWord_eq_name {word name : String} (h : ofWord word = .name name) :
    word = name ∧ name ∉ keywords := by
  unfold ofWord at h
  split_ifs at h with _ _ _ hkeyword
  cases h
  exact ⟨rfl, hkeyword⟩

/-- Only the start of a word gives a name, and the name is the whole word. -/
theorem word_of_scan {c : Char} {rest : List Char} {name : String} {more : Nat}
    (h : scan c rest = .token (.name name) more) :
    Text.isWordStart c = true ∧ name.toList = c :: rest.takeWhile Text.isWordChar ∧
      name ∉ keywords := by
  unfold scan at h
  split at h
  · unfold scanNumber at h
    split at h <;> cases h
  · split at h
    · rename_i hstart
      obtain ⟨hword, hkeyword⟩ := ofWord_eq_name (Scanned.token.inj h).1
      refine ⟨hstart, ?_, hkeyword⟩
      rw [← hword, String.toList_ofList]
    · -- A quote, a bracket, a comma, a point or a sign is no name.
      exact absurd h (by grind [scanQuoted, symbol_of_scanSymbol])

/-- A name that is read has the form of a name and is no keyword. -/
theorem isIdentifier_of_scan {c : Char} {rest : List Char} {name : String} {more : Nat}
    (h : scan c rest = .token (.name name) more) : isIdentifier name = true ∧ name ∉ keywords := by
  obtain ⟨hstart, hchars, hkeyword⟩ := word_of_scan h
  refine ⟨?_, hkeyword⟩
  rw [isIdentifier, hchars]
  simp [hstart, List.all_takeWhile]

end Token

/-- **Written names.** The names in the tree of a text have the form of names and are no keywords.
-/
theorem Equation.isIdentifier_of_parse {text : String} {equation : Equation}
    (h : parse text = .ok equation) {word : String}
    (hword : .name word ∈ equation.body.visits fun _ => true) :
    isIdentifier word = true ∧ word ∉ keywords := by
  obtain ⟨c, rest, more, hscan⟩ := exists_scan_of_parse h rfl hword
  exact Token.isIdentifier_of_scan hscan

/-! ## Checked names -/

/-- A name may be declared if it has the form of a name and is neither a keyword nor reserved. -/
theorem checkName_eq_ok_iff {name : String} :
    checkName name = .ok () ↔
      (isIdentifier name = true ∧ name ∉ keywords) ∧ name ∉ reservedNames := by
  unfold checkName
  by_cases hreserved : name ∈ keywords ∨ name ∈ reservedNames
  · rw [if_pos hreserved]
    constructor
    · intro h
      cases h
    · rintro ⟨⟨-, hkeyword⟩, hname⟩
      exact absurd hreserved (not_or.mpr ⟨hkeyword, hname⟩)
  · rw [if_neg hreserved]
    rw [not_or] at hreserved
    by_cases hform : isIdentifier name = true
    · simp [hform, hreserved]
    · simp [hform]

/-- Names may be declared if each of them may. -/
theorem checkNames_eq_ok_iff {names : List String} :
    checkNames names = .ok () ↔ ∀ name ∈ names, checkName name = .ok () := by
  unfold checkNames
  induction names with
  | nil => exact ⟨fun _ => List.forall_mem_nil _, fun _ => rfl⟩
  | cons name rest ih =>
      change (checkName name >>= fun _ => rest.forM checkName) = .ok () ↔ _
      rw [bind_eq_ok_iff, List.forall_mem_cons, ← ih]
      constructor
      · rintro ⟨_, hname, hrest⟩
        exact ⟨hname, hrest⟩
      · rintro ⟨hname, hrest⟩
        exact ⟨(), hname, hrest⟩

/-! ## Points -/

/-- What starts a word may stand in it. -/
theorem Text.isWordChar_of_isWordStart {c : Char} (h : isWordStart c = true) :
    isWordChar c = true := by
  simp only [isWordStart, isWordChar, Char.isAlphanum, Bool.or_eq_true] at h ⊢
  exact h.imp_left Or.inl

/-- No point stands in a word. -/
theorem Text.ne_point_of_isWordChar {c : Char} (h : isWordChar c = true) : c ≠ '.' := by
  rintro rfl
  exact absurd h (by decide)

/-- A name is made of the characters of words. -/
theorem isWordChar_of_isIdentifier {word : String} (h : isIdentifier word = true) :
    ∀ c ∈ word.toList, Text.isWordChar c = true := by
  unfold isIdentifier at h
  split at h
  · cases h
  · rename_i c rest hchars
    rw [Bool.and_eq_true, List.all_eq_true] at h
    rw [hchars, List.forall_mem_cons]
    exact ⟨Text.isWordChar_of_isWordStart h.1, h.2⟩

/-- No point stands in what has the form of a name. -/
theorem point_not_mem_of_isIdentifier {word : String} (h : isIdentifier word = true) :
    '.' ∉ word.toList := by
  intro hmem
  exact Text.ne_point_of_isWordChar (isWordChar_of_isIdentifier h _ hmem) rfl

end Elementwise
