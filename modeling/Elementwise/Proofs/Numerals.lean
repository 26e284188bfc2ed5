import Mathlib.Data.Nat.Digits.Defs
import Elementwise.Proofs.Lossless

/-!
# How numbers are written

A number is taken greedily from a text and judged afterwards, by rules on single characters. Here is
what the rules come to. Digits stand in groups, with single underscores between the groups
(`Numeral.IsGroups`, `Numeral.joined`). An integer is made of groups, behind a radix mark or not
(`Numeral.WritesInteger`), and a decimal with a point or an exponent has groups, or nothing, in the
places of its digits (`Numeral.WritesFloat`).

`Token.all_eq_number_iff` says that the texts of numbers are exactly these. It rests on one
recursion for groups: a digit goes on with nothing, with more digits, or with an underscore and more
digits (`Numeral.isGrouped_cons_iff`). The rule behind a radix mark and the rule for decimals are
both compared with it character by character (`Numeral.isRadixBody_iff`,
`Numeral.underscoresBetweenDigits_append`).
-/

namespace Elementwise

open Text

namespace Numeral

/-! ## Digits -/

/-- The digits in the order of their values. -/
def digitSigns : List Char :=
  ['0', '1', '2', '3', '4', '5', '6', '7', '8', '9', 'a', 'b', 'c', 'd', 'e', 'f']

/-- The digits of a radix are the first ones; letters may also stand in upper case. -/
def IsDigit (radix : ℕ) (c : Char) : Prop :=
  c.toLower ∈ digitSigns.take radix

/-- What holds of the ASCII characters one by one holds of them all. -/
theorem forall_ascii {P : Char → Prop} (h : ∀ n < 128, P (Char.ofNat n)) {c : Char}
    (hc : c.toNat < 128) : P c := by
  have hn := h c.toNat hc
  rwa [Char.ofNat_toNat] at hn

/-- Digits are ASCII characters. -/
theorem toNat_of_toLower_mem {c : Char} (h : c.toLower ∈ digitSigns) : c.toNat < 128 := by
  unfold Char.toLower at h
  split at h
  · rename_i hupper
    exact Nat.lt_of_le_of_lt (UInt32.le_iff_toNat_le.mp hupper.2) (by decide)
  · simp only [digitSigns, List.mem_cons, List.not_mem_nil, or_false] at h
    rcases h with rfl | rfl | rfl | rfl | rfl | rfl | rfl | rfl | rfl | rfl | rfl | rfl | rfl |
      rfl | rfl | rfl <;> decide

/-- Two classes of ASCII characters are the same if they are one by one. -/
theorem iff_of_ascii {P Q : Char → Prop} {c : Char} (hP : P c → c.toNat < 128)
    (hQ : Q c → c.toNat < 128) (h : ∀ n < 128, P (Char.ofNat n) ↔ Q (Char.ofNat n)) :
    P c ↔ Q c := by
  by_cases hc : c.toNat < 128
  · exact forall_ascii (P := fun c => P c ↔ Q c) h hc
  · exact iff_of_false (fun hp => hc (hP hp)) fun hq => hc (hQ hq)

/-- The signs of digits are the letters and figures of value less than sixteen. -/
theorem toLower_mem_iff {c : Char} :
    c.toLower ∈ digitSigns ↔ isWordChar c = true ∧ c ≠ '_' ∧ digitValue c < 16 := by
  refine iff_of_ascii (P := fun c => c.toLower ∈ digitSigns)
    (Q := fun c => isWordChar c = true ∧ c ≠ '_' ∧ digitValue c < 16) toNat_of_toLower_mem ?_
    (by decide +kernel)
  rintro ⟨hword, -⟩
  exact (toNat_of_goesOn (goesOn_of_isWordChar hword)).1

/-- The place of a digit is its value. -/
theorem idxOf_toLower {c : Char} (h : c.toLower ∈ digitSigns) :
    digitSigns.idxOf c.toLower = digitValue c :=
  forall_ascii (P := fun c => c.toLower ∈ digitSigns →
    digitSigns.idxOf c.toLower = digitValue c) (by decide +kernel) (toNat_of_toLower_mem h) h

/-- A digit is one of the signs for digits, up to its case. -/
theorem IsDigit.toLower_mem {radix : ℕ} {c : Char} (h : IsDigit radix c) : c.toLower ∈ digitSigns :=
  List.mem_of_mem_take h

/-- Digits are characters of words. -/
theorem IsDigit.isWordChar {radix : ℕ} {c : Char} (h : IsDigit radix c) : isWordChar c = true :=
  (toLower_mem_iff.mp h.toLower_mem).1

/-- An underscore is no digit. -/
theorem IsDigit.ne_underscore {radix : ℕ} {c : Char} (h : IsDigit radix c) : c ≠ '_' :=
  (toLower_mem_iff.mp h.toLower_mem).2.1

/-- The digits of a radix are the letters and figures of value less than the radix. -/
theorem isDigit_iff {radix : ℕ} (hradix : radix ≤ 16) {c : Char} :
    IsDigit radix c ↔ isWordChar c = true ∧ c ≠ '_' ∧ isDigitOf radix c = true := by
  rw [isDigitOf, decide_eq_true_eq]
  constructor
  · intro h
    refine ⟨h.isWordChar, h.ne_underscore, ?_⟩
    rw [← idxOf_toLower h.toLower_mem]
    exact (List.mem_take_iff_idxOf_lt h.toLower_mem).mp h
  · rintro ⟨hword, hne, hvalue⟩
    have hmem := toLower_mem_iff.mpr ⟨hword, hne, Nat.lt_of_lt_of_le hvalue hradix⟩
    rw [IsDigit, List.mem_take_iff_idxOf_lt hmem, idxOf_toLower hmem]
    exact hvalue

/-- The decimal digits. -/
theorem isDigit_ten_iff {c : Char} : IsDigit 10 c ↔ c.isDigit = true := by
  refine iff_of_ascii (P := fun c => c.toLower ∈ digitSigns.take 10)
    (Q := fun c => c.isDigit = true)
    (fun h => toNat_of_toLower_mem (List.mem_of_mem_take h)) ?_ (by decide +kernel)
  intro h
  exact (toNat_of_goesOn (goesOn_of_isDigitOrUnderscore (by simp [isDigitOrUnderscore, h]))).1

/-! ## Groups of digits -/

/-- Groups of digits of a radix: at least one group, and at least one digit in each. -/
structure IsGroups (radix : ℕ) (groups : List (List Char)) : Prop where
  ne_nil : groups ≠ []
  group_ne_nil : ∀ group ∈ groups, group ≠ []
  isDigit : ∀ group ∈ groups, ∀ c ∈ group, IsDigit radix c

/-- Groups in order, with one underscore between any two. -/
def joined (groups : List (List Char)) : List Char :=
  ['_'].intercalate groups

/-- The number that groups of digits stand for. -/
def groupsValue (radix : ℕ) (groups : List (List Char)) : ℕ :=
  Nat.ofDigits radix (groups.flatten.map fun c => digitSigns.idxOf c.toLower).reverse

/-- Characters that are groups of digits with underscores between them. -/
def IsGrouped (radix : ℕ) (run : List Char) : Prop :=
  ∃ groups, IsGroups radix groups ∧ joined groups = run

/-- What may follow, a digit or something else: nothing, groups of digits, and behind a digit also
an underscore with groups of digits. -/
def Continues (radix : ℕ) (digit : Bool) (run : List Char) : Prop :=
  run = [] ∨ IsGrouped radix run ∨ digit = true ∧ ∃ rest, run = '_' :: rest ∧ IsGrouped radix rest

/-- One group needs no underscore. -/
theorem joined_singleton (group : List Char) : joined [group] = group :=
  List.intercalate_singleton

/-- The first character of the first group comes first. -/
theorem joined_cons_cons (c : Char) (group : List Char) (groups : List (List Char)) :
    joined ((c :: group) :: groups) = c :: joined (group :: groups) := by
  cases groups with
  | nil => simp [joined_singleton]
  | cons next others => simp [joined, List.intercalate_cons_cons]

/-- Where a group ends and others follow, there is an underscore. -/
theorem joined_nil_cons {groups : List (List Char)} (h : groups ≠ []) :
    joined ([] :: groups) = '_' :: joined groups := by
  cases groups with
  | nil => exact absurd rfl h
  | cons next others => simp [joined, List.intercalate_cons_cons]

variable {radix : ℕ}

/-- What follows the first group is made of groups. -/
theorem IsGroups.tail {group : List Char} {groups : List (List Char)}
    (h : IsGroups radix (group :: groups)) (hne : groups ≠ []) : IsGroups radix groups :=
  ⟨hne, fun g hg => h.group_ne_nil g (List.mem_cons_of_mem _ hg),
    fun g hg => h.isDigit g (List.mem_cons_of_mem _ hg)⟩

/-- A group of digits may be put in front of others, or stand alone. -/
theorem isGroups_cons {group : List Char} {groups : List (List Char)} (hne : group ≠ [])
    (hdigits : ∀ c ∈ group, IsDigit radix c) (h : groups = [] ∨ IsGroups radix groups) :
    IsGroups radix (group :: groups) := by
  refine ⟨List.cons_ne_nil _ _, ?_, ?_⟩
  · rw [List.forall_mem_cons]
    refine ⟨hne, fun g hg => ?_⟩
    rcases h with rfl | h
    · cases hg
    · exact h.group_ne_nil g hg
  · rw [List.forall_mem_cons]
    refine ⟨hdigits, fun g hg => ?_⟩
    rcases h with rfl | h
    · cases hg
    · exact h.isDigit g hg

/-- Groups of digits have at least one digit. -/
theorem not_isGrouped_nil : ¬IsGrouped radix [] := by
  rintro ⟨groups, h, hjoined⟩
  obtain ⟨group, others, rfl⟩ := List.exists_cons_of_ne_nil h.ne_nil
  obtain ⟨c, more, rfl⟩ := List.exists_cons_of_ne_nil (h.group_ne_nil group List.mem_cons_self)
  rw [joined_cons_cons] at hjoined
  cases hjoined

/-- **Groups, digit by digit.** They start with a digit, and what follows it may follow a digit. -/
theorem isGrouped_cons_iff {c : Char} {run : List Char} :
    IsGrouped radix (c :: run) ↔ IsDigit radix c ∧ Continues radix true run := by
  constructor
  · rintro ⟨groups, h, hjoined⟩
    obtain ⟨group, others, rfl⟩ := List.exists_cons_of_ne_nil h.ne_nil
    obtain ⟨first, more, rfl⟩ := List.exists_cons_of_ne_nil
      (h.group_ne_nil group List.mem_cons_self)
    have hdigits := h.isDigit _ List.mem_cons_self
    rw [List.forall_mem_cons] at hdigits
    rw [joined_cons_cons, List.cons.injEq] at hjoined
    obtain ⟨rfl, rfl⟩ := hjoined
    refine ⟨hdigits.1, ?_⟩
    by_cases hothers : others = []
    · subst hothers
      rw [joined_singleton]
      cases more with
      | nil => exact .inl rfl
      | cons d more =>
          refine .inr (.inl ⟨[d :: more], ?_, joined_singleton _⟩)
          exact isGroups_cons (List.cons_ne_nil _ _) hdigits.2 (.inl rfl)
    · cases more with
      | nil => exact .inr (.inr ⟨rfl, _, joined_nil_cons hothers, others, h.tail hothers, rfl⟩)
      | cons d more =>
          refine .inr (.inl ⟨(d :: more) :: others, ?_, rfl⟩)
          exact isGroups_cons (List.cons_ne_nil _ _) hdigits.2 (.inr (h.tail hothers))
  · rintro ⟨hc, rfl | ⟨groups, h, rfl⟩ | ⟨-, _, rfl, groups, h, rfl⟩⟩
    · refine ⟨[[c]], ?_, joined_singleton _⟩
      exact isGroups_cons (List.cons_ne_nil _ _) (by simpa using hc) (.inl rfl)
    · obtain ⟨group, others, rfl⟩ := List.exists_cons_of_ne_nil h.ne_nil
      refine ⟨(c :: group) :: others, ?_, joined_cons_cons _ _ _⟩
      refine isGroups_cons (List.cons_ne_nil _ _) ?_ ?_
      · rw [List.forall_mem_cons]
        exact ⟨hc, h.isDigit group List.mem_cons_self⟩
      · by_cases hothers : others = []
        · exact .inl hothers
        · exact .inr (h.tail hothers)
    · refine ⟨[c] :: groups, isGroups_cons (List.cons_ne_nil _ _) (by simpa using hc) (.inr h), ?_⟩
      rw [joined_cons_cons, joined_nil_cons h.ne_nil]

/-- No radix has the underscore as a digit. -/
theorem not_isDigit_underscore : ¬IsDigit radix '_' :=
  fun h => h.ne_underscore rfl

/-- Anything but an underscore goes on as a digit. -/
theorem continues_cons_of_ne {digit : Bool} {c : Char} {run : List Char} (hc : c ≠ '_') :
    Continues radix digit (c :: run) ↔ IsDigit radix c ∧ Continues radix true run := by
  rw [Continues, isGrouped_cons_iff]
  simp [hc]

/-- An underscore goes on a digit, with groups of digits behind it. -/
theorem continues_underscore_iff {digit : Bool} {run : List Char} :
    Continues radix digit ('_' :: run) ↔ digit = true ∧ IsGrouped radix run := by
  rw [Continues, isGrouped_cons_iff]
  simp [not_isDigit_underscore]

/-- Groups start with a digit. -/
theorem IsGrouped.exists_head {run : List Char} (h : IsGrouped radix run) :
    ∃ c rest, run = c :: rest ∧ IsDigit radix c := by
  cases run with
  | nil => exact absurd h not_isGrouped_nil
  | cons c rest => exact ⟨c, rest, rfl, (isGrouped_cons_iff.mp h).1⟩

/-- Groups of digits may follow a digit or something else. -/
theorem IsGrouped.continues {run : List Char} (h : IsGrouped radix run) (digit : Bool) :
    Continues radix digit run :=
  .inr (.inl h)

/-- The characters of groups are digits and underscores. -/
theorem Continues.mem {digit : Bool} {run : List Char} (h : Continues radix digit run) {c : Char}
    (hc : c ∈ run) : c = '_' ∨ IsDigit radix c := by
  induction run generalizing digit with
  | nil => cases hc
  | cons d run ih =>
      by_cases hd : d = '_'
      · subst hd
        rcases List.mem_cons.mp hc with rfl | hc
        · exact .inl rfl
        · exact ih ((continues_underscore_iff.mp h).2.continues true) hc
      · obtain ⟨hdigit, hrun⟩ := (continues_cons_of_ne hd).mp h
        rcases List.mem_cons.mp hc with rfl | hc
        · exact .inr hdigit
        · exact ih hrun hc

/-! ## Values -/

/-- The digits of two runs side by side. -/
theorem digitsOf_append (cs ds : List Char) : digitsOf (cs ++ ds) = digitsOf cs ++ digitsOf ds :=
  List.filter_append cs ds

/-- The digits of groups are what is left without underscores. -/
theorem digitsOf_joined {groups : List (List Char)}
    (h : ∀ group ∈ groups, ∀ c ∈ group, IsDigit radix c) :
    digitsOf (joined groups) = groups.flatten := by
  have hgroup : ∀ group ∈ groups, digitsOf group = group := by
    intro group hmem
    refine List.filter_eq_self.mpr fun c hc => ?_
    simpa using (h group hmem c hc).ne_underscore
  induction groups with
  | nil => rfl
  | cons group groups ih =>
      rw [List.forall_mem_cons] at h hgroup
      cases groups with
      | nil => simpa [joined_singleton] using hgroup.1
      | cons next others =>
          have hrest : digitsOf (['_'].intercalate (next :: others)) = (next :: others).flatten :=
            ih h.2 hgroup.2
          rw [joined, List.intercalate_cons_cons, digitsOf_append, digitsOf_append, hrest, hgroup.1,
            List.flatten_cons]
          simp [digitsOf]

/-- The number of a list of digits is the one they stand for by their places. -/
theorem value_eq_ofDigits {digits : List Char} (h : ∀ c ∈ digits, IsDigit radix c) :
    value radix digits =
      Nat.ofDigits radix (digits.map fun c => digitSigns.idxOf c.toLower).reverse := by
  rw [Nat.ofDigits_eq_foldr, List.foldr_reverse, List.foldl_map]
  refine List.foldl_ext _ _ _ fun n c hc => ?_
  rw [idxOf_toLower (h c hc).toLower_mem, Nat.cast_id]
  ring

/-- Underscores do not change the value. -/
theorem value_digitsOf_joined {groups : List (List Char)} (h : IsGroups radix groups) :
    value radix (digitsOf (joined groups)) = groupsValue radix groups := by
  rw [digitsOf_joined h.isDigit, groupsValue, value_eq_ofDigits]
  intro c hc
  obtain ⟨group, hgroup, hc⟩ := List.mem_flatten.mp hc
  exact h.isDigit group hgroup c hc

/-! ## Behind a radix mark -/

/-- Another character in front makes no double underscore. -/
theorem hasDoubleUnderscore_cons_of_ne {c : Char} {run : List Char} (hc : c ≠ '_') :
    hasDoubleUnderscore (c :: run) = hasDoubleUnderscore run := by
  rw [hasDoubleUnderscore]
  intro rest hunderscore
  exact absurd hunderscore hc

/-- Neither does an underscore before another character. -/
theorem hasDoubleUnderscore_underscore_cons {c : Char} {run : List Char} (hc : c ≠ '_') :
    hasDoubleUnderscore ('_' :: c :: run) = hasDoubleUnderscore (c :: run) := by
  rw [hasDoubleUnderscore]
  rintro rest - hrest
  exact hc (List.cons.inj hrest).1

/-- Other characters than underscores are kept. -/
theorem digitsOf_cons_of_ne {c : Char} {run : List Char} (hc : c ≠ '_') :
    digitsOf (c :: run) = c :: digitsOf run :=
  List.filter_cons_of_pos (by simpa using hc)

/-- Underscores are left out. -/
theorem digitsOf_underscore (run : List Char) : digitsOf ('_' :: run) = digitsOf run :=
  rfl

/-- What may follow a digit has digits of the radix and single underscores, none of them at the
end. -/
theorem continues_true_iff (hradix : radix ≤ 16) {body : List Char}
    (hbody : ∀ c ∈ body, isWordChar c = true) :
    Continues radix true body ↔ body.getLast? ≠ some '_' ∧ hasDoubleUnderscore body = false ∧
      ∀ c ∈ digitsOf body, isDigitOf radix c = true := by
  induction body with
  | nil => simp [Continues, hasDoubleUnderscore, digitsOf]
  | cons c body ih =>
      rw [List.forall_mem_cons] at hbody
      have ih := ih hbody.2
      by_cases hc : c = '_'
      · subst hc
        rw [continues_underscore_iff]
        -- One more character is looked at: another underscore is refused, a digit goes on.
        cases body with
        | nil => simp [not_isGrouped_nil]
        | cons d body =>
            by_cases hd : d = '_'
            · subst hd
              simp [isGrouped_cons_iff, not_isDigit_underscore, hasDoubleUnderscore]
            · rw [continues_cons_of_ne hd] at ih
              rw [isGrouped_cons_iff, ih, hasDoubleUnderscore_underscore_cons hd,
                digitsOf_underscore, List.getLast?_cons_cons]
              simp
      · have hlast : (c :: body).getLast? ≠ some '_' ↔ body.getLast? ≠ some '_' := by
          cases body with
          | nil => simp [hc]
          | cons d body => rw [List.getLast?_cons_cons]
        rw [continues_cons_of_ne hc, ih, isDigit_iff hradix, hasDoubleUnderscore_cons_of_ne hc,
          digitsOf_cons_of_ne hc, List.forall_mem_cons, hlast]
        simp only [hbody.1, hc, ne_eq, not_false_eq_true, true_and]
        exact and_left_comm.trans (and_congr_right fun _ => and_left_comm)

/-- **The rule behind a radix mark.** Groups of digits, with an underscore before them or not. -/
theorem isRadixBody_iff (hradix : radix ≤ 16) {body : List Char}
    (hbody : ∀ c ∈ body, isWordChar c = true) :
    isRadixBody radix body = true ↔ ∃ lead groups, (lead = [] ∨ lead = ['_']) ∧
      IsGroups radix groups ∧ body = lead ++ joined groups := by
  have hrule : isRadixBody radix body = true ↔ digitsOf body ≠ [] ∧ Continues radix true body := by
    rw [continues_true_iff hradix hbody]
    simp [isRadixBody, and_assoc]
  rw [hrule]
  constructor
  · rintro ⟨hne, rfl | ⟨groups, hgroups, rfl⟩ | ⟨-, _, rfl, groups, hgroups, rfl⟩⟩
    · exact absurd rfl hne
    · exact ⟨[], groups, .inl rfl, hgroups, rfl⟩
    · exact ⟨['_'], groups, .inr rfl, hgroups, rfl⟩
  · rintro ⟨lead, groups, hlead, hgroups, rfl⟩
    obtain ⟨c, rest, hrest, hc⟩ := IsGrouped.exists_head ⟨groups, hgroups, rfl⟩
    constructor
    · rw [digitsOf_append, hrest, digitsOf_cons_of_ne hc.ne_underscore]
      simp
    · rcases hlead with rfl | rfl
      · exact .inr (.inl ⟨groups, hgroups, rfl⟩)
      · exact .inr (.inr ⟨rfl, _, rfl, groups, hgroups, rfl⟩)

/-! ## In a decimal -/

/-- Behind something else than a digit there is nothing, or groups of digits. -/
theorem continues_false_iff {run : List Char} :
    Continues radix false run ↔ run = [] ∨ IsGrouped radix run := by
  simp [Continues]

/-- What is no underscore is passed over. -/
theorem underscoresBetweenDigits_cons_of_ne {digit : Bool} {c : Char} {rest : List Char}
    (hc : c ≠ '_') :
    underscoresBetweenDigits digit (c :: rest) = underscoresBetweenDigits c.isDigit rest := by
  simp [underscoresBetweenDigits, hc]

/-- A point, a mark or a sign comes between digits, and what follows starts anew. -/
theorem underscoresBetweenDigits_cons {digit : Bool} {c : Char} {rest : List Char}
    (hc : isDigitOrUnderscore c = false) :
    underscoresBetweenDigits digit (c :: rest) = underscoresBetweenDigits false rest := by
  simp only [isDigitOrUnderscore, Bool.or_eq_false_iff, beq_eq_false_iff_ne] at hc
  rw [underscoresBetweenDigits_cons_of_ne hc.2, hc.1]

/-- No digit stands where the characters of a run stop. -/
theorem not_any_isDigit_of_stops {rest : List Char} (h : Stops isDigitOrUnderscore rest) :
    rest.head?.any Char.isDigit = false := by
  cases rest with
  | nil => rfl
  | cons c rest =>
      have hc := stops_cons.mp h
      simp only [isDigitOrUnderscore, Bool.or_eq_false_iff] at hc
      simpa using hc.1

/-- Behind an underscore there is a digit and no second underscore if there are groups of digits. -/
theorem isGrouped_ten_iff {run rest : List Char} (hrest : Stops isDigitOrUnderscore rest) :
    IsGrouped 10 run ↔ (run ++ rest).head?.any Char.isDigit = true ∧ Continues 10 false run := by
  cases run with
  | nil => simp [not_isGrouped_nil, not_any_isDigit_of_stops hrest]
  | cons c run => simp [continues_false_iff, isGrouped_cons_iff, isDigit_ten_iff]

/-- **The rule for decimals.** A run of digits and underscores is groups of digits, or goes on
behind a digit with an underscore and groups of digits. -/
theorem underscoresBetweenDigits_append {run rest : List Char}
    (hrun : ∀ c ∈ run, isDigitOrUnderscore c = true) (hrest : Stops isDigitOrUnderscore rest)
    (digit : Bool) :
    underscoresBetweenDigits digit (run ++ rest) = true ↔
      Continues 10 digit run ∧ underscoresBetweenDigits false rest = true := by
  induction run generalizing digit with
  | nil =>
      have hnew : underscoresBetweenDigits digit rest = underscoresBetweenDigits false rest := by
        cases rest with
        | nil => rfl
        | cons c rest =>
            have hc := stops_cons.mp hrest
            rw [underscoresBetweenDigits_cons hc, underscoresBetweenDigits_cons hc]
      rw [List.nil_append, hnew]
      simp [Continues]
  | cons c run ih =>
      rw [List.forall_mem_cons] at hrun
      by_cases hc : c = '_'
      · subst hc
        have hstep : underscoresBetweenDigits digit ('_' :: (run ++ rest)) =
            (digit && (run ++ rest).head?.any Char.isDigit &&
              underscoresBetweenDigits false (run ++ rest)) := rfl
        rw [continues_underscore_iff, isGrouped_ten_iff hrest, List.cons_append, hstep,
          Bool.and_eq_true, Bool.and_eq_true, ih hrun.2 false, ← and_assoc, ← and_assoc]
      · have hdigit : c.isDigit = true := by simpa [isDigitOrUnderscore, hc] using hrun.1
        rw [continues_cons_of_ne hc, List.cons_append, underscoresBetweenDigits_cons_of_ne hc,
          hdigit, ih hrun.2 true, isDigit_ten_iff]
        simp [hdigit]

/-- Groups of decimal digits are made of digits and underscores. -/
theorem IsGrouped.isDigitOrUnderscore {run : List Char} (h : IsGrouped 10 run) {c : Char}
    (hc : c ∈ run) : Numeral.isDigitOrUnderscore c = true := by
  rcases (h.continues false).mem hc with rfl | hdigit
  · rfl
  · simp [Numeral.isDigitOrUnderscore, isDigit_ten_iff.mp hdigit]

namespace Written

/-- The parts of a decimal as they may be written: groups of digits, or nothing except for the
exponent. -/
structure Grouped (d : Written) : Prop where
  whole : d.whole = [] ∨ IsGrouped 10 d.whole
  fraction : ∀ run, d.fraction = some run → run = [] ∨ IsGrouped 10 run
  exponent : ∀ mark sign digits, d.exponent = some (mark, sign, digits) →
    (mark = 'e' ∨ mark = 'E') ∧ (∀ s, sign = some s → s = '+' ∨ s = '-') ∧ IsGrouped 10 digits

/-- The underscores of an exponent stand between its digits. -/
theorem underscoresBetweenDigits_exponentChars
    {exponent : Option (Char × Option Char × List Char)}
    (h : ∀ parts, exponent = some parts → ProperExponent parts) :
    underscoresBetweenDigits false (exponentChars exponent) = true ↔
      ∀ mark sign digits, exponent = some (mark, sign, digits) → IsGrouped 10 digits := by
  rcases exponent with _ | ⟨mark, sign, digits⟩
  · simp [exponentChars, underscoresBetweenDigits]
  · obtain ⟨hmark, hsign, hhead, hdigits⟩ := h _ rfl
    have hseparators : underscoresBetweenDigits false (exponentChars (some (mark, sign, digits))) =
        underscoresBetweenDigits false (digits ++ []) := by
      rw [exponentChars, List.cons_append, List.append_nil, underscoresBetweenDigits_cons
        (by rcases hmark with rfl | rfl <;> rfl)]
      cases sign with
      | none => rfl
      | some s =>
          exact underscoresBetweenDigits_cons (by rcases hsign s rfl with rfl | rfl <;> rfl)
    have hgrouped : IsGrouped 10 digits ↔ Continues 10 false digits := by
      rw [isGrouped_ten_iff stops_nil, List.append_nil]
      exact and_iff_right hhead
    rw [hseparators, underscoresBetweenDigits_append hdigits stops_nil, ← hgrouped]
    simp [underscoresBetweenDigits]

/-- The rule for what stands behind the whole part, part by part. -/
theorem underscoresBetweenDigits_fraction {fraction : Option (List Char)} {rest : List Char}
    (h : ∀ run, fraction = some run → ∀ c ∈ run, isDigitOrUnderscore c = true)
    (hrest : Stops isDigitOrUnderscore rest) :
    Stops isDigitOrUnderscore ((fraction.map ('.' :: ·)).getD [] ++ rest) ∧
      (underscoresBetweenDigits false ((fraction.map ('.' :: ·)).getD [] ++ rest) = true ↔
        (∀ run, fraction = some run → run = [] ∨ IsGrouped 10 run) ∧
          underscoresBetweenDigits false rest = true) := by
  cases fraction with
  | none => simpa using hrest
  | some run =>
      have hpoint : isDigitOrUnderscore '.' = false := rfl
      refine ⟨stops_cons.mpr hpoint, ?_⟩
      rw [Option.map_some, Option.getD_some, List.cons_append, underscoresBetweenDigits_cons hpoint,
        underscoresBetweenDigits_append (h run rfl) hrest, continues_false_iff]
      simp

/-- An exponent starts with no digit. -/
theorem Proper.stops_exponentChars {d : Written} (h : d.Proper) :
    Stops isDigitOrUnderscore (exponentChars d.exponent) := by
  have hstops := Written.stops_exponentChars h.exponent stops_nil
  rw [List.append_nil] at hstops
  exact hstops.mono fun c hc => by simp [hc]

/-- The rule for decimals, part by part. -/
theorem Proper.underscoresBetweenDigits_iff {d : Written} (h : d.Proper) :
    underscoresBetweenDigits false d.chars = true ↔ d.Grouped := by
  obtain ⟨hstopsFraction, hfraction⟩ :=
    underscoresBetweenDigits_fraction h.fraction h.stops_exponentChars
  rw [chars_eq, underscoresBetweenDigits_append h.whole hstopsFraction, hfraction,
    underscoresBetweenDigits_exponentChars h.exponent, continues_false_iff]
  constructor
  · rintro ⟨hwhole, hrun, hdigits⟩
    refine ⟨hwhole, hrun, fun mark sign digits hparts => ?_⟩
    obtain ⟨hmark, hsign, -⟩ := h.exponent _ hparts
    exact ⟨hmark, hsign, hdigits mark sign digits hparts⟩
  · intro hd
    exact ⟨hd.whole, hd.fraction, fun mark sign digits hparts =>
      (hd.exponent mark sign digits hparts).2.2⟩

/-- A number in groups of digits is a proper one. -/
theorem Grouped.proper {d : Written} (h : d.Grouped) : d.Proper := by
  refine ⟨fun c hc => ?_, fun run hrun c hc => ?_, ?_⟩
  · rcases h.whole with hempty | hgrouped
    · rw [hempty] at hc
      cases hc
    · exact hgrouped.isDigitOrUnderscore hc
  · rcases h.fraction run hrun with rfl | hgrouped
    · cases hc
    · exact hgrouped.isDigitOrUnderscore hc
  · rintro ⟨mark, sign, digits⟩ hparts
    obtain ⟨hmark, hsign, hgrouped⟩ := h.exponent mark sign digits hparts
    refine ⟨hmark, hsign, ?_, fun c hc => hgrouped.isDigitOrUnderscore hc⟩
    simpa using ((isGrouped_ten_iff stops_nil).mp hgrouped).1

/-- A decimal with a point or an exponent, and with a digit before or behind the point. -/
structure FloatForm (d : Written) : Prop extends Grouped d where
  marked : d.fraction ≠ none ∨ d.exponent ≠ none
  digits : d.whole ≠ [] ∨ ∃ run, d.fraction = some run ∧ run ≠ []

/-- A point starts a number if digits follow it. -/
theorem startsNumber_point_iff {run rest : List Char} (hrun : run = [] ∨ IsGrouped 10 run)
    (hrest : Stops isDigitOrUnderscore rest) :
    Token.startsNumber '.' (run ++ rest) = true ↔ run ≠ [] := by
  have hpoint : Token.startsNumber '.' (run ++ rest) = (run ++ rest).head?.any Char.isDigit := rfl
  rw [hpoint]
  rcases hrun with rfl | hgrouped
  · simp [not_any_isDigit_of_stops hrest]
  · refine iff_of_true ((isGrouped_ten_iff hrest).mp hgrouped).1 ?_
    rintro rfl
    exact not_isGrouped_nil hgrouped

/-- A decimal starts as a number if it has a digit before or behind the point. -/
theorem Grouped.startsNumber_iff {d : Written} (h : d.Grouped) :
    (∃ c rest, d.chars = c :: rest ∧ Token.startsNumber c rest = true) ↔
      d.whole ≠ [] ∨ ∃ run, d.fraction = some run ∧ run ≠ [] := by
  have hstops := h.proper.stops_exponentChars
  obtain ⟨whole, fraction, exponent⟩ := d
  rw [chars_eq]
  rcases h.whole with rfl | hgrouped
  · cases fraction with
    | none =>
        -- Only an exponent is left, and its mark starts no number.
        refine iff_of_false ?_ (by simp)
        rintro ⟨c, rest, hchars, hstart⟩
        rcases exponent with _ | ⟨mark, sign, digits⟩
        · cases hchars
        · obtain ⟨rfl, rfl⟩ := List.cons.inj hchars
          rcases (h.exponent _ _ _ rfl).1 with rfl | rfl <;> cases hstart
    | some run =>
        have hpoint := startsNumber_point_iff (h.fraction run rfl) hstops
        constructor
        · rintro ⟨c, rest, hchars, hstart⟩
          obtain ⟨rfl, rfl⟩ := List.cons.inj hchars
          exact .inr ⟨run, rfl, hpoint.mp hstart⟩
        · rintro (hne | ⟨run', hrun, hne⟩)
          · exact absurd rfl hne
          · cases hrun
            exact ⟨'.', _, rfl, hpoint.mpr hne⟩
  · obtain ⟨c, rest, hwhole, hdigit⟩ := hgrouped.exists_head
    dsimp only at hwhole
    subst hwhole
    refine iff_of_true ⟨c, _, rfl, ?_⟩ (.inl (List.cons_ne_nil _ _))
    simp [Token.startsNumber, isDigit_ten_iff.mp hdigit]

end Written

/-! ## The two kinds -/

/-- The letters that announce a radix. -/
def radixMarks : List (Char × ℕ) :=
  [('x', 16), ('X', 16), ('o', 8), ('O', 8), ('b', 2), ('B', 2)]

/-- The marks with their radices. -/
theorem mem_radixMarks_iff {mark : Char} :
    (mark, radix) ∈ radixMarks ↔ (mark = 'x' ∨ mark = 'X') ∧ radix = 16 ∨
      (mark = 'o' ∨ mark = 'O') ∧ radix = 8 ∨ (mark = 'b' ∨ mark = 'B') ∧ radix = 2 := by
  simp only [radixMarks, List.mem_cons, List.not_mem_nil, or_false, Prod.mk.injEq, or_and_right,
    or_assoc]

/-- A radix is found behind a zero and a mark. -/
theorem radix?_eq_some_iff {cs : List Char} :
    radix? cs = some radix ↔ ∃ mark body, cs = '0' :: mark :: body ∧
      (mark, radix) ∈ radixMarks := by
  constructor
  · intro h
    unfold radix? at h
    split at h
    · rename_i mark body
      refine ⟨mark, body, rfl, mem_radixMarks_iff.mpr ?_⟩
      grind
    · cases h
  · rintro ⟨mark, body, rfl, hmark⟩
    rcases mem_radixMarks_iff.mp hmark with
      ⟨rfl | rfl, rfl⟩ | ⟨rfl | rfl, rfl⟩ | ⟨rfl | rfl, rfl⟩ <;>
      rfl

/-- No radix is more than sixteen. -/
theorem le_of_mem_radixMarks {mark : Char} (h : (mark, radix) ∈ radixMarks) : radix ≤ 16 := by
  rcases mem_radixMarks_iff.mp h with ⟨-, rfl⟩ | ⟨-, rfl⟩ | ⟨-, rfl⟩ <;> decide

/-- No radix is announced in front of a decimal. -/
theorem Written.Proper.radix?_chars {d : Written} (h : d.Proper) : radix? d.chars = none := by
  rcases hradix : radix? d.chars with _ | radix
  · rfl
  · obtain ⟨mark, body, hchars, hmark⟩ := radix?_eq_some_iff.mp hradix
    have htake := take_chars_append h stops_nil
    have hzero : take ('0' :: mark :: body) = ⟨['0'], none, none⟩ := by
      rcases mem_radixMarks_iff.mp hmark with
        ⟨rfl | rfl, -⟩ | ⟨rfl | rfl, -⟩ | ⟨rfl | rfl, -⟩ <;> rfl
    rw [List.append_nil, hchars, hzero] at htake
    rw [← htake] at hchars
    cases hchars

/-- Groups of digits are word characters. -/
theorem IsGroups.isWordChar {groups : List (List Char)} (h : IsGroups radix groups) {c : Char}
    (hc : c ∈ joined groups) : Text.isWordChar c = true := by
  rcases (IsGrouped.continues ⟨groups, h, rfl⟩ false).mem hc with rfl | hdigit
  · rfl
  · exact hdigit.isWordChar

/-- A whole text is an integer with a radix if it has groups of digits behind the mark. -/
theorem scan_marked_iff {mark : Char} (hmark : (mark, radix) ∈ radixMarks) {body : List Char}
    {l : Literal} :
    scan ('0' :: mark :: body) = .ok (l, body.length + 2) ↔
      (∃ lead groups, (lead = [] ∨ lead = ['_']) ∧ IsGroups radix groups ∧
        body = lead ++ joined groups) ∧ radixLiteral radix (digitsOf body) = l := by
  have hradix := le_of_mem_radixMarks hmark
  rw [scan_eq_ok_iff, radix?_eq_some_iff.mpr ⟨mark, body, rfl, hmark⟩, Option.elim_some,
    scanRadix_cons_cons]
  constructor
  · rintro ⟨hbody, -⟩
    split at hbody
    · rename_i hrule
      rw [Except.ok.injEq, Prod.mk.injEq] at hbody
      -- As many characters are taken as there are, so all are.
      have htaken : body.takeWhile isWordChar = body :=
        (List.takeWhile_prefix _).eq_of_length (by omega)
      rw [htaken] at hrule hbody
      exact ⟨(isRadixBody_iff hradix (List.takeWhile_eq_self_iff.mp htaken)).mp hrule, hbody.1⟩
    · cases hbody
  · rintro ⟨⟨lead, groups, hlead, hgroups, hbody⟩, rfl⟩
    have hword : ∀ c ∈ body, isWordChar c = true := by
      intro c hc
      rw [hbody, List.mem_append] at hc
      rcases hc with hc | hc
      · rcases hlead with rfl | rfl
        · cases hc
        · rw [List.mem_singleton.mp hc]
          rfl
      · exact hgroups.isWordChar hc
    have hrule := (isRadixBody_iff hradix hword).mpr ⟨lead, groups, hlead, hgroups, hbody⟩
    rw [List.takeWhile_eq_self_iff.mpr hword, if_pos hrule, Nat.add_comm]
    exact ⟨rfl, by simp [stops_nil]⟩

/-- A whole text is a decimal if it has the parts of one. -/
theorem scan_decimal_iff {cs : List Char} (hradix : radix? cs = none) {l : Literal} :
    scan cs = .ok (l, cs.length) ↔ ∃ d : Written, d.Grouped ∧ d.chars = cs ∧ d.literal = l := by
  rw [scan_eq_ok_iff, hradix, Option.elim_none, scanDecimal]
  constructor
  · rintro ⟨hdecimal, -⟩
    split at hdecimal
    · rename_i hrule
      rw [Except.ok.injEq, Prod.mk.injEq] at hdecimal
      obtain ⟨rest, hcs⟩ := Written.exists_chars_take_append cs
      have hchars : (Written.take cs).chars = cs :=
        List.IsPrefix.eq_of_length ⟨rest, hcs.symm⟩ hdecimal.2
      exact ⟨Written.take cs,
        (Written.proper_take cs).underscoresBetweenDigits_iff.mp hrule, hchars,
        hdecimal.1⟩
    · cases hdecimal
  · rintro ⟨d, hd, rfl, rfl⟩
    have htake := Written.take_chars_append hd.proper stops_nil
    rw [List.append_nil] at htake
    rw [htake, List.drop_length]
    exact ⟨if_pos (hd.proper.underscoresBetweenDigits_iff.mpr hd), stops_nil⟩

/-! ## Numbers -/

/-- The texts of integers with the integers they stand for: behind a radix mark digits of that
radix, in front of which an underscore may stand, or decimal digits. -/
inductive WritesInteger : List Char → ℕ → Prop
  | marked {mark : Char} {radix : ℕ} {lead : List Char} {groups : List (List Char)}
      (hmark : (mark, radix) ∈ radixMarks) (hlead : lead = [] ∨ lead = ['_'])
      (hgroups : IsGroups radix groups) :
      WritesInteger ('0' :: mark :: (lead ++ joined groups)) (groupsValue radix groups)
  | decimal {groups : List (List Char)} (hgroups : IsGroups 10 groups) :
      WritesInteger (joined groups) (groupsValue 10 groups)

/-- The texts of decimals with a point or an exponent. -/
def WritesFloat (cs : List Char) : Prop :=
  ∃ d : Written, d.FloatForm ∧ d.chars = cs

/-- The literal of a written integer: the integer itself below the bound, and a double from there
on. -/
def IsLiteralOf (n : ℕ) (l : Literal) : Prop :=
  (n < 2 ^ 127 → l = .int n) ∧ (2 ^ 127 ≤ n → ∃ x, l = .float x)

/-- A literal is an integer below the bound, and else a double. -/
theorem isLiteralOf_ite (n : ℕ) (x : Double) :
    IsLiteralOf n (if n < Literal.intBound then .int n else .float x) := by
  have hbound : Literal.intBound = 2 ^ 127 := rfl
  rw [hbound]
  exact ⟨fun h => if_pos h, fun h => ⟨x, if_neg (Nat.not_lt.mpr h)⟩⟩

end Numeral

namespace Token

open Numeral

/-- Only what starts a number is read as one. -/
theorem startsNumber_of_scan {c : Char} {rest : List Char} {l : Literal} {more : ℕ}
    (h : scan c rest = .token (.number l) more) : startsNumber c rest = true := by
  grind [scan, scanQuoted, ofWord, symbol_of_scanSymbol, startsNumber]

/-- Characters are those of a number if they start one and are all taken. -/
theorem isLexeme_number_iff {l : Literal} {cs : List Char} :
    IsLexeme (.number l) cs ↔
      (∃ c rest, cs = c :: rest ∧ startsNumber c rest = true) ∧
        Numeral.scan cs = .ok (l, cs.length) := by
  constructor
  · intro h
    obtain ⟨c, more, rfl, -⟩ := id h
    obtain ⟨-, hscan⟩ := isLexeme_cons_iff.mp h
    have hstart := startsNumber_of_scan hscan
    refine ⟨⟨c, more, rfl, hstart⟩, ?_⟩
    rw [scan_of_startsNumber hstart, scanNumber] at hscan
    split at hscan
    · rename_i l' count hnumber
      rw [Scanned.token.injEq, Token.number.injEq] at hscan
      obtain ⟨rfl, hcount⟩ := hscan
      -- The first character goes on, so a number takes at least that one.
      have hpos : count ≠ 0 := by
        rintro rfl
        have hstops := (scan_eq_ok_iff.mp hnumber).2
        rw [List.drop_zero, stops_cons, goesOn_of_startsNumber hstart] at hstops
        cases hstops
      rw [hnumber, List.length_cons, ← hcount, Nat.sub_add_cancel (Nat.pos_of_ne_zero hpos)]
    · cases hscan
  · rintro ⟨⟨c, rest, rfl, hstart⟩, hnumber⟩
    refine isLexeme_cons_iff.mpr ⟨?_, ?_⟩
    · simpa using not_isBlank_of_goesOn (goesOn_of_startsNumber hstart)
    · rw [scan_of_startsNumber hstart, scanNumber, hnumber]
      rfl

/-- A decimal is read from its characters if it has a digit before or behind the point. -/
theorem isLexeme_of_grouped {d : Written} (h : d.Grouped)
    (hdigits : d.whole ≠ [] ∨ ∃ run, d.fraction = some run ∧ run ≠ []) :
    IsLexeme (.number d.literal) d.chars :=
  isLexeme_number_iff.mpr ⟨h.startsNumber_iff.mpr hdigits,
    (scan_decimal_iff h.proper.radix?_chars).mpr ⟨d, h, rfl, rfl⟩⟩

/-- Groups of decimal digits are read as the integer they stand for. -/
theorem isLexeme_joined {groups : List (List Char)} (h : IsGroups 10 groups) :
    IsLexeme (.number (.ofNat (groupsValue 10 groups))) (joined groups) := by
  have hgrouped : IsGrouped 10 (joined groups) := ⟨groups, h, rfl⟩
  have hd : Written.Grouped ⟨joined groups, none, none⟩ := ⟨.inr hgrouped, by simp, by simp⟩
  have hne : joined groups ≠ [] := fun hnil => not_isGrouped_nil (hnil ▸ hgrouped)
  have hlexeme : IsLexeme (.number (.ofNat (value 10 (digitsOf (joined groups))))) _ :=
    isLexeme_of_grouped hd (.inl hne)
  rw [Written.chars_eq, value_digitsOf_joined h] at hlexeme
  simpa [Written.exponentChars] using hlexeme

/-- Groups of digits behind a radix mark are read in that radix. -/
theorem isLexeme_marked {mark : Char} {radix : ℕ} {lead : List Char} {groups : List (List Char)}
    (hmark : (mark, radix) ∈ radixMarks) (hlead : lead = [] ∨ lead = ['_'])
    (h : IsGroups radix groups) :
    IsLexeme (.number (radixLiteral radix groups.flatten))
      ('0' :: mark :: (lead ++ joined groups)) := by
  have hdigits : digitsOf (lead ++ joined groups) = groups.flatten := by
    rw [← digitsOf_joined h.isDigit]
    rcases hlead with rfl | rfl <;> rfl
  refine isLexeme_number_iff.mpr ⟨⟨'0', _, rfl, rfl⟩, (scan_marked_iff hmark).mpr ?_⟩
  exact ⟨⟨lead, groups, hlead, h, rfl⟩, by rw [hdigits]⟩

/-- Integers are read, and as themselves if they are below the bound. -/
theorem exists_isLexeme_of_writesInteger {cs : List Char} {n : ℕ} (h : WritesInteger cs n) :
    ∃ l, IsLexeme (.number l) cs ∧ IsLiteralOf n l := by
  cases h with
  | @marked mark radix lead groups hmark hlead hgroups =>
      refine ⟨_, isLexeme_marked hmark hlead hgroups, ?_⟩
      rw [radixLiteral, ← digitsOf_joined hgroups.isDigit, value_digitsOf_joined hgroups]
      exact isLiteralOf_ite _ _
  | @decimal groups hgroups => exact ⟨_, isLexeme_joined hgroups, isLiteralOf_ite _ _⟩

/-- Decimals with a point or an exponent are read as doubles. -/
theorem exists_isLexeme_of_writesFloat {cs : List Char} (h : WritesFloat cs) :
    ∃ x, IsLexeme (.number (.float x)) cs := by
  obtain ⟨d, hd, rfl⟩ := h
  have hfloat : d.isFloat = true := by
    rw [Written.isFloat, Bool.or_eq_true, Option.isSome_iff_ne_none, Option.isSome_iff_ne_none]
    exact hd.marked
  have hlexeme := isLexeme_of_grouped hd.toGrouped hd.digits
  rw [Written.literal, if_pos hfloat] at hlexeme
  exact ⟨_, hlexeme⟩

/-- What is read as a number is an integer or a decimal with a point or an exponent. -/
theorem writes_of_isLexeme {cs : List Char} {l : Literal} (h : IsLexeme (.number l) cs) :
    (∃ n, WritesInteger cs n) ∨ WritesFloat cs := by
  obtain ⟨hstart, hscan⟩ := isLexeme_number_iff.mp h
  rcases hradix : radix? cs with _ | radix
  · obtain ⟨d, hd, rfl, -⟩ := (scan_decimal_iff hradix).mp hscan
    have hdigits := hd.startsNumber_iff.mp hstart
    by_cases hmarked : d.fraction ≠ none ∨ d.exponent ≠ none
    · exact .inr ⟨d, ⟨hd, hmarked, hdigits⟩, rfl⟩
    · obtain ⟨whole, fraction, exponent⟩ := d
      obtain ⟨rfl, rfl⟩ : fraction = none ∧ exponent = none := by simpa using hmarked
      rcases hd.whole with rfl | ⟨groups, hgroups, rfl⟩
      · simp at hdigits
      · rw [Written.chars_eq]
        refine .inl ⟨groupsValue 10 groups, ?_⟩
        simpa [Written.exponentChars] using WritesInteger.decimal hgroups
  · obtain ⟨mark, body, rfl, hmark⟩ := radix?_eq_some_iff.mp hradix
    obtain ⟨⟨lead, groups, hlead, hgroups, rfl⟩, -⟩ := (scan_marked_iff hmark).mp hscan
    exact .inl ⟨_, .marked hmark hlead hgroups⟩

/-- **The texts of numbers.** A text is read as one number that covers all of it exactly if it is
written as an integer or as a decimal with a point or an exponent. An integer less than `2 ^ 127` is
read as itself, in whatever radix and with whatever leading zeros and underscores; wider integers
and decimals with a point or an exponent become doubles. -/
theorem all_eq_number_iff (text : String) :
    ((∃ l, all text.toList = .ok [⟨.number l, ⟨0, text.utf8ByteSize⟩⟩]) ↔
      (∃ n, WritesInteger text.toList n) ∨ WritesFloat text.toList) ∧
    (∀ n, WritesInteger text.toList n →
      ∃ l, all text.toList = .ok [⟨.number l, ⟨0, text.utf8ByteSize⟩⟩] ∧
        (n < 2 ^ 127 → l = .int n) ∧ (2 ^ 127 ≤ n → ∃ x, l = .float x)) ∧
    (WritesFloat text.toList →
      ∃ x, all text.toList = .ok [⟨.number (.float x), ⟨0, text.utf8ByteSize⟩⟩]) := by
  rw [utf8ByteSize_eq]
  simp only [all_eq_singleton_iff]
  refine ⟨⟨fun ⟨l, hl⟩ => writes_of_isLexeme hl, ?_⟩,
    fun n => exists_isLexeme_of_writesInteger, exists_isLexeme_of_writesFloat⟩
  rintro (⟨n, hn⟩ | hfloat)
  · obtain ⟨l, hl, -⟩ := exists_isLexeme_of_writesInteger hn
    exact ⟨l, hl⟩
  · obtain ⟨x, hx⟩ := exists_isLexeme_of_writesFloat hfloat
    exact ⟨_, hx⟩

/-- `0x_00F_f` is 255, `1_0.5e-3` is a double, and `1__0` is neither. -/
theorem all_eq_number_iff_grouped :
    (WritesInteger "0x_00F_f".toList 255 ∧
      all "0x_00F_f".toList = .ok [⟨.number (.int 255), ⟨0, 8⟩⟩]) ∧
    (∃ x, all "1_0.5e-3".toList = .ok [⟨.number (.float x), ⟨0, 8⟩⟩]) ∧
    ¬((∃ n, WritesInteger "1__0".toList n) ∨ WritesFloat "1__0".toList) := by
  refine ⟨?_, ?_, ?_⟩
  · have hmark : ('x', 16) ∈ radixMarks := by simp [radixMarks]
    have hgroups : IsGroups 16 [['0', '0', 'F'], ['f']] := by
      refine isGroups_cons (by simp) ?_ (.inr (isGroups_cons (by simp) ?_ (.inl rfl)))
      · simp [IsDigit, digitSigns]
      · simp [IsDigit, digitSigns]
    have hwrites : WritesInteger "0x_00F_f".toList 255 := .marked hmark (.inr rfl) hgroups
    obtain ⟨l, hall, hint, -⟩ := (all_eq_number_iff "0x_00F_f").2.1 255 hwrites
    rw [hint (by decide)] at hall
    exact ⟨hwrites, hall⟩
  · have hdigit : ∀ {c : Char}, c.isDigit = true → IsGrouped 10 [c] := fun hc =>
      isGrouped_cons_iff.mpr ⟨isDigit_ten_iff.mpr hc, .inl rfl⟩
    have hwhole : IsGrouped 10 ['1', '_', '0'] :=
      isGrouped_cons_iff.mpr ⟨isDigit_ten_iff.mpr rfl, .inr (.inr ⟨rfl, _, rfl, hdigit rfl⟩)⟩
    refine (all_eq_number_iff "1_0.5e-3").2.2
      ⟨⟨['1', '_', '0'], some ['5'], some ('e', some '-', ['3'])⟩,
        ⟨⟨.inr hwhole, ?_, ?_⟩, ?_, ?_⟩, rfl⟩
    · rintro run ⟨⟩
      exact .inr (hdigit rfl)
    · rintro mark sign digits ⟨⟩
      exact ⟨.inl rfl, by simp, hdigit rfl⟩
    · simp
    · simp
  · rw [← (all_eq_number_iff "1__0").1]
    rintro ⟨l, hl⟩
    cases hl

end Token

end Elementwise
