import Elementwise.Equation
import Elementwise.Proofs.Grammar.Reading

/-!
# Written literals

Text has no negative numbers: a sign is an operator. So every integer that is written lies between
zero and the bound, and a written literal is its own double negative
(`Equation.negate_negate_of_parse`). The way from the text to the tree is followed once: what the
numeral is (`Numeral.negate_negate_of_scan`), where a token comes from
(`Token.exists_scan_of_allFrom`), and that the leaves of a tree are tokens (`Grammar.mem_of_leaf`).
-/

namespace Elementwise

namespace Literal

/-- A literal within the bound is its own double negative. -/
theorem negate_negate_int {n : Int} (h : n.natAbs < intBound) :
    (Literal.int n).negate.negate = .int n := by
  have hleast : n ≠ -(intBound : Int) := by omega
  have hgreatest : -n ≠ -(intBound : Int) := by omega
  rw [negate, if_neg hleast, negate, if_neg hgreatest, Int.neg_neg]

/-- A double is its own double negative. -/
theorem negate_negate_float (x : Double) : (Literal.float x).negate.negate = .float x := by
  rw [negate, negate, Precision.negate_negate]

/-- A natural number as it is written is its own double negative. -/
theorem negate_negate_ofNat (n : Nat) : (ofNat n).negate.negate = ofNat n := by
  unfold ofNat
  split
  · rename_i h
    exact negate_negate_int (by simpa using h)
  · exact negate_negate_float _

end Literal

namespace Numeral

/-- Integers with a radix are their own double negatives. -/
theorem negate_negate_radixLiteral (radix : Nat) (digits : List Char) :
    (radixLiteral radix digits).negate.negate = radixLiteral radix digits := by
  unfold radixLiteral
  split
  · rename_i h
    exact Literal.negate_negate_int (by simpa using h)
  · exact Literal.negate_negate_float _

/-- Decimals are their own double negatives. -/
theorem negate_negate_literal (d : Written) : d.literal.negate.negate = d.literal := by
  unfold Written.literal
  split
  · exact Literal.negate_negate_float _
  · exact Literal.negate_negate_ofNat _

/-- A number that is read is an integer with a radix or a decimal. -/
theorem scan_cases {cs : List Char} {l : Literal} {count : Nat} (h : scan cs = .ok (l, count)) :
    (∃ radix, scanRadix radix cs = .ok (l, count)) ∨ scanDecimal cs = .ok (l, count) := by
  unfold scan at h
  dsimp only at h
  split at h
  · obtain ⟨⟨_, _⟩, hnumber, h⟩ := bind_eq_ok_iff.mp h
    dsimp only at h
    split at h
    · cases h
      exact .inl ⟨_, hnumber⟩
    · cases h
  · obtain ⟨⟨_, _⟩, hnumber, h⟩ := bind_eq_ok_iff.mp h
    dsimp only at h
    split at h
    · cases h
      exact .inr hnumber
    · cases h

/-- Numbers that are read are their own double negatives. -/
theorem negate_negate_of_scan {cs : List Char} {l : Literal} {count : Nat}
    (h : scan cs = .ok (l, count)) : l.negate.negate = l := by
  rcases scan_cases h with ⟨radix, hradix⟩ | hdecimal
  · unfold scanRadix at hradix
    dsimp only at hradix
    split at hradix
    · cases hradix
      exact negate_negate_radixLiteral _ _
    · cases hradix
  · unfold scanDecimal at hdecimal
    dsimp only at hdecimal
    split at hdecimal
    · cases hdecimal
      exact negate_negate_literal _
    · cases hdecimal

end Numeral

namespace Token

/-- A sign is read as a symbol. -/
theorem symbol_of_scanSymbol {c : Char} {rest : List Char} {token : Token} {more : Nat}
    (h : scanSymbol c rest = .token token more) : ∃ sign, token = .symbol sign := by
  unfold scanSymbol at h
  split at h
  · cases h
    exact ⟨_, rfl⟩
  · split at h
    · cases h
      exact ⟨_, rfl⟩
    · cases h

/-- Only the start of a number gives a number. -/
theorem scanNumber_of_scan {c : Char} {rest : List Char} {l : Literal} {more : Nat}
    (h : scan c rest = .token (.number l) more) :
    scanNumber (c :: rest) = .token (.number l) more := by
  grind [scan, scanQuoted, ofWord, symbol_of_scanSymbol]

/-- A number token that is read is its own double negative. -/
theorem negate_negate_of_scan {c : Char} {rest : List Char} {l : Literal} {more : Nat}
    (h : scan c rest = .token (.number l) more) : l.negate.negate = l := by
  have hnumber := scanNumber_of_scan h
  unfold scanNumber at hnumber
  split at hnumber
  · rename_i hscan
    cases hnumber
    exact Numeral.negate_negate_of_scan hscan
  · cases hnumber

/-- Every token of a text was read at one of its characters. -/
theorem exists_scan_of_allFrom {position covered : Nat} {cs : List Char}
    {tokens : List (Located Token)} (h : allFrom position covered cs = .ok tokens) {token : Token}
    (htoken : token ∈ Parser.values tokens) : ∃ c rest more, scan c rest = .token token more := by
  fun_induction allFrom position covered cs generalizing tokens with
  | case1 =>
      cases h
      cases htoken
  | case2 _ _ _ _ ih => exact ih h htoken
  | case3 _ _ _ _ ih => exact ih h htoken
  | case4 => cases h
  | case5 _ c rest _ value more hscan _ hrest =>
      rename_i ih
      cases h
      rw [Parser.values_cons, List.mem_cons] at htoken
      rcases htoken with rfl | htoken
      · exact ⟨c, rest, more, hscan⟩
      · exact ih hrest htoken
  | case6 => cases h

end Token

/-! ## Leaves -/

/-- The token that a leaf is read from. -/
def Expr.token? : Expr → Option Token
  | .number value => some (.number value)
  | .quoted content => some (.quoted content)
  | .name word => some (.name word)
  | _ => none

namespace Expr

variable {leaf : Expr} {token : Token}

/-- A leaf of a unary node is one of its operand. -/
theorem leaf_of_unary (htoken : leaf.token? = some token) {op : UnaryOp} {operand : Expr}
    (h : leaf ∈ (unary op operand).visits fun _ => true) :
    leaf ∈ operand.visits fun _ => true := by
  simp only [visits, List.mem_cons, if_true] at h
  rcases h with rfl | h
  · cases htoken
  · exact h

/-- A leaf of a binary node is one of its operands. -/
theorem leaf_of_binary (htoken : leaf.token? = some token) {op : BinaryOp} {left right : Expr}
    (h : leaf ∈ (binary op left right).visits fun _ => true) :
    (leaf ∈ left.visits fun _ => true) ∨ leaf ∈ right.visits fun _ => true := by
  simp only [visits, List.mem_cons, List.mem_append, if_true] at h
  rcases h with rfl | h
  · cases htoken
  · exact h

end Expr

namespace Grammar

mutual
/-- The leaves of a derived tree are among its tokens. -/
theorem mem_of_leaf {level : Level} {w : List Token} {t leaf : Expr} {token : Token}
    (htoken : leaf.token? = some token) :
    Derives level w t → leaf ∈ t.visits (fun _ => true) → token ∈ w
  | .conditional hbody htest halternative, hleaf => by
      simp only [Expr.visits, List.mem_cons, List.mem_append, if_true] at hleaf
      rcases hleaf with rfl | (hleaf | hleaf) | hleaf
      · cases htoken
      · simp [mem_of_leaf htoken hbody hleaf]
      · simp [mem_of_leaf htoken htest hleaf]
      · simp [mem_of_leaf htoken halternative hleaf]
  | .tighter _ h, hleaf => mem_of_leaf htoken h hleaf
  | .left _ _ hleft hright, hleaf
  | .comparison _ hleft hright, hleaf
  | .power hleft hright, hleaf => by
      rcases Expr.leaf_of_binary htoken hleaf with hleaf | hleaf
      · simp [mem_of_leaf htoken hleft hleaf]
      · simp [mem_of_leaf htoken hright hleaf]
  | .negation h, hleaf
  | .signed _ h, hleaf => by
      simp [mem_of_leaf htoken h (Expr.leaf_of_unary htoken hleaf)]
  | .member h, hleaf => by
      simp only [Expr.visits, List.mem_cons, if_true] at hleaf
      rcases hleaf with rfl | hleaf
      · cases htoken
      · simp [mem_of_leaf htoken h hleaf]
  | .call hfunction harguments, hleaf => by
      simp only [Expr.visits, List.mem_cons, List.mem_append, if_true] at hleaf
      rcases hleaf with rfl | hleaf | hleaf
      · cases htoken
      · simp [mem_of_leaf htoken hfunction hleaf]
      · simp [mem_of_leafOfAll htoken harguments hleaf]
  | .number, hleaf | .quoted, hleaf | .name, hleaf => by
      rw [Expr.visits, List.mem_singleton] at hleaf
      subst hleaf
      cases htoken
      exact List.mem_singleton_self _
  | .paren h, hleaf => by simp [mem_of_leaf htoken h hleaf]

/-- The same of arguments. -/
theorem mem_of_leafOfAll {w : List Token} {ts : List Expr} {leaf : Expr} {token : Token}
    (htoken : leaf.token? = some token) :
    DerivesArguments w ts → leaf ∈ Expr.visitsOfAll (fun _ => true) ts → token ∈ w
  | .none, hleaf => by cases hleaf
  | .last h, hleaf => by
      simp only [Expr.visitsOfAll, List.append_nil] at hleaf
      exact mem_of_leaf htoken h hleaf
  | .more h hrest, hleaf => by
      rw [Expr.visitsOfAll, List.mem_append] at hleaf
      rcases hleaf with hleaf | hleaf
      · simp [mem_of_leaf htoken h hleaf]
      · simp [mem_of_leafOfAll htoken hrest hleaf]
end

end Grammar

/-! ## Trees of equations -/

namespace Equation

/-- What is known of the tree of a text: its tokens form it, and it is not too high. -/
theorem derives_of_parse {text : String} {equation : Equation} (h : parse text = .ok equation) :
    ∃ tokens, Token.all text.toList = .ok tokens ∧
      Grammar.Derives .full (Parser.values tokens) equation.body ∧
      equation.body.height ≤ Parser.maxHeight := by
  obtain ⟨_, -, h⟩ := bind_eq_ok_iff.mp h
  unfold read at h
  split at h
  · rename_i tokens htokens
    unfold ofTokens at h
    split at h
    · cases h
    · split at h
      · rename_i tree htree
        cases h
        obtain ⟨hderives, hheight⟩ := Parser.derives_of_parse htree
        exact ⟨tokens, htokens, hderives, hheight⟩
      · cases h
  · cases h

/-- Every leaf of the tree of a text was read at one of its characters. -/
theorem exists_scan_of_parse {text : String} {equation : Equation} (h : parse text = .ok equation)
    {leaf : Expr} {token : Token} (htoken : leaf.token? = some token)
    (hleaf : leaf ∈ equation.body.visits fun _ => true) :
    ∃ c rest more, Token.scan c rest = .token token more := by
  obtain ⟨tokens, htokens, hderives, -⟩ := derives_of_parse h
  exact Token.exists_scan_of_allFrom htokens (Grammar.mem_of_leaf htoken hderives hleaf)

/-- **Written literals.** The numbers in the tree of a text are their own double negatives. -/
theorem negate_negate_of_parse {text : String} {equation : Equation}
    (h : parse text = .ok equation) {l : Literal}
    (hl : .number l ∈ equation.body.visits fun _ => true) : l.negate.negate = l := by
  obtain ⟨c, rest, more, hscan⟩ := exists_scan_of_parse h rfl hl
  exact Token.negate_negate_of_scan hscan

end Equation

end Elementwise
