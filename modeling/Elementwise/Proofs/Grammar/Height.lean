import Elementwise.Proofs.Grammar.Exactness
import Elementwise.Proofs.Literals

/-!
# The limit on the height of trees

The parsers count the height of a tree while they build it, and refuse a node that would be too
tall. The count is right at every node, also in the loops that build a tree from the left
(`Parser.tracksHeights`). A tree is only ever put below others, so whatever is built on the way to a
tree is no taller than it. Hence the limit refuses what it should and nothing else: with two limits
the same trees are read, as far as both allow them (`Parser.whole_part_carries`).
-/

namespace Elementwise

namespace Parser

open Grammar

variable {c : Context}

/-! ## Heights that are counted -/

/-- The height that is counted with a tree is its height. -/
def Grown.Tracked (g : Grown) : Prop :=
  g.height = g.tree.height

/-- What a parser returns has its height counted. -/
def Tracks (parser : ExprParser) : Prop :=
  ∀ ts g rest, parser ts = .ok (g, rest) → g.Tracked

/-- Heights are counted right by all parsers of a nesting. The loops are followed round by round:
from a tree with its height, any number of rounds leads to a tree with its height. -/
structure TracksHeights (c : Context) (room : Nat) : Prop where
  whole : Tracks (whole c room)
  part : ∀ least, Tracks (part c room least)
  atom : Tracks (atom c (Parser.whole c room))
  operand : ∀ least, Tracks (operand c (Parser.whole c room) (Parser.part c room) least)
  arguments : ∀ rounds ts args height rest,
    arguments c (Parser.whole c room) rounds ts = .ok ((args, height), rest) →
      height = Expr.heightOfAll args
  trailers : ∀ rounds operand, operand.Tracked →
    Tracks (trailers c (Parser.whole c room) rounds operand)
  operators : ∀ least rounds left, left.Tracked →
    Tracks (operators c (Parser.part c room) least rounds left)

/-- Members and calls are counted from the operand on. -/
theorem trailers_tracks {whole : ExprParser} (hwhole : WholeReads c whole) {rounds : Nat}
    {operand : Grown} (hoperand : operand.Tracked) : Tracks (trailers c whole rounds operand) := by
  intro ts g rest h
  fun_induction trailers c whole rounds operand ts with
  | case1 rounds operand dot field fieldSpan after ih =>
      obtain ⟨node, hnode, h⟩ := bind_eq_ok_iff.mp h
      obtain ⟨rfl, -⟩ := grow_eq_ok hnode
      refine ih _ ?_ h
      rw [Grown.Tracked, Expr.height, ← hoperand]
  | case2 => cases h
  | case3 rounds operand paren after ih =>
      obtain ⟨⟨⟨args, height⟩, mid⟩, hargs, h⟩ := bind_eq_ok_iff.mp h
      obtain ⟨last, -, h⟩ := bind_eq_ok_iff.mp h
      obtain ⟨node, hnode, h⟩ := bind_eq_ok_iff.mp h
      obtain ⟨rfl, -⟩ := grow_eq_ok hnode
      refine ih _ _ ?_ h
      rw [Grown.Tracked, Expr.height, ← hoperand, ← (arguments_reads hwhole hargs).2.1]
  | case4 =>
      cases h
      exact hoperand

/-- Operators are counted from the left operand on. -/
theorem operators_tracks {part : Nat → ExprParser} (hpart : PartReads c part) {least rounds : Nat}
    {left : Grown} (hleft : left.Tracked) : Tracks (operators c part least rounds left) := by
  intro ts g rest h
  fun_induction operators c part least rounds left ts with
  | case1 | case3 | case4 =>
      cases h
      exact hleft
  | case2 rounds left sign span after op hop hlt ih =>
      obtain ⟨⟨right, mid⟩, hright, h⟩ := bind_eq_ok_iff.mp h
      dsimp only at h
      split at h
      · cases h
      · obtain ⟨node, hnode, h⟩ := bind_eq_ok_iff.mp h
        obtain ⟨rfl, -⟩ := grow_eq_ok hnode
        refine ih _ _ ?_ h
        rw [Grown.Tracked, Expr.height, ← hleft, (hpart _ _ _ _ hright).1.height_eq]

/-- **Heights are counted right**, by every parser, under every limit and in whatever room. -/
theorem tracksHeights (c : Context) (room : Nat) : TracksHeights c room := by
  obtain ⟨hwhole, hpart⟩ := whole_part_reads c room
  exact ⟨fun ts g rest h => (hwhole ts g rest h).height_eq,
    fun least ts g rest h => (hpart least ts g rest h).1.height_eq,
    fun ts g rest h => (atom_reads hwhole h).height_eq,
    fun least ts g rest h => (operand_ready hwhole hpart h).asked.height_eq,
    fun rounds ts args height rest h => (arguments_reads hwhole h).2.1,
    fun rounds operand hoperand => trailers_tracks hwhole hoperand,
    fun least rounds left hleft => operators_tracks hpart hleft⟩

/-! ## Reading under another limit -/

variable {c' : Context}

/-- What one parser reads, another reads as well, if the tree is no taller than `tallest`. -/
def Carries (tallest : Nat) (p q : ExprParser) : Prop :=
  ∀ ts g rest, p ts = .ok (g, rest) → g.height ≤ tallest → q ts = .ok (g, rest)

/-- A node that is allowed is grown. -/
theorem grow_of_le {tree : Expr} {below : Nat} {span : Span} (h : below + 1 ≤ c.tallest) :
    grow c tree below span = .ok ⟨tree, below + 1⟩ :=
  if_neg (Nat.not_lt.mpr h)

/-- A closing parenthesis is passed whatever the limit on heights. -/
theorem closing_carries {ts rest : Tokens} (h : closing c ts = .ok rest) :
    closing c' ts = .ok rest := by
  obtain ⟨span, rfl⟩ := closing_eq_ok h
  rfl

section Whole

variable {whole whole' : ExprParser} (hwhole : Carries c'.tallest whole whole')

include hwhole

/-- An atom that is read under one limit is read under the other, if it is not too tall for that. -/
theorem atom_carries : Carries c'.tallest (atom c whole) (atom c' whole') := by
  intro ts g rest h hg
  unfold atom at h
  split at h
  case h_1 | h_2 | h_3 =>
      cases h
      rfl
  case h_4 => cases h
  case h_5 span after hparen =>
      obtain ⟨⟨inner, mid⟩, hinner, h⟩ := bind_eq_ok_iff.mp h
      obtain ⟨last, hclose, h⟩ := bind_eq_ok_iff.mp h
      cases h
      rw [atom, hwhole _ _ _ hinner hg]
      · rw [ok_bind]
        dsimp only
        rw [closing_carries hclose]
        rfl
      · exact hparen
  case h_6 => cases h

/-- So are arguments. -/
theorem arguments_carries {rounds height : Nat} {ts rest : Tokens} {args : List Expr}
    (h : arguments c whole rounds ts = .ok ((args, height), rest)) (hheight : height ≤ c'.tallest) :
    arguments c' whole' rounds ts = .ok ((args, height), rest) := by
  fun_induction arguments c whole rounds ts generalizing args height rest with
  | case1 =>
      cases h
      exact arguments_rightParen whole' _ _ _
  | case2 => cases h
  | case3 rounds ts hparen ih =>
      obtain ⟨⟨first, after⟩, hfirst, h⟩ := bind_eq_ok_iff.mp h
      dsimp only at h
      split at h
      · obtain ⟨⟨⟨others, tallest⟩, last⟩, hothers, h⟩ := bind_eq_ok_iff.mp h
        cases h
        obtain ⟨hfirstLe, hothersLe⟩ := Nat.max_le.mp hheight
        rw [arguments, hwhole _ _ _ hfirst hfirstLe, ok_bind]
        · dsimp only
          rw [ih _ hothers hothersLe]
          rfl
        · exact hparen
      · cases h
        rw [arguments, hwhole _ _ _ hfirst hheight]
        · rfl
        · exact hparen
      · cases h
      · cases h

/-- Members and calls are put above the operand, so it is no taller than what becomes of it. -/
theorem trailers_carries {rounds : Nat} {operand g : Grown} {ts rest : Tokens}
    (h : trailers c whole rounds operand ts = .ok (g, rest)) (hg : g.height ≤ c'.tallest) :
    trailers c' whole' rounds operand ts = .ok (g, rest) ∧ operand.height ≤ g.height := by
  fun_induction trailers c whole rounds operand ts with
  | case1 rounds operand dot field fieldSpan after ih =>
      obtain ⟨node, hnode, h⟩ := bind_eq_ok_iff.mp h
      obtain ⟨rfl, -⟩ := grow_eq_ok hnode
      -- The later rounds put their nodes above this one, so it is allowed if the last one is.
      obtain ⟨hloop, hle⟩ := ih _ h
      dsimp only at hle
      refine ⟨?_, by omega⟩
      rw [trailers, grow_of_le (by omega), ok_bind, hloop]
  | case2 => cases h
  | case3 rounds operand paren after ih =>
      obtain ⟨⟨⟨args, height⟩, mid⟩, hargs, h⟩ := bind_eq_ok_iff.mp h
      obtain ⟨last, hclose, h⟩ := bind_eq_ok_iff.mp h
      obtain ⟨node, hnode, h⟩ := bind_eq_ok_iff.mp h
      obtain ⟨rfl, -⟩ := grow_eq_ok hnode
      obtain ⟨hloop, hle⟩ := ih _ _ h
      dsimp only at hle
      refine ⟨?_, by omega⟩
      rw [trailers, arguments_carries hwhole hargs (by omega), ok_bind]
      dsimp only
      rw [closing_carries hclose, ok_bind, grow_of_le (by omega), ok_bind, hloop]
  | case4 rounds operand ts hdot hparen =>
      cases h
      refine ⟨?_, Nat.le_refl _⟩
      rw [trailers]
      · exact hdot
      · exact hparen

/-- So are operands without an operator in front. -/
theorem plain_carries : Carries c'.tallest (plain c whole) (plain c' whole') := by
  intro ts g rest h hg
  obtain ⟨⟨first, mid⟩, hfirst, h⟩ := bind_eq_ok_iff.mp h
  obtain ⟨hloop, hle⟩ := trailers_carries hwhole h hg
  rw [plain, atom_carries hwhole _ _ _ hfirst (Nat.le_trans hle hg), ok_bind]
  exact hloop

/-- So are all operands. -/
theorem operand_carries {part part' : Nat → ExprParser}
    (hpart : ∀ least, Carries c'.tallest (part least) (part' least)) (least : Nat) :
    Carries c'.tallest (operand c whole part least) (operand c' whole' part' least) := by
  intro ts g rest h hg
  unfold operand at h ⊢
  dsimp only at h ⊢
  split at h
  · split at h
    · split at h
      · cases h
      · rename_i op hop hnot
        obtain ⟨⟨inner, mid⟩, hinner, h⟩ := bind_eq_ok_iff.mp h
        obtain ⟨node, hnode, h⟩ := bind_eq_ok_iff.mp h
        cases h
        obtain ⟨rfl, -⟩ := grow_eq_ok hnode
        dsimp only at hg ⊢
        rw [if_neg hnot, hpart _ _ _ _ hinner (by omega), ok_bind, grow_of_le hg]
        rfl
    · exact plain_carries hwhole _ _ _ h hg
  · exact plain_carries hwhole _ _ _ h hg

end Whole

/-- Operators are put above the left operand, so it is no taller than what becomes of it. -/
theorem operators_carries {part part' : Nat → ExprParser}
    (hpart : ∀ least, Carries c'.tallest (part least) (part' least)) {least rounds : Nat}
    {left g : Grown} {ts rest : Tokens}
    (h : operators c part least rounds left ts = .ok (g, rest)) (hg : g.height ≤ c'.tallest) :
    operators c' part' least rounds left ts = .ok (g, rest) ∧ left.height ≤ g.height := by
  fun_induction operators c part least rounds left ts with
  | case1 rounds left sign span after op hop hlt =>
      cases h
      refine ⟨?_, Nat.le_refl _⟩
      rw [operators, hop]
      dsimp only
      rw [if_pos hlt]
  | case2 rounds left sign span after op hop hlt ih =>
      obtain ⟨⟨right, mid⟩, hright, h⟩ := bind_eq_ok_iff.mp h
      dsimp only at h
      split at h
      · cases h
      · rename_i hchain
        obtain ⟨node, hnode, h⟩ := bind_eq_ok_iff.mp h
        obtain ⟨rfl, -⟩ := grow_eq_ok hnode
        obtain ⟨hloop, hle⟩ := ih _ _ h
        dsimp only at hle
        refine ⟨?_, by omega⟩
        rw [operators, hop]
        dsimp only
        rw [if_neg hlt, hpart _ _ _ _ hright (by omega), ok_bind]
        dsimp only
        rw [if_neg hchain, grow_of_le (by omega), ok_bind, hloop]
  | case3 rounds left sign span after hop =>
      cases h
      refine ⟨?_, Nat.le_refl _⟩
      rw [operators, hop]
  | case4 rounds left ts hsymbol =>
      cases h
      refine ⟨?_, Nat.le_refl _⟩
      rw [operators]
      exact hsymbol

/-! ## Expressions under another limit -/

/-- One nesting more keeps this so for expressions that bind with some power. -/
theorem part_succ_carries {room : Nat}
    (hwhole : Carries c'.tallest (whole c room) (whole c' room))
    (hpart : ∀ least, Carries c'.tallest (part c room least) (part c' room least)) (least : Nat) :
    Carries c'.tallest (part c (room + 1) least) (part c' (room + 1) least) := by
  intro ts g rest h hg
  rw [part] at h ⊢
  obtain ⟨⟨left, mid⟩, hleft, h⟩ := bind_eq_ok_iff.mp h
  obtain ⟨hloop, hle⟩ := operators_carries hpart h hg
  rw [operand_carries hwhole hpart _ _ _ _ hleft (Nat.le_trans hle hg), ok_bind]
  exact hloop

/-- One nesting more keeps this so for whole expressions. -/
theorem whole_succ_carries {room : Nat}
    (hwhole : Carries c'.tallest (whole c room) (whole c' room))
    (hpart : ∀ least, Carries c'.tallest (part c room least) (part c' room least)) :
    Carries c'.tallest (whole c (room + 1)) (whole c' (room + 1)) := by
  intro ts g rest h hg
  rw [whole] at h ⊢
  obtain ⟨⟨body, mid⟩, hbody, h⟩ := bind_eq_ok_iff.mp h
  dsimp only at h
  split at h
  · obtain ⟨⟨test, after⟩, htest, h⟩ := bind_eq_ok_iff.mp h
    dsimp only at h
    split at h
    · obtain ⟨⟨alternative, last⟩, halternative, h⟩ := bind_eq_ok_iff.mp h
      obtain ⟨node, hnode, h⟩ := bind_eq_ok_iff.mp h
      cases h
      obtain ⟨rfl, -⟩ := grow_eq_ok hnode
      dsimp only at hg
      refine bind_eq_ok_iff.mpr ⟨_, hpart _ _ _ _ hbody (by omega), ?_⟩
      refine bind_eq_ok_iff.mpr ⟨_, hpart _ _ _ _ htest (by omega), ?_⟩
      refine bind_eq_ok_iff.mpr ⟨_, hwhole _ _ _ halternative (by omega), ?_⟩
      exact bind_eq_ok_iff.mpr ⟨_, grow_of_le hg, rfl⟩
    · cases h
  · rename_i hif
    cases h
    rw [hpart _ _ _ _ hbody hg, ok_bind]
    dsimp only
    split
    · exact absurd rfl (hif _ _)
    · rfl

/-- **Limits on heights.** What is read under one limit is read under any other that its height
allows. -/
theorem whole_part_carries (c c' : Context) (room : Nat) :
    Carries c'.tallest (whole c room) (whole c' room) ∧
      ∀ least, Carries c'.tallest (part c room least) (part c' room least) := by
  induction room with
  | zero =>
      refine ⟨fun ts g rest h => ?_, fun least ts g rest h => ?_⟩
      · rw [whole] at h
        cases h
      · rw [part] at h
        cases h
  | succ room ih => exact ⟨whole_succ_carries ih.1 ih.2, part_succ_carries ih.1 ih.2⟩

/-- A limit refuses exactly the trees that are taller, of those that are read under any limit. -/
theorem whole_eq_ok_iff {finish : Span} {tallest room : Nat} (htallest : 1 ≤ tallest)
    {ts rest : Tokens} {g : Grown} :
    whole ⟨finish, tallest⟩ room ts = .ok (g, rest) ↔
      (∃ wide, whole ⟨finish, wide⟩ room ts = .ok (g, rest)) ∧ g.tree.height ≤ tallest := by
  constructor
  · intro h
    have hreads := (whole_part_reads _ _).1 _ _ _ h
    have hle := hreads.height_le
    rw [hreads.height_eq, Nat.max_eq_right htallest] at hle
    exact ⟨⟨tallest, h⟩, hle⟩
  · -- The wide limit bounds nothing that is left, since the count is the height of the tree.
    rintro ⟨⟨wide, h⟩, hle⟩
    rw [← (tracksHeights _ _).whole _ _ _ h] at hle
    exact (whole_part_carries ⟨finish, wide⟩ ⟨finish, tallest⟩ room).1 _ _ _ h hle

/-- Tokens are parsed if they are read as a whole expression and none is left. -/
theorem parse_eq_ok_iff_whole {finish : Span} {ts : Tokens} {t : Expr} :
    parse finish ts = .ok t ↔
      ∃ g, whole ⟨finish, maxHeight⟩ maxNesting ts = .ok (g, []) ∧ g.tree = t := by
  unfold parse
  rw [bind_eq_ok_iff]
  constructor
  · rintro ⟨⟨g, rest⟩, hwhole, h⟩
    dsimp only at h
    split at h
    · cases h
      exact ⟨g, hwhole, rfl⟩
    · cases h
  · rintro ⟨g, hwhole, rfl⟩
    exact ⟨_, hwhole, rfl⟩

/-- Tokens whose tree is too tall are refused for that. -/
theorem ofTokens_of_tall {source : List Char} {tokens : Tokens} {t : Expr}
    (h : Derives .full (values tokens) t) (hheight : maxHeight < t.height) :
    ∃ fragment span, Equation.ofTokens source tokens =
      .error (.invalidSyntax .nestedTooDeeply fragment span) := by
  have hne : ¬tokens.isEmpty = true := by
    rw [List.isEmpty_iff]
    rintro rfl
    exact h.ne_nil rfl
  rcases parse_of_derives (Equation.finish source) h with hparse | ⟨⟨span, hparse⟩, -⟩
  · exact absurd (derives_of_parse hparse).2 (Nat.not_le.mpr hheight)
  · refine ⟨String.ofList (span.fragmentChars source), span, ?_⟩
    rw [Equation.ofTokens, if_neg hne, hparse]
    rfl

/-- **The limit on heights is exact.** The tree of an equation is no taller than the limit. The
height that is counted for a tree is its height, wherever one is built. Tokens whose tree in the
grammar is taller are refused for that. And tokens form a tree exactly if they do so under some
limit and the tree is no taller than the real one, so nothing else is refused for its height. -/
theorem height_limit_exact :
    (∀ text equation, Equation.parse text = .ok equation → equation.body.height ≤ 1000) ∧
    (∀ c room, TracksHeights c room) ∧
    (∀ source tokens t, Derives .full (values tokens) t → 1000 < t.height →
      ∃ fragment span, Equation.ofTokens source tokens =
        .error (.invalidSyntax .nestedTooDeeply fragment span)) ∧
    ∀ finish ts t, parse finish ts = .ok t ↔
      (∃ wide g, whole ⟨finish, wide⟩ maxNesting ts = .ok (g, []) ∧ g.tree = t) ∧
        t.height ≤ 1000 := by
  refine ⟨fun text equation h => ?_, tracksHeights, fun source tokens t => ofTokens_of_tall,
    fun finish ts t => ?_⟩
  · obtain ⟨_, -, -, hheight⟩ := Equation.derives_of_parse h
    exact hheight
  · rw [parse_eq_ok_iff_whole]
    constructor
    · rintro ⟨g, hg, rfl⟩
      obtain ⟨⟨wide, hwide⟩, hle⟩ := (whole_eq_ok_iff (by decide)).mp hg
      exact ⟨⟨wide, g, hwide, rfl⟩, hle⟩
    · rintro ⟨⟨wide, g, hwide, rfl⟩, hle⟩
      exact ⟨g, (whole_eq_ok_iff (by decide)).mpr ⟨⟨wide, hwide⟩, hle⟩, rfl⟩

/-! ### A tree at the limit -/

/-- A number of members after an operand, as tokens. -/
def membersAfter : Nat → Tokens
  | 0 => []
  | n + 1 => ⟨.dot, ⟨0, 1⟩⟩ :: ⟨.name "a", ⟨0, 1⟩⟩ :: membersAfter n

/-- A tree with a number of members above it. -/
def withMembers : Nat → Expr → Expr
  | 0, t => t
  | n + 1, t => withMembers n (.member t "a")

/-- Every member adds one to the height. -/
theorem height_withMembers (n : Nat) (t : Expr) : (withMembers n t).height = t.height + n := by
  induction n generalizing t with
  | zero => rfl
  | succ n ih =>
      rw [withMembers, ih, Expr.height]
      omega

/-- A primary expression with members after it is one again. -/
theorem derives_withMembers (n : Nat) {w : List Token} {t : Expr} (h : Derives .primary w t) :
    Derives .primary (w ++ values (membersAfter n)) (withMembers n t) := by
  induction n generalizing w t with
  | zero => simpa [membersAfter, withMembers] using h
  | succ n ih =>
      have hmember : Derives .primary (w ++ [.dot, .name "a"]) (.member t "a") := .member h
      simpa [membersAfter, withMembers] using ih hmember

/-- A member is two tokens. -/
theorem length_membersAfter (n : Nat) : (membersAfter n).length = 2 * n := by
  induction n with
  | zero => rfl
  | succ n ih =>
      rw [membersAfter, List.length_cons, List.length_cons, ih]
      omega

/-- Members are read to the last one if the tree is not too tall with them. -/
theorem trailers_membersAfter {whole : ExprParser} {rounds n : Nat} {g : Grown}
    (hrounds : n ≤ rounds) (hheight : g.height + n ≤ c.tallest) :
    trailers c whole rounds g (membersAfter n) =
      .ok (⟨withMembers n g.tree, g.height + n⟩, []) := by
  induction n generalizing rounds g with
  | zero => cases rounds <;> rfl
  | succ n ih =>
      obtain ⟨rounds, rfl⟩ : ∃ more, rounds = more + 1 := ⟨rounds - 1, by omega⟩
      rw [membersAfter, trailers, grow_of_le (by omega), ok_bind,
        ih (by omega) (by dsimp only; omega)]
      dsimp only
      rw [withMembers, Nat.add_right_comm, Nat.add_assoc]

/-- An operand with members is read up to any height that is allowed. -/
theorem whole_membersAfter {room n : Nat} {span : Span} (h : n + 1 ≤ c.tallest) :
    whole c (room + 2) (⟨.name "x", span⟩ :: membersAfter n) =
      .ok (⟨withMembers n (.name "x"), 1 + n⟩, []) := by
  have hloop : trailers c (whole c room) (membersAfter n).length ⟨.name "x", 1⟩ (membersAfter n) =
      .ok (⟨withMembers n (.name "x"), 1 + n⟩, []) :=
    trailers_membersAfter (by rw [length_membersAfter]; omega) (by dsimp only; omega)
  rw [whole]
  refine bind_eq_ok_iff.mpr ⟨(⟨withMembers n (.name "x"), 1 + n⟩, []), ?_, rfl⟩
  rw [part]
  exact bind_eq_ok_iff.mpr ⟨_, hloop, rfl⟩

/-- A name with 999 members after it has a tree of height 1000 and is read. With one member more it
is refused. -/
theorem height_limit_exact_members :
    (parse ⟨0, 1⟩ (⟨.name "x", ⟨0, 1⟩⟩ :: membersAfter 999) = .ok (withMembers 999 (.name "x")) ∧
      (withMembers 999 (.name "x")).height = 1000) ∧
    ∃ fragment span, Equation.ofTokens [] (⟨.name "x", ⟨0, 1⟩⟩ :: membersAfter 1000) =
      .error (.invalidSyntax .nestedTooDeeply fragment span) := by
  have hread : ∀ n, n + 1 ≤ 1000 → parse ⟨0, 1⟩ (⟨.name "x", ⟨0, 1⟩⟩ :: membersAfter n) =
      .ok (withMembers n (.name "x")) := by
    intro n hn
    have hwhole : whole ⟨⟨0, 1⟩, 1000⟩ maxNesting (⟨.name "x", ⟨0, 1⟩⟩ :: membersAfter n) =
        .ok (⟨withMembers n (.name "x"), 1 + n⟩, []) := whole_membersAfter hn
    refine (height_limit_exact.2.2.2 _ _ _).mpr ⟨⟨1000, _, hwhole, rfl⟩, ?_⟩
    rw [height_withMembers, Nat.add_comm]
    exact hn
  have htall : ∀ n, 1000 < 1 + n → ∃ fragment span,
      Equation.ofTokens [] (⟨.name "x", ⟨0, 1⟩⟩ :: membersAfter n) =
        .error (.invalidSyntax .nestedTooDeeply fragment span) := by
    intro n hn
    have hname : Derives .primary [.name "x"] (.name "x") := .tighter rfl .name
    refine height_limit_exact.2.2.1 [] _ (withMembers n (.name "x")) ?_ ?_
    · exact (derives_withMembers n hname).weaken (by decide)
    · rw [height_withMembers]
      exact hn
  exact ⟨⟨hread 999 (Nat.le_refl _), height_withMembers _ _⟩, htall 1000 (by decide)⟩

end Parser

end Elementwise
