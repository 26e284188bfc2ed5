import Elementwise.Proofs.Grammar
import Elementwise.Proofs.Result

/-!
# What the parser reads is in the grammar

`Reads c level ts g rest` says that a parser took a word of the grammar from the front of `ts`, left
`rest`, and returned the word's tree with its true height, within the allowed one. The main
statement is `part_reads` with `whole_reads`: whatever the parsers return is read in this sense, at
the level that the asked power stands for.

The loop over operators keeps one invariant, `Ready`. The operand read so far has the level that was
asked for, and it also has the level at which the operator that comes next expects its left operand.
The second half holds because a right operand is read as far as its power allows, so that what
follows it binds no more strongly than the operator before it.
-/

namespace Elementwise

namespace Parser

open Grammar

/-- Tokens without their places. -/
def values (ts : Tokens) : List Token :=
  ts.map (·.value)

@[simp] theorem values_nil : values [] = [] :=
  rfl

@[simp] theorem values_cons (t : Located Token) (ts : Tokens) :
    values (t :: ts) = t.value :: values ts :=
  rfl

@[simp] theorem values_append (ts us : Tokens) : values (ts ++ us) = values ts ++ values us :=
  List.map_append

@[simp] theorem length_values (ts : Tokens) : (values ts).length = ts.length :=
  List.length_map _

/-- The operator between two operands that comes next. -/
def operatorAhead? : Tokens → Option BinaryOp
  | ⟨.symbol sign, _⟩ :: _ => sign.binary?
  | _ => none

/-- The look ahead for a comparison is a look at the next operator. -/
theorem comparisonAhead_eq (ts : Tokens) :
    comparisonAhead ts = (operatorAhead? ts).any BinaryOp.isComparison := by
  match ts with
  | [] => rfl
  | ⟨value, _⟩ :: _ => cases value <;> rfl

/-! ## Words, trees and heights -/

/-- A word of a level at the front of `ts`, with its tree and its height, and the tokens after it.
-/
structure Reads (c : Context) (level : Level) (ts : Tokens) (g : Grown) (rest : Tokens) : Prop where
  derives : ∃ w, ts = w ++ rest ∧ Derives level (values w) g.tree
  height_eq : g.height = g.tree.height
  height_le : g.height ≤ max 1 c.tallest

variable {c : Context}

/-- What is read at a level is read at every looser one. -/
theorem Reads.weaken {loose tight : Level} {ts rest : Tokens} {g : Grown}
    (hle : loose.strength ≤ tight.strength) (h : Reads c tight ts g rest) :
    Reads c loose ts g rest := by
  obtain ⟨w, hw, hd⟩ := h.derives
  exact ⟨⟨w, hw, hd.weaken hle⟩, h.height_eq, h.height_le⟩

/-- Reading takes at least one token. -/
theorem Reads.length_lt {level : Level} {ts rest : Tokens} {g : Grown}
    (h : Reads c level ts g rest) : rest.length < ts.length := by
  obtain ⟨w, rfl, hd⟩ := h.derives
  have := hd.length_pos
  rw [length_values] at this
  rw [List.length_append]
  omega

/-- A node that is grown has the height asked for, which is allowed. -/
theorem grow_eq_ok {tree : Expr} {below : Nat} {span : Span} {g : Grown}
    (h : grow c tree below span = .ok g) : g = ⟨tree, below + 1⟩ ∧ below + 1 ≤ c.tallest := by
  unfold grow at h
  split at h
  · cases h
  · cases h
    exact ⟨rfl, by omega⟩

/-- A closing parenthesis is taken where there is one. -/
theorem closing_eq_ok {ts rest : Tokens} (h : closing c ts = .ok rest) :
    ∃ span, ts = ⟨.rightParen, span⟩ :: rest := by
  unfold closing at h
  split at h
  · cases h
    exact ⟨_, rfl⟩
  · cases h

/-- A parser of whole expressions that reads them. -/
def WholeReads (c : Context) (whole : ExprParser) : Prop :=
  ∀ ts g rest, whole ts = .ok (g, rest) → Reads c .full ts g rest

/-- No operator of at least a power comes next. -/
def Quiet (least : Nat) (ts : Tokens) : Prop :=
  ∀ op, operatorAhead? ts = some op → op.power < least

/-- A parser of operands that reads them, and stops only where nothing binds as strongly as asked.
-/
def PartReads (c : Context) (part : Nat → ExprParser) : Prop :=
  ∀ least ts g rest, part least ts = .ok (g, rest) →
    Reads c (askedLevel least) ts g rest ∧ Quiet least rest

/-! ## Atoms, members and calls -/

/-- An atom is read as one. -/
theorem atom_reads {whole : ExprParser} (hwhole : WholeReads c whole) {ts rest : Tokens} {g : Grown}
    (h : atom c whole ts = .ok (g, rest)) : Reads c .atom ts g rest := by
  unfold atom at h
  split at h
  case h_1 value span rest' =>
      cases h
      exact ⟨⟨[⟨.number value, span⟩], rfl, .number⟩, rfl, Nat.le_max_left _ _⟩
  case h_2 content span rest' =>
      cases h
      exact ⟨⟨[⟨.quoted content, span⟩], rfl, .quoted⟩, rfl, Nat.le_max_left _ _⟩
  case h_3 word span rest' =>
      cases h
      exact ⟨⟨[⟨.name word, span⟩], rfl, .name⟩, rfl, Nat.le_max_left _ _⟩
  case h_4 => cases h
  case h_5 span after _ =>
      obtain ⟨⟨inner, mid⟩, hinner, h⟩ := bind_eq_ok_iff.mp h
      obtain ⟨last, hclose, h⟩ := bind_eq_ok_iff.mp h
      cases h
      have hr := hwhole _ _ _ hinner
      obtain ⟨w, rfl, hd⟩ := hr.derives
      obtain ⟨span', rfl⟩ := closing_eq_ok hclose
      refine ⟨⟨⟨.leftParen, span⟩ :: (w ++ [⟨.rightParen, span'⟩]), by simp, ?_⟩, hr.height_eq,
        hr.height_le⟩
      simpa using Derives.paren hd
  case h_6 => cases h

/-- Arguments end where a closing parenthesis stands. -/
theorem arguments_rightParen (whole : ExprParser) (rounds : Nat) (span : Span) (rest : Tokens) :
    arguments c whole rounds (⟨.rightParen, span⟩ :: rest) =
      .ok (([], 0), ⟨.rightParen, span⟩ :: rest) := by
  cases rounds <;> rfl

/-- Arguments are read up to a closing parenthesis, with the greatest of their heights. -/
theorem arguments_reads {whole : ExprParser} (hwhole : WholeReads c whole) {rounds : Nat}
    {ts rest : Tokens} {args : List Expr} {height : Nat}
    (h : arguments c whole rounds ts = .ok ((args, height), rest)) :
    (∃ w, ts = w ++ rest ∧ DerivesArguments (values w) args) ∧
      height = Expr.heightOfAll args ∧ height ≤ max 1 c.tallest := by
  fun_induction arguments c whole rounds ts generalizing args height rest with
  | case1 =>
      cases h
      exact ⟨⟨[], rfl, .none⟩, rfl, Nat.zero_le _⟩
  | case2 => cases h
  | case3 rounds ts _ ih =>
      obtain ⟨⟨first, after⟩, hfirst, hafter⟩ := bind_eq_ok_iff.mp h
      have hr := hwhole _ _ _ hfirst
      obtain ⟨w, hw, hd⟩ := hr.derives
      dsimp only at hafter
      split at hafter
      · -- a comma: the arguments after it come next
        rename_i span more
        obtain ⟨⟨⟨others, rest'⟩, more'⟩, hothers, hafter⟩ := bind_eq_ok_iff.mp hafter
        cases hafter
        obtain ⟨⟨v, hv, hd'⟩, hheight, hle⟩ := ih _ hothers
        refine ⟨⟨w ++ ⟨.comma, span⟩ :: v, by simp [hw, hv], ?_⟩, ?_, ?_⟩
        · simpa using DerivesArguments.more hd hd'
        · simp [Expr.heightOfAll, hr.height_eq, hheight]
        · exact Nat.max_le.mpr ⟨hr.height_le, hle⟩
      · -- a closing parenthesis: this was the last one
        cases hafter
        refine ⟨⟨w, hw, .last hd⟩, ?_, hr.height_le⟩
        simp [Expr.heightOfAll, hr.height_eq]
      · cases hafter
      · cases hafter

/-- The members and calls after a primary belong to it. -/
theorem trailers_reads {whole : ExprParser} (hwhole : WholeReads c whole) {ts : Tokens}
    {rounds : Nat} {operand : Grown} {mid : Tokens} (hop : Reads c .primary ts operand mid)
    {g : Grown} {rest : Tokens} (h : trailers c whole rounds operand mid = .ok (g, rest)) :
    Reads c .primary ts g rest := by
  fun_induction trailers c whole rounds operand mid generalizing g rest with
  | case1 rounds operand dot field fieldSpan after ih =>
      obtain ⟨node, hnode, h⟩ := bind_eq_ok_iff.mp h
      obtain ⟨rfl, hle⟩ := grow_eq_ok hnode
      obtain ⟨w, hw, hd⟩ := hop.derives
      refine ih _ ⟨⟨w ++ [⟨.dot, dot⟩, ⟨.name field, fieldSpan⟩], by simp [hw], ?_⟩, ?_, ?_⟩ h
      · simpa using Derives.member hd
      · simp [Expr.height, hop.height_eq]
      · exact Nat.le_trans hle (Nat.le_max_right _ _)
  | case2 => cases h
  | case3 rounds operand paren after ih =>
      obtain ⟨⟨⟨args, height⟩, mid⟩, hargs, h⟩ := bind_eq_ok_iff.mp h
      obtain ⟨last, hclose, h⟩ := bind_eq_ok_iff.mp h
      obtain ⟨node, hnode, h⟩ := bind_eq_ok_iff.mp h
      obtain ⟨rfl, hle⟩ := grow_eq_ok hnode
      obtain ⟨w, hw, hd⟩ := hop.derives
      obtain ⟨⟨v, hv, hd'⟩, hheight, -⟩ := arguments_reads hwhole hargs
      obtain ⟨span', hmid⟩ := closing_eq_ok hclose
      refine ih _ _ ⟨⟨w ++ ⟨.leftParen, paren⟩ :: (v ++ [⟨.rightParen, span'⟩]),
        by simp [hw, hv, hmid], ?_⟩, ?_, ?_⟩ h
      · simpa using Derives.call hd hd'
      · simp [Expr.height, hop.height_eq, hheight]
      · exact Nat.le_trans hle (Nat.le_max_right _ _)
  | case4 =>
      cases h
      exact hop

/-! ## Operators -/

/-- The operand read so far has the level that is asked for, and the level at which the next
operator expects its left operand. -/
structure Ready (c : Context) (least : Nat) (ts : Tokens) (left : Grown) (mid : Tokens) : Prop where
  asked : Reads c (askedLevel least) ts left mid
  next : ∀ op, operatorAhead? mid = some op → least ≤ op.power → Reads c (leftLevel op) ts left mid

/-- An operand of a level is ready if the level is as tight as asked, and if what comes next binds
less strongly than some bound from which on the level would be too loose. -/
theorem Reads.ready {level : Level} {least : Nat} {ts mid : Tokens} {left : Grown}
    (h : Reads c level ts left mid) (hasked : (askedLevel least).strength ≤ level.strength)
    (hnext : ∀ op, operatorAhead? mid = some op → least ≤ op.power →
      (leftLevel op).strength ≤ level.strength) : Ready c least ts left mid :=
  ⟨h.weaken hasked, fun op hop hle => h.weaken (hnext op hop hle)⟩

/-- An atom with its members and calls is an operand for everything. -/
theorem primary_ready {least : Nat} {ts mid : Tokens} {left : Grown}
    (h : Reads c .primary ts left mid) : Ready c least ts left mid := by
  refine h.ready ?_ ?_
  · have := (strength_askedLevel_le least).2
    exact Nat.le_trans this (by decide)
  · intro op _ _
    have := power_cases op
    have := strength_leftLevel op
    rw [Level.strength]
    omega

/-- An operand without an operator before it. -/
def plain (c : Context) (whole : ExprParser) (ts : Tokens) : Attempt (Grown × Tokens) := do
  let (first, rest) ← atom c whole ts
  trailers c whole rest.length first rest

/-- An operand without an operator before it is ready. -/
theorem plain_ready {whole : ExprParser} (hwhole : WholeReads c whole) {least : Nat}
    {ts rest : Tokens} {g : Grown} (h : plain c whole ts = .ok (g, rest)) :
    Ready c least ts g rest := by
  obtain ⟨⟨first, mid⟩, hfirst, h⟩ := bind_eq_ok_iff.mp h
  have hatom : Reads c .primary ts first mid := (atom_reads hwhole hfirst).weaken (by decide)
  exact primary_ready (trailers_reads hwhole hatom h)

/-- An operator before an operand is followed by what binds as strongly as it asks, and by nothing
that binds as strongly after it. -/
theorem unary_ready {part : Nat → ExprParser} (hpart : PartReads c part) {least : Nat}
    {sign : Symbol} {op : UnaryOp} {span : Span} {ts mid : Tokens} {inner node : Grown}
    (hop : sign.unary? = some op) (hnot : ¬(op = .not ∧ op.power < least))
    (hinner : part op.power ts = .ok (inner, mid))
    (hnode : grow c (.unary op inner.tree) inner.height span = .ok node) :
    Ready c least (⟨.symbol sign, span⟩ :: ts) node mid := by
  obtain ⟨hr, hquiet⟩ := hpart _ _ _ _ hinner
  obtain ⟨rfl, hle⟩ := grow_eq_ok hnode
  obtain ⟨w, hw, hd⟩ := hr.derives
  have hreads : Reads c (askedLevel op.power) (⟨.symbol sign, span⟩ :: ts)
      ⟨.unary op inner.tree, inner.height + 1⟩ mid := by
    refine ⟨⟨⟨.symbol sign, span⟩ :: w, by simp [hw], ?_⟩, by simp [Expr.height, hr.height_eq],
      Nat.le_trans hle (Nat.le_max_right _ _)⟩
    cases sign <;> cases hop
    case not => exact .negation hd
    all_goals exact .signed (by decide) hd
  -- The two kinds of operators differ in the power they ask for, and `not` has to be asked for
  -- with no more than its own.
  have hpower : op.power = 3 ∧ least ≤ 3 ∨ op.power = 11 := by
    cases op
    case not => exact .inl ⟨rfl, by simpa [UnaryOp.power] using hnot⟩
    all_goals exact .inr rfl
  have hasked := strength_askedLevel_le least
  refine hreads.ready ?_ ?_
  · rcases hpower with ⟨h3, h⟩ | h11
    · rw [h3, show (askedLevel 3).strength = 3 from rfl]
      omega
    · rw [h11]
      exact hasked.2
  · intro op' hop' _
    have := hquiet op' hop'
    have := strength_leftLevel op'
    rcases hpower with ⟨h3, h⟩ | h11
    · rw [h3, show (askedLevel 3).strength = 3 from rfl]
      omega
    · rw [h11, show (askedLevel 11).strength = 11 from rfl]
      omega

/-- An operand is read so that the operators after it can be. -/
theorem operand_ready {whole : ExprParser} {part : Nat → ExprParser} (hwhole : WholeReads c whole)
    (hpart : PartReads c part) {least : Nat} {ts rest : Tokens} {g : Grown}
    (h : operand c whole part least ts = .ok (g, rest)) : Ready c least ts g rest := by
  unfold operand at h
  dsimp only at h
  split at h
  · split at h
    · split at h
      · cases h
      · rename_i op hop hnot
        obtain ⟨⟨inner, mid⟩, hinner, h⟩ := bind_eq_ok_iff.mp h
        obtain ⟨node, hnode, h⟩ := bind_eq_ok_iff.mp h
        cases h
        exact unary_ready hpart hop hnot hinner hnode
    · exact plain_ready hwhole h
  · exact plain_ready hwhole h

/-- One operator with its right operand. What was ready before it is ready after it. -/
theorem Ready.step {part : Nat → ExprParser} (hpart : PartReads c part) {least : Nat}
    {sign : Symbol} {op : BinaryOp} {span : Span} {ts mid after : Tokens} {left right : Grown}
    (hready : Ready c least ts left (⟨.symbol sign, span⟩ :: mid))
    (hop : sign.binary? = some op) (hleast : least ≤ op.power)
    (hright : part op.rightPower mid = .ok (right, after))
    (hchain : (op.isComparison && comparisonAhead after) = false)
    (hle : max left.height right.height + 1 ≤ c.tallest) :
    Ready c least ts ⟨.binary op left.tree right.tree, max left.height right.height + 1⟩ after := by
  have hl := hready.next op hop hleast
  obtain ⟨hr, hquiet⟩ := hpart _ _ _ _ hright
  obtain ⟨w, hw, hd⟩ := hl.derives
  obtain ⟨v, hv, hd'⟩ := hr.derives
  have hreads : Reads c (nodeLevel op) ts
      ⟨.binary op left.tree right.tree, max left.height right.height + 1⟩ after := by
    refine ⟨⟨w ++ ⟨.symbol sign, span⟩ :: v, by simp [hw, hv], ?_⟩, ?_, ?_⟩
    · simpa using Derives.binary hop hd hd'
    · simp [Expr.height, hl.height_eq, hr.height_eq]
    · exact Nat.le_trans hle (Nat.le_max_right _ _)
  have hasked := strength_askedLevel_le least
  have hpowers := power_cases op
  refine hreads.ready ?_ ?_
  · rw [strength_nodeLevel]
    omega
  · intro op' hop' _
    -- A comparison is not followed by another one, and all else associates to the left.
    have hcmp : ¬(op.power = 4 ∧ op'.power = 4) := by
      rintro ⟨h, h'⟩
      rw [comparisonAhead_eq, hop', (isComparison_iff_power op).mpr h] at hchain
      simp [(isComparison_iff_power op').mpr h'] at hchain
    have := hquiet op' hop'
    have := strength_leftLevel op'
    have := rightPower_cases op
    rw [strength_nodeLevel]
    omega

/-- The operators after an operand are read as far as they bind strongly enough. The rounds never
run out, because each takes tokens. -/
theorem operators_reads {part : Nat → ExprParser} (hpart : PartReads c part) {least : Nat}
    {ts : Tokens} {rounds : Nat} {left : Grown} {mid : Tokens} (hready : Ready c least ts left mid)
    (hrounds : mid.length ≤ rounds) {g : Grown} {rest : Tokens}
    (h : operators c part least rounds left mid = .ok (g, rest)) :
    Reads c (askedLevel least) ts g rest ∧ Quiet least rest := by
  fun_induction operators c part least rounds left mid generalizing g rest with
  | case1 rounds left sign span mid op hop hlt =>
      cases h
      refine ⟨hready.asked, fun op' hop' => ?_⟩
      rw [operatorAhead?, hop, Option.some.injEq] at hop'
      rwa [← hop']
  | case2 rounds left sign span mid op hop hlt ih =>
      obtain ⟨⟨right, after⟩, hright, h⟩ := bind_eq_ok_iff.mp h
      dsimp only at h
      split at h
      · cases h
      · rename_i hchain
        obtain ⟨node, hnode, h⟩ := bind_eq_ok_iff.mp h
        obtain ⟨rfl, hle⟩ := grow_eq_ok hnode
        have hshorter := (hpart _ _ _ _ hright).1.length_lt
        refine ih _ _ (hready.step hpart hop (by omega) hright (by simpa using hchain) hle) ?_ h
        rw [List.length_cons] at hrounds
        omega
  | case3 rounds left sign span mid hop =>
      cases h
      refine ⟨hready.asked, fun op' hop' => ?_⟩
      rw [operatorAhead?, hop] at hop'
      cases hop'
  | case4 rounds left mid hmid =>
      cases h
      refine ⟨hready.asked, fun op' hop' => ?_⟩
      -- Without rounds there are no tokens, and with rounds there is no symbol ahead.
      match rounds, mid with
      | _, [] => cases hop'
      | rounds + 1, ⟨value, span⟩ :: mid' =>
          cases value
          case symbol sign => exact absurd rfl (hmid rounds sign span mid' rfl)
          all_goals cases hop'

/-! ## Expressions -/

/-- What the parsers of a nesting read, if those of one nesting less do. -/
theorem part_succ_reads {room : Nat} (hwhole : WholeReads c (whole c room))
    (hpart : PartReads c (part c room)) : PartReads c (part c (room + 1)) := by
  intro least ts g rest h
  rw [part] at h
  obtain ⟨⟨left, mid⟩, hleft, h⟩ := bind_eq_ok_iff.mp h
  exact operators_reads hpart (operand_ready hwhole hpart hleft) (Nat.le_refl _) h

/-- One nesting more keeps this so for whole expressions. -/
theorem whole_succ_reads {room : Nat} (hwhole : WholeReads c (whole c room))
    (hpart : PartReads c (part c room)) : WholeReads c (whole c (room + 1)) := by
  intro ts g rest h
  rw [whole] at h
  obtain ⟨⟨body, mid⟩, hbody, h⟩ := bind_eq_ok_iff.mp h
  have hb := (hpart _ _ _ _ hbody).1
  obtain ⟨b, hb', hbd⟩ := hb.derives
  dsimp only at h
  split at h
  · rename_i span mid
    obtain ⟨⟨test, after⟩, htest, h⟩ := bind_eq_ok_iff.mp h
    have ht := (hpart _ _ _ _ htest).1
    obtain ⟨t, ht', htd⟩ := ht.derives
    dsimp only at h
    split at h
    · rename_i span' after
      obtain ⟨⟨alternative, last⟩, halternative, h⟩ := bind_eq_ok_iff.mp h
      obtain ⟨node, hnode, h⟩ := bind_eq_ok_iff.mp h
      cases h
      obtain ⟨rfl, hle⟩ := grow_eq_ok hnode
      have ha := hwhole _ _ _ halternative
      obtain ⟨a, ha', had⟩ := ha.derives
      refine ⟨⟨b ++ ⟨.keyword "if", span⟩ :: (t ++ ⟨.keyword "else", span'⟩ :: a),
        by simp [hb', ht', ha'], ?_⟩, ?_, Nat.le_trans hle (Nat.le_max_right _ _)⟩
      · simpa using Derives.conditional hbd htd had
      · simp [Expr.height, hb.height_eq, ht.height_eq, ha.height_eq]
    · cases h
  · cases h
    exact hb.weaken (by decide)

/-- Whatever the parsers return, in whatever room, is read from the front of the tokens. -/
theorem whole_part_reads (c : Context) (room : Nat) :
    WholeReads c (whole c room) ∧ PartReads c (part c room) := by
  induction room with
  | zero =>
      refine ⟨fun ts g rest h => ?_, fun least ts g rest h => ?_⟩
      · rw [whole] at h
        cases h
      · rw [part] at h
        cases h
  | succ room ih => exact ⟨whole_succ_reads ih.1 ih.2, part_succ_reads ih.1 ih.2⟩

/-- **Soundness.** The tree of all tokens is a tree of the grammar, and no taller than allowed. -/
theorem derives_of_parse {finish : Span} {ts : Tokens} {t : Expr} (h : parse finish ts = .ok t) :
    Derives .full (values ts) t ∧ t.height ≤ maxHeight := by
  unfold parse at h
  obtain ⟨⟨g, rest⟩, hwhole, h⟩ := bind_eq_ok_iff.mp h
  have hr := (whole_part_reads _ _).1 _ _ _ hwhole
  obtain ⟨w, hw, hd⟩ := hr.derives
  dsimp only at h
  split at h
  · cases h
    rw [List.append_nil] at hw
    subst hw
    exact ⟨hd, hr.height_eq ▸ hr.height_le⟩
  · cases h

end Parser

end Elementwise
