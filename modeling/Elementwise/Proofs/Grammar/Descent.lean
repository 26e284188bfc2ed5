import Elementwise.Proofs.Grammar.Reading

/-!
# Reading with a position and a counter

The parsers take the tokens that are left and the nesting that is left, so they come back to where
they were by themselves. A reader that walks over one list of tokens has to see to that: it moves a
position, and it counts the descents that it has begun and not finished, up on the way in and down
on the way out.

Here is that reader (`Descent.whole` and the others). Its functions call each other as the grammar
does, and its loops go on as long as they find something. Each call is a step, and a run that has
taken all of its steps without an answer is `none`. The steps are only a clock: a run ends if there
is an answer that it has with any number of steps from some number on. The counter is also watched:
`Reader.deepest` keeps the greatest value that it ever had.

`Descent.balanced` says that every run ends, with what the parsers give for the tokens ahead. If
something was read, the position has moved and is still within the tokens. The counter has its old
value again, after an error as well, and it never exceeded its limit. The recursion is on the
nesting that is left; within one nesting the loops are followed round by round, each of which takes
a token.
-/

namespace Elementwise

namespace Parser

/-! ## The reader -/

/-- Where a reader stands. -/
structure Reader where
  /-- The count of tokens that were passed. -/
  position : Nat
  /-- The count of descents that were begun and not finished. -/
  nesting : Nat
  /-- The greatest nesting so far. -/
  deepest : Nat
  nesting_le_deepest : nesting ≤ deepest

namespace Reader

/-- A reader at a position and in a nesting; from now on the nesting is watched. -/
def start (position nesting : Nat) : Reader :=
  ⟨position, nesting, nesting, Nat.le_refl nesting⟩

/-- One token further. -/
def next (r : Reader) : Reader :=
  { r with position := r.position + 1 }

/-- One descent more. -/
def enter (r : Reader) : Reader :=
  ⟨r.position, r.nesting + 1, max r.deepest (r.nesting + 1), Nat.le_max_right _ _⟩

/-- One descent less. -/
def leave (r : Reader) : Reader :=
  ⟨r.position, r.nesting - 1, r.deepest, Nat.le_trans (Nat.sub_le _ _) r.nesting_le_deepest⟩

variable (r : Reader)

/-- A descent adds one to the nesting. -/
@[simp] theorem nesting_enter : r.enter.nesting = r.nesting + 1 :=
  rfl

/-- A descent may go deeper than any before. -/
@[simp] theorem deepest_enter : r.enter.deepest = max r.deepest (r.nesting + 1) :=
  rfl

/-- The end of a descent takes one from the nesting. -/
@[simp] theorem nesting_leave : r.leave.nesting = r.nesting - 1 :=
  rfl

/-- The end of a descent does not change the greatest nesting. -/
@[simp] theorem deepest_leave : r.leave.deepest = r.deepest :=
  rfl

end Reader

/-- What is done from where a reader stands: it ends with a value or a mistake, and either way the
reader stands somewhere, or its steps do not suffice. -/
abbrev Descent (α : Type) : Type :=
  ExceptT (Located Mistake) (StateT Reader Option) α

namespace Descent

/-- The tokens from the position on. -/
def ahead (tokens : Tokens) : Descent Tokens := do
  return tokens.drop (← get).position

/-- Pass the next token. -/
def advance : Descent Unit :=
  modify Reader.next

/-- Something that may fail, wherever the reader stands. -/
def ofAttempt {α : Type} : Attempt α → Descent α
  | .ok a => pure a
  | .error e => throw e

/-- Where no step is left. -/
def unfinished {α : Type} : Descent α :=
  fun _ => none

/-- Pass a closing parenthesis. -/
def closing (c : Context) (tokens : Tokens) : Descent Unit := do
  match ← ahead tokens with
  | ⟨.rightParen, _⟩ :: _ => advance
  | ts => throw (unexpected c .closingParen ts)

/-- One descent, which is finished in the end whatever became of it. -/
def nested {α : Type} (c : Context) (tokens : Tokens) (inner : Descent α) : Descent α :=
  ExceptT.mk do
    let r ← get
    if maxNesting ≤ r.nesting then
      return .error ⟨.nestedTooDeeply, place c (tokens.drop r.position)⟩
    else
      set r.enter
      let answer ← inner.run
      modify Reader.leave
      return answer

mutual

/-- A whole expression, conditionals included. -/
def whole (c : Context) (tokens : Tokens) : Nat → Descent Grown
  | 0 => unfinished
  | steps + 1 => nested c tokens do
      let body ← part c tokens 0 steps
      match ← ahead tokens with
      | ⟨.keyword "if", span⟩ :: _ =>
        advance
        let test ← part c tokens 0 steps
        match ← ahead tokens with
        | ⟨.keyword "else", _⟩ :: _ =>
          advance
          let alternative ← whole c tokens steps
          ofAttempt (grow c (.conditional test.tree body.tree alternative.tree)
            (max (max body.height test.height) alternative.height) span)
        | rest => throw (unexpected c .elseKeyword rest)
      | _ => return body

/-- An expression whose operators bind with at least power `least`. -/
def part (c : Context) (tokens : Tokens) (least : Nat) : Nat → Descent Grown
  | 0 => unfinished
  | steps + 1 => nested c tokens do
      let left ← operand c tokens least steps
      operators c tokens least left steps

/-- An operand: an operator with its operand, or what stands without one. -/
def operand (c : Context) (tokens : Tokens) (least : Nat) : Nat → Descent Grown
  | 0 => unfinished
  | steps + 1 => do
      match ← ahead tokens with
      | ⟨.symbol sign, span⟩ :: rest =>
        match sign.unary? with
        | some op =>
          if op = .not ∧ op.power < least then
            throw (unexpected c .operand (⟨.symbol sign, span⟩ :: rest))
          else
            advance
            let inner ← part c tokens op.power steps
            ofAttempt (grow c (.unary op inner.tree) inner.height span)
        | none => primary c tokens steps
      | _ => primary c tokens steps

/-- An atom with the members and calls that follow it. -/
def primary (c : Context) (tokens : Tokens) : Nat → Descent Grown
  | 0 => unfinished
  | steps + 1 => do
      let first ← atom c tokens steps
      trailers c tokens first steps

/-- A number, a quoted text, a name or an expression in parentheses. -/
def atom (c : Context) (tokens : Tokens) : Nat → Descent Grown
  | 0 => unfinished
  | steps + 1 => do
      match ← ahead tokens with
      | ⟨.number value, _⟩ :: _ =>
        advance
        return ⟨.number value, 1⟩
      | ⟨.quoted content, _⟩ :: _ =>
        advance
        return ⟨.quoted content, 1⟩
      | ⟨.name word, _⟩ :: _ =>
        advance
        return ⟨.name word, 1⟩
      | ⟨.leftParen, span⟩ :: _ =>
        advance
        match ← ahead tokens with
        | ⟨.rightParen, _⟩ :: _ =>
          throw ⟨.unexpected .parenthesizedExpression (some .leftParen), span⟩
        | _ =>
          let inner ← whole c tokens steps
          closing c tokens
          return inner
      | ts => throw (unexpected c .operand ts)

/-- The members and calls that follow an operand. -/
def trailers (c : Context) (tokens : Tokens) (operand : Grown) : Nat → Descent Grown
  | 0 => unfinished
  | steps + 1 => do
      match ← ahead tokens with
      | ⟨.dot, span⟩ :: _ =>
        advance
        match ← ahead tokens with
        | ⟨.name word, _⟩ :: _ =>
          advance
          let node ← ofAttempt (grow c (.member operand.tree word) operand.height span)
          trailers c tokens node steps
        | rest => throw (unexpected c .attributeName rest)
      | ⟨.leftParen, span⟩ :: _ =>
        advance
        let (args, height) ← arguments c tokens steps
        closing c tokens
        let node ← ofAttempt (grow c (.call operand.tree args) (max operand.height height) span)
        trailers c tokens node steps
      | _ => return operand

/-- The arguments of a call up to its closing parenthesis, and the greatest of their heights. -/
def arguments (c : Context) (tokens : Tokens) : Nat → Descent (List Expr × Nat)
  | 0 => unfinished
  | steps + 1 => do
      match ← ahead tokens with
      | ⟨.rightParen, _⟩ :: _ => return ([], 0)
      | _ =>
        let first ← whole c tokens steps
        match ← ahead tokens with
        | ⟨.comma, _⟩ :: _ =>
          advance
          let (others, height) ← arguments c tokens steps
          return (first.tree :: others, max first.height height)
        | ⟨.rightParen, _⟩ :: _ => return ([first.tree], first.height)
        | [] => throw (unexpected c .closingParen [])
        | rest => throw (unexpected c .commaOrClosingParen rest)

/-- The operators of at least power `least` that follow an operand, with their right operands. -/
def operators (c : Context) (tokens : Tokens) (least : Nat) (left : Grown) : Nat → Descent Grown
  | 0 => unfinished
  | steps + 1 => do
      match ← ahead tokens with
      | ⟨.symbol sign, _⟩ :: _ =>
        match sign.binary? with
        | some op =>
          if op.power < least then return left
          else
            let node ← operation c tokens left op steps
            operators c tokens least node steps
        | none => return left
      | _ => return left

/-- One operator, which is the next token, with its right operand. -/
def operation (c : Context) (tokens : Tokens) (left : Grown) (op : BinaryOp) : Nat → Descent Grown
  | 0 => unfinished
  | steps + 1 => do
      let span := place c (← ahead tokens)
      advance
      let right ← part c tokens op.rightPower steps
      if op.isComparison && comparisonAhead (← ahead tokens) then throw ⟨.chainedComparison, span⟩
      else ofAttempt (grow c (.binary op left.tree right.tree) (max left.height right.height) span)

end

/-! ## One step after the other -/

variable {α β : Type} {c : Context} {tokens : Tokens}

/-- What becomes of a descent from where a reader stands. -/
def outcome (m : Descent α) (r : Reader) : Option (Attempt α × Reader) :=
  m r

/-- After a success the others go on from where the reader stands. -/
theorem outcome_bind_ok {first : Descent α} {next : α → Descent β} {r r' : Reader} {a : α}
    (h : first.outcome r = some (.ok a, r')) :
    (first >>= next).outcome r = (next a).outcome r' := by
  change (first.outcome r >>= fun answer => ExceptT.bindCont next answer.1 answer.2) = _
  rw [h]
  rfl

/-- After a mistake nothing more is done. -/
theorem outcome_bind_error {first : Descent α} {next : α → Descent β} {r r' : Reader}
    {e : Located Mistake} (h : first.outcome r = some (.error e, r')) :
    (first >>= next).outcome r = some (.error e, r') := by
  change (first.outcome r >>= fun answer => ExceptT.bindCont next answer.1 answer.2) = _
  rw [h]
  rfl

/-- A descent is refused at the limit, and else ends as what is done in it. -/
theorem outcome_nested (inner : Descent α) (r : Reader) :
    (nested c tokens inner).outcome r =
      if maxNesting ≤ r.nesting then
        some (.error ⟨.nestedTooDeeply, place c (tokens.drop r.position)⟩, r)
      else (inner.outcome r.enter).map fun answer => (answer.1, answer.2.leave) := by
  by_cases h : maxNesting ≤ r.nesting
  · rw [if_pos h]
    exact congrFun (if_pos h) r
  · rw [if_neg h]
    refine (congrFun (if_neg h) r).trans ?_
    change (inner.outcome r.enter >>= fun answer => some (answer.1, answer.2.leave)) = _
    cases inner.outcome r.enter <;> rfl

/-! ## Following the parsers -/

/-- One operator with its right operand, as the parser of operators takes it in a round. -/
def joined (c : Context) (part : Nat → ExprParser) (left : Grown) (op : BinaryOp) (span : Span)
    (ts : Tokens) : Attempt (Grown × Tokens) := do
  let (right, rest) ← part op.rightPower ts
  if op.isComparison && comparisonAhead rest then .error ⟨.chainedComparison, span⟩
  else
    let node ← grow c (.binary op left.tree right.tree) (max left.height right.height) span
    .ok (node, rest)

/-- A round of the parser of operators. -/
theorem operators_symbol {part : Nat → ExprParser} {least rounds : Nat} {left : Grown}
    {sign : Symbol} {op : BinaryOp} {span : Span} {rest : Tokens} (hop : sign.binary? = some op)
    (hleast : ¬op.power < least) :
    Parser.operators c part least (rounds + 1) left (⟨.symbol sign, span⟩ :: rest) =
      (joined c part left op span rest >>= fun answer =>
        Parser.operators c part least rounds answer.1 answer.2) := by
  rw [Parser.operators, hop]
  dsimp only
  rw [if_neg hleast, joined]
  rcases part op.rightPower rest with e | ⟨right, after⟩
  · rfl
  · simp only [ok_bind]
    split
    · rfl
    · cases grow c (.binary op left.tree right.tree) (max left.height right.height) span <;> rfl

/-- An operator and its right operand take tokens. -/
theorem joined_length_lt {part : Nat → ExprParser} (hpart : PartReads c part) {left : Grown}
    {op : BinaryOp} {span : Span} {ts rest : Tokens} {g : Grown}
    (h : joined c part left op span ts = .ok (g, rest)) : rest.length < ts.length := by
  obtain ⟨⟨right, after⟩, hright, h⟩ := bind_eq_ok_iff.mp h
  dsimp only at h
  split at h
  · cases h
  · obtain ⟨node, -, h⟩ := bind_eq_ok_iff.mp h
    cases h
    exact (hpart _ _ _ _ hright).1.length_lt

/-- What a run keeps: the nesting is what it was, and it did not exceed its limit on the way. -/
structure Keeps (r r' : Reader) : Prop where
  nesting : r'.nesting = r.nesting
  le_deepest : r.deepest ≤ r'.deepest
  deepest_le : r'.deepest ≤ max r.deepest maxNesting

/-- What does nothing keeps the nesting. -/
theorem Keeps.refl (r : Reader) : Keeps r r :=
  ⟨rfl, Nat.le_refl _, Nat.le_max_left _ _⟩

/-- Two runs that keep the nesting keep it one after the other. -/
theorem Keeps.trans {r r' r'' : Reader} (h : Keeps r r') (h' : Keeps r' r'') : Keeps r r'' := by
  obtain ⟨hnesting, hle, hdeepest⟩ := h
  obtain ⟨hnesting', hle', hdeepest'⟩ := h'
  exact ⟨hnesting'.trans hnesting, Nat.le_trans hle hle', by omega⟩

/-- Passing a token keeps the nesting. -/
theorem Keeps.next {r : Reader} : Keeps r r.next :=
  ⟨rfl, Nat.le_refl _, Nat.le_max_left _ _⟩

/-- What is done in a descent keeps the nesting, so the descent does. -/
theorem Keeps.leave {r r' : Reader} (hlt : r.nesting < maxNesting) (h : Keeps r.enter r') :
    Keeps r r'.leave := by
  obtain ⟨hnesting, hle, hdeepest⟩ := h
  rw [Reader.nesting_enter] at hnesting
  rw [Reader.deepest_enter] at hle hdeepest
  constructor
  · rw [Reader.nesting_leave]
    omega
  · rw [Reader.deepest_leave]
    omega
  · rw [Reader.deepest_leave]
    omega

/-- A run has the answer of an attempt on the tokens ahead: the same value, in front of the tokens
that are left, or the same mistake. -/
inductive Agrees (tokens : Tokens) (r : Reader) :
    Attempt (α × Tokens) → Attempt α × Reader → Prop
  | done {a : α} {r' : Reader} (hkeeps : Keeps r r') (hwithin : r'.position ≤ tokens.length) :
      Agrees tokens r (.ok (a, tokens.drop r'.position)) (.ok a, r')
  | failed {e : Located Mistake} {r' : Reader} (hkeeps : Keeps r r') :
      Agrees tokens r (.error e) (.error e, r')

/-- A run may begin with something that keeps the nesting. -/
theorem Agrees.after {r r' : Reader} {attempt : Attempt (α × Tokens)} {answer : Attempt α × Reader}
    (hkeeps : Keeps r r') (h : Agrees tokens r' attempt answer) :
    Agrees tokens r attempt answer := by
  cases h with
  | done hkeeps' hwithin => exact .done (hkeeps.trans hkeeps') hwithin
  | failed hkeeps' => exact .failed (hkeeps.trans hkeeps')

/-- With enough steps a run ends, and as an attempt on the tokens ahead does. -/
def Follows (tokens : Tokens) (r : Reader) (attempt : Attempt (α × Tokens))
    (run : Nat → Descent α) :
    Prop :=
  ∃ answer, Agrees tokens r attempt answer ∧
    ∃ enough, ∀ steps, enough ≤ steps → (run steps).outcome r = some answer

namespace Follows

variable {r : Reader} {attempt : Attempt (α × Tokens)} {run run' : Nat → Descent α}

/-- A run that gives a value at once follows the attempt that takes no token. -/
theorem done {a : α} (hwithin : r.position ≤ tokens.length) :
    Follows tokens r (.ok (a, tokens.drop r.position)) fun _ => pure a :=
  ⟨_, .done (.refl r) hwithin, 0, fun _ _ => rfl⟩

/-- A run that fails at once follows the attempt that fails. -/
theorem failed {e : Located Mistake} :
    Follows tokens r (.error e : Attempt (α × Tokens)) fun _ => throw e :=
  ⟨_, .failed (.refl r), 0, fun _ _ => rfl⟩

/-- A call is one step. -/
theorem step (h : Follows tokens r attempt fun steps => run (steps + 1)) :
    Follows tokens r attempt run := by
  obtain ⟨answer, hagrees, enough, hrun⟩ := h
  refine ⟨answer, hagrees, enough + 1, fun steps hsteps => ?_⟩
  obtain ⟨steps, rfl⟩ := Nat.exists_eq_add_of_le' (Nat.le_of_add_left_le hsteps)
  exact hrun steps (Nat.le_of_succ_le_succ hsteps)

/-- Runs with the same outcome follow the same attempts. -/
theorem congr (hsame : ∀ steps, (run steps).outcome r = (run' steps).outcome r)
    (h : Follows tokens r attempt run') : Follows tokens r attempt run := by
  obtain ⟨answer, hagrees, enough, hrun⟩ := h
  exact ⟨answer, hagrees, enough, fun steps hsteps => (hsame steps).trans (hrun steps hsteps)⟩

/-- Looking ahead leaves the reader where it is. -/
theorem ahead {next : Nat → Tokens → Descent α}
    (h : Follows tokens r attempt fun steps => next steps (tokens.drop r.position)) :
    Follows tokens r attempt fun steps => Descent.ahead tokens >>= next steps :=
  h

/-- Behind the next token everything goes on as before. -/
theorem advance {next : Nat → Unit → Descent α}
    (h : Follows tokens r.next attempt fun steps => next steps ()) :
    Follows tokens r attempt fun steps => Descent.advance >>= next steps := by
  obtain ⟨answer, hagrees, enough, hrun⟩ := h
  exact ⟨answer, hagrees.after .next, enough, hrun⟩

/-- Steps in sequence follow attempts in sequence. -/
theorem bind {first : Nat → Descent α} {next : Nat → α → Descent β}
    {others : α × Tokens → Attempt (β × Tokens)} (h : Follows tokens r attempt first)
    (hnext : ∀ a r', Keeps r r' → r'.position ≤ tokens.length →
      attempt = .ok (a, tokens.drop r'.position) →
      Follows tokens r' (others (a, tokens.drop r'.position)) fun steps => next steps a) :
    Follows tokens r (attempt >>= others) fun steps => first steps >>= next steps := by
  obtain ⟨answer, hagrees, enough, hrun⟩ := h
  cases hagrees with
  | done hkeeps hwithin =>
      -- both parts end with the greater number of steps
      obtain ⟨answer', hagrees', enough', hrun'⟩ := hnext _ _ hkeeps hwithin rfl
      refine ⟨answer', hagrees'.after hkeeps, max enough enough', fun steps hsteps => ?_⟩
      obtain ⟨hfirst, hnext⟩ := Nat.max_le.mp hsteps
      rw [outcome_bind_ok (hrun steps hfirst), hrun' steps hnext]
  | failed hkeeps =>
      exact ⟨_, .failed hkeeps, enough, fun steps hsteps => outcome_bind_error (hrun steps hsteps)⟩

/-- What stays where it is follows an attempt that reads nothing. -/
theorem ofAttempt (attempt : Attempt α) (hwithin : r.position ≤ tokens.length) :
    Follows tokens r (attempt >>= fun a => .ok (a, tokens.drop r.position))
      fun _ => Descent.ofAttempt attempt := by
  cases attempt with
  | ok a => exact .done hwithin
  | error e => exact .failed

/-- What may fail without reading goes on where the reader stands. -/
theorem ofAttempt_bind {attempt : Attempt α} {next : Nat → α → Descent β}
    {others : α → Attempt (β × Tokens)}
    (hnext : ∀ a, Follows tokens r (others a) fun steps => next steps a) :
    Follows tokens r (attempt >>= others)
      fun steps => Descent.ofAttempt attempt >>= next steps := by
  cases attempt with
  | ok a => exact hnext a
  | error e => exact .failed

/-- A descent is refused at the limit. -/
theorem nested_refused {inner : Nat → Descent α} (h : maxNesting ≤ r.nesting) :
    Follows tokens r
      (.error ⟨.nestedTooDeeply, place c (tokens.drop r.position)⟩ : Attempt (α × Tokens))
      fun steps => nested c tokens (inner steps) :=
  ⟨_, .failed (.refl r), 0, fun _ _ => by rw [outcome_nested, if_pos h]⟩

/-- A descent follows an attempt if what is done in it does. -/
theorem nested {inner : Nat → Descent α} (hlt : r.nesting < maxNesting)
    (h : Follows tokens r.enter attempt inner) :
    Follows tokens r attempt fun steps => Descent.nested c tokens (inner steps) := by
  obtain ⟨answer, hagrees, enough, hrun⟩ := h
  refine ⟨(answer.1, answer.2.leave), ?_, enough, fun steps hsteps => ?_⟩
  · cases hagrees with
    | done hkeeps hwithin => exact .done (hkeeps.leave hlt) hwithin
    | failed hkeeps => exact .failed (hkeeps.leave hlt)
  · rw [outcome_nested, if_neg (Nat.not_le.mpr hlt), hrun steps hsteps, Option.map_some]

end Follows

/-- Behind a token that is next the others are next, and the reader is still within the tokens. -/
theorem drop_next {r : Reader} {t : Located Token} {rest : Tokens}
    (h : tokens.drop r.position = t :: rest) :
    rest = tokens.drop r.next.position ∧ r.next.position ≤ tokens.length := by
  have hlt : r.position < tokens.length := by
    have hne : tokens.drop r.position ≠ [] := by
      rw [h]
      exact List.cons_ne_nil _ _
    simpa using hne
  have htail := congrArg List.tail h
  rw [List.tail_drop] at htail
  exact ⟨htail.symm, hlt⟩

/-- A closing parenthesis is passed where there is one. -/
theorem closing_follows (r : Reader) :
    Follows tokens r (Parser.closing c (tokens.drop r.position) >>= fun rest => .ok ((), rest))
      fun _ => closing c tokens := by
  refine .ahead ?_
  generalize hahead : tokens.drop r.position = ts
  rcases ts with _ | ⟨⟨value, span⟩, rest⟩
  · exact .failed
  · cases value
    case rightParen =>
      obtain ⟨rfl, hwithin⟩ := drop_next hahead
      exact ⟨_, .done .next hwithin, 0, fun _ _ => rfl⟩
    all_goals exact .failed

/-- A run goes on behind a closing parenthesis as the attempt does, with no more tokens ahead. -/
theorem closing_bind_follows {r : Reader} {next : Nat → Unit → Descent β}
    {others : Tokens → Attempt (β × Tokens)}
    (hnext : ∀ r', Keeps r r' → r'.position ≤ tokens.length →
      (tokens.drop r'.position).length ≤ (tokens.drop r.position).length →
      Follows tokens r' (others (tokens.drop r'.position)) fun steps => next steps ()) :
    Follows tokens r (Parser.closing c (tokens.drop r.position) >>= others)
      fun steps => closing c tokens >>= next steps := by
  have hfollows : Follows tokens r _ fun _ => closing c tokens := closing_follows r
  have hsame : (Parser.closing c (tokens.drop r.position) >>= others) =
      ((Parser.closing c (tokens.drop r.position) >>= fun rest => .ok ((), rest)) >>=
        fun answer => others answer.2) := by
    cases Parser.closing c (tokens.drop r.position) <;> rfl
  rw [hsame]
  refine hfollows.bind fun _ r' hkeeps hwithin hread => hnext r' hkeeps hwithin ?_
  obtain ⟨rest, hclosing, hrest⟩ := bind_eq_ok_iff.mp hread
  obtain ⟨span, hahead⟩ := closing_eq_ok hclosing
  obtain ⟨-, rfl⟩ := Prod.mk.inj (Except.ok.inj hrest)
  rw [hahead, List.length_cons]
  exact Nat.le_succ _

/-! ### Atoms, members and calls -/

/-- The reader and the parser of whole expressions, in some room. -/
def WholeFollows (c : Context) (tokens : Tokens) (room : Nat) : Prop :=
  ∀ r : Reader, maxNesting - r.nesting = room →
    Follows tokens r (Parser.whole c room (tokens.drop r.position)) (whole c tokens)

/-- The reader and the parser of operands, in some room. -/
def PartFollows (c : Context) (tokens : Tokens) (room : Nat) : Prop :=
  ∀ (least : Nat) (r : Reader), maxNesting - r.nesting = room →
    Follows tokens r (Parser.part c room least (tokens.drop r.position)) (part c tokens least)

section Nesting

variable {room : Nat} (hwhole : WholeFollows c tokens room) (hpart : PartFollows c tokens room)

include hwhole in
/-- Atoms follow their parser, if whole expressions do. -/
theorem atom_follows {r : Reader} (hroom : maxNesting - r.nesting = room) :
    Follows tokens r (Parser.atom c (Parser.whole c room) (tokens.drop r.position))
      (atom c tokens) := by
  refine .step ?_
  dsimp only [atom]
  refine .ahead ?_
  generalize hahead : tokens.drop r.position = ts
  rcases ts with _ | ⟨⟨value, span⟩, rest⟩
  · exact .failed
  · obtain ⟨rfl, hwithin⟩ := drop_next hahead
    cases value
    case number value => exact .advance (.done hwithin)
    case quoted content => exact .advance (.done hwithin)
    case name word => exact .advance (.done hwithin)
    case leftParen =>
      refine .advance (.ahead ?_)
      have hinner : Follows tokens r.next (do
          let (inner, rest) ← Parser.whole c room (tokens.drop r.next.position)
          let rest ← Parser.closing c rest
          .ok (inner, rest)) fun steps => (do
            let inner ← whole c tokens steps
            closing c tokens
            return inner) := by
        refine (hwhole r.next hroom).bind fun inner r' _ _ _ => ?_
        exact closing_bind_follows fun r'' _ hwithin _ => .done hwithin
      rcases hnext : tokens.drop r.next.position with _ | ⟨⟨value, span'⟩, rest⟩
      · rwa [hnext] at hinner
      · rw [hnext] at hinner
        cases value
        case rightParen => exact .failed
        all_goals exact hinner
    all_goals exact .failed

include hwhole in
/-- The rounds of the parser do not run out, because each of them takes a token. -/
theorem arguments_follows {rounds : Nat} {r : Reader} (hroom : maxNesting - r.nesting = room)
    (hrounds : (tokens.drop r.position).length < rounds) :
    Follows tokens r (Parser.arguments c (Parser.whole c room) rounds (tokens.drop r.position))
      (arguments c tokens) := by
  induction rounds generalizing r with
  | zero => exact absurd hrounds (Nat.not_lt_zero _)
  | succ rounds ih =>
      refine .step ?_
      dsimp only [arguments]
      refine .ahead ?_
      by_cases hclosed : ∃ span rest, tokens.drop r.position = ⟨.rightParen, span⟩ :: rest
      · obtain ⟨span, rest, hahead⟩ := hclosed
        have hwithin := Nat.le_of_succ_le (drop_next hahead).2
        have hdone : Follows tokens r (.ok (([], 0), tokens.drop r.position))
          fun _ => pure (([] : List Expr), 0) := .done hwithin
        rw [hahead] at hdone ⊢
        exact hdone
      · rw [Parser.arguments]
        · apply Follows.congr
          · intro steps
            split
            · rename_i span rest hahead
              exact absurd ⟨span, rest, hahead⟩ hclosed
            · rfl
          · refine (hwhole r hroom).bind fun first r' hkeeps hwithin hread => .ahead ?_
            have hshorter := ((whole_part_reads c room).1 _ _ _ hread).length_lt
            rcases hnext : tokens.drop r'.position with _ | ⟨⟨value, span⟩, rest⟩
            · exact .failed
            · obtain ⟨rfl, hwithin'⟩ := drop_next hnext
              cases value
              case comma =>
                have hlength := congrArg List.length hnext
                rw [List.length_cons] at hlength
                have hothers := ih (r := r'.next)
                  (by rw [← hroom, ← hkeeps.nesting]; rfl) (by omega)
                refine .advance (hothers.bind fun others r'' _ hwithin'' _ => ?_)
                exact .done hwithin''
              case rightParen =>
                dsimp only
                rw [← hnext]
                exact .done hwithin
              all_goals exact .failed
        · intro span rest hahead
          exact hclosed ⟨span, rest, hahead⟩

include hwhole in
/-- The rounds of the parser do not run out here either. -/
theorem trailers_follows {rounds : Nat} {operand : Grown} {r : Reader}
    (hroom : maxNesting - r.nesting = room) (hwithin : r.position ≤ tokens.length)
    (hrounds : (tokens.drop r.position).length ≤ rounds) :
    Follows tokens r
      (Parser.trailers c (Parser.whole c room) rounds operand (tokens.drop r.position))
      (trailers c tokens operand) := by
  induction rounds generalizing operand r with
  | zero =>
      have hempty := List.eq_nil_of_length_eq_zero (Nat.le_zero.mp hrounds)
      have hdone : Follows tokens r (.ok (operand, tokens.drop r.position)) fun _ => pure operand :=
        .done hwithin
      refine .step ?_
      dsimp only [trailers]
      refine .ahead ?_
      rw [hempty] at hdone ⊢
      exact hdone
  | succ rounds ih =>
      have hdone : Follows tokens r (.ok (operand, tokens.drop r.position)) fun _ => pure operand :=
        .done hwithin
      refine .step ?_
      dsimp only [trailers]
      refine .ahead ?_
      rcases hahead : tokens.drop r.position with _ | ⟨⟨value, span⟩, rest⟩
      · rwa [hahead] at hdone
      · have hlength := congrArg List.length hahead
        rw [List.length_cons] at hlength
        rw [hahead] at hdone
        obtain ⟨rfl, hwithin'⟩ := drop_next hahead
        cases value
        case dot =>
          rcases hnext : tokens.drop r.next.position with _ | ⟨⟨value, span'⟩, rest⟩
          · refine .advance (.ahead ?_)
            rw [hnext]
            exact .failed
          · rw [hnext, List.length_cons] at hlength
            obtain ⟨rfl, hwithin''⟩ := drop_next hnext
            refine .advance (.ahead ?_)
            rw [hnext]
            cases value
            case name word =>
              refine .advance (.ofAttempt_bind fun node => ?_)
              exact ih hroom hwithin'' (by omega)
            all_goals exact .failed
        case leftParen =>
          rw [Parser.trailers]
          refine .advance ((arguments_follows hwhole (r := r.next) hroom (Nat.lt_succ_self _)).bind
            fun args r' hkeeps _ hread => ?_)
          obtain ⟨⟨w, hw, -⟩, -⟩ := arguments_reads (whole_part_reads c room).1 hread
          have hargs := congrArg List.length hw
          rw [List.length_append] at hargs
          refine closing_bind_follows fun r'' hkeeps' hwithin'' hclosing =>
            .ofAttempt_bind fun node => ih ?_ hwithin'' (by omega)
          rw [hkeeps'.nesting, hkeeps.nesting]
          exact hroom
        all_goals exact hdone

include hwhole in
/-- So do atoms with the members and calls after them. -/
theorem primary_follows {r : Reader} (hroom : maxNesting - r.nesting = room) :
    Follows tokens r (plain c (Parser.whole c room) (tokens.drop r.position))
      (primary c tokens) := by
  refine .step ?_
  dsimp only [primary]
  refine (atom_follows hwhole hroom).bind fun first r' hkeeps hwithin _ => ?_
  exact trailers_follows hwhole (hkeeps.nesting ▸ hroom) hwithin (Nat.le_refl _)

/-! ### Operators -/

include hwhole hpart in
/-- So do operands, with an operator in front or without one. -/
theorem operand_follows {least : Nat} {r : Reader} (hroom : maxNesting - r.nesting = room) :
    Follows tokens r
      (Parser.operand c (Parser.whole c room) (Parser.part c room) least (tokens.drop r.position))
      (operand c tokens least) := by
  have hprimary := primary_follows hwhole hroom
  refine .step ?_
  dsimp only [operand]
  refine .ahead ?_
  rcases hahead : tokens.drop r.position with _ | ⟨⟨value, span⟩, rest⟩
  · rwa [hahead] at hprimary
  · rw [hahead] at hprimary
    cases value
    case symbol sign =>
      rw [Parser.operand]
      dsimp only
      rcases sign.unary? with _ | op
      · exact hprimary
      · dsimp only
        by_cases hnot : op = .not ∧ op.power < least
        · simp only [if_pos hnot]
          exact .failed
        · obtain ⟨rfl, -⟩ := drop_next hahead
          simp only [if_neg hnot]
          refine .advance ((hpart op.power r.next hroom).bind fun inner r' _ hwithin _ => ?_)
          exact .ofAttempt _ hwithin
    all_goals exact hprimary

include hpart in
/-- So does one operator with its right operand. -/
theorem operation_follows {left : Grown} {op : BinaryOp} {r : Reader}
    (hroom : maxNesting - r.nesting = room) :
    Follows tokens r
      (joined c (Parser.part c room) left op (place c (tokens.drop r.position))
        (tokens.drop r.next.position))
      (operation c tokens left op) := by
  refine .step ?_
  dsimp only [operation]
  refine .ahead (.advance ((hpart op.rightPower r.next hroom).bind fun right r' _ hwithin _ => ?_))
  refine .ahead ?_
  dsimp only
  split
  · exact .failed
  · exact .ofAttempt _ hwithin

include hpart in
/-- Neither do they run out in the loop over operators. -/
theorem operators_follows {least rounds : Nat} {left : Grown} {r : Reader}
    (hroom : maxNesting - r.nesting = room) (hwithin : r.position ≤ tokens.length)
    (hrounds : (tokens.drop r.position).length ≤ rounds) :
    Follows tokens r
      (Parser.operators c (Parser.part c room) least rounds left (tokens.drop r.position))
      (operators c tokens least left) := by
  induction rounds generalizing left r with
  | zero =>
      have hempty := List.eq_nil_of_length_eq_zero (Nat.le_zero.mp hrounds)
      have hdone : Follows tokens r (.ok (left, tokens.drop r.position)) fun _ => pure left :=
        .done hwithin
      refine .step ?_
      dsimp only [operators]
      refine .ahead ?_
      rw [hempty] at hdone ⊢
      exact hdone
  | succ rounds ih =>
      have hdone : Follows tokens r (.ok (left, tokens.drop r.position)) fun _ => pure left :=
        .done hwithin
      refine .step ?_
      dsimp only [operators]
      refine .ahead ?_
      rcases hahead : tokens.drop r.position with _ | ⟨⟨value, span⟩, rest⟩
      · rwa [hahead] at hdone
      · have hlength := congrArg List.length hahead
        rw [List.length_cons] at hlength
        rw [hahead] at hdone
        obtain ⟨rfl, hwithin'⟩ := drop_next hahead
        cases value
        case symbol sign =>
          dsimp only
          rcases hop : sign.binary? with _ | op
          · rw [Parser.operators, hop]
            exact hdone
          · dsimp only
            by_cases hleast : op.power < least
            · rw [Parser.operators, hop]
              simp only [if_pos hleast]
              exact hdone
            · have hoperation : Follows tokens r _ (operation c tokens left op) :=
                operation_follows hpart hroom
              rw [hahead] at hoperation
              rw [operators_symbol hop hleast]
              simp only [if_neg hleast]
              refine hoperation.bind fun node r' hkeeps hwithin'' hread => ?_
              have hshorter := joined_length_lt (whole_part_reads c room).2 hread
              exact ih (hkeeps.nesting ▸ hroom) hwithin'' (by omega)
        all_goals exact hdone

/-! ### Expressions -/

/-- In a room with a descent left, one descent leaves the room without it. -/
theorem room_enter {r : Reader} (hroom : maxNesting - r.nesting = room + 1) :
    r.nesting < maxNesting ∧ maxNesting - r.enter.nesting = room := by
  rw [Reader.nesting_enter]
  omega

include hwhole hpart in
/-- With one descent more, expressions that bind with some power follow their parser. -/
theorem part_succ_follows : PartFollows c tokens (room + 1) := by
  intro least r hroom
  obtain ⟨hlt, hroom'⟩ := room_enter hroom
  refine .step ?_
  dsimp only [part]
  rw [Parser.part]
  refine .nested hlt ((operand_follows hwhole hpart hroom').bind fun left r' hkeeps hwithin _ => ?_)
  exact operators_follows hpart (hkeeps.nesting ▸ hroom') hwithin (Nat.le_refl _)

include hwhole hpart in
/-- With one descent more, whole expressions follow their parser. -/
theorem whole_succ_follows : WholeFollows c tokens (room + 1) := by
  intro r hroom
  obtain ⟨hlt, hroom'⟩ := room_enter hroom
  refine .step ?_
  dsimp only [whole]
  rw [Parser.whole]
  refine .nested hlt ((hpart 0 r.enter hroom').bind fun body r' hkeeps hwithin _ => .ahead ?_)
  by_cases hif : ∃ span rest, tokens.drop r'.position = ⟨.keyword "if", span⟩ :: rest
  · obtain ⟨span, rest, hahead⟩ := hif
    obtain ⟨rfl, -⟩ := drop_next hahead
    have htest : maxNesting - r'.next.nesting = room := hkeeps.nesting ▸ hroom'
    rw [hahead]
    refine .advance ((hpart 0 r'.next htest).bind fun test s hkeeps' hwithin' _ => .ahead ?_)
    by_cases helse : ∃ span rest, tokens.drop s.position = ⟨.keyword "else", span⟩ :: rest
    · obtain ⟨span', rest', hahead'⟩ := helse
      obtain ⟨rfl, -⟩ := drop_next hahead'
      rw [hahead']
      have halternative : maxNesting - s.next.nesting = room := hkeeps'.nesting ▸ htest
      refine .advance ((hwhole s.next halternative).bind fun alternative s' _ hwithin'' _ => ?_)
      exact .ofAttempt _ hwithin''
    · refine ⟨(.error (unexpected c .elseKeyword (tokens.drop s.position)), s), ?_, 0,
        fun _ _ => ?_⟩
      · dsimp only
        split
        · exact absurd ⟨_, _, ‹tokens.drop s.position = _›⟩ helse
        · exact .failed (.refl s)
      · split
        · exact absurd ⟨_, _, ‹tokens.drop s.position = _›⟩ helse
        · rfl
  · refine ⟨(.ok body, r'), ?_, 0, fun _ _ => ?_⟩
    · dsimp only
      split
      · exact absurd ⟨_, _, ‹tokens.drop r'.position = _›⟩ hif
      · exact .done (.refl r') hwithin
    · split
      · exact absurd ⟨_, _, ‹tokens.drop r'.position = _›⟩ hif
      · rfl

end Nesting

/-- The reader follows the parsers in every room. -/
theorem whole_part_follows (c : Context) (tokens : Tokens) (room : Nat) :
    WholeFollows c tokens room ∧ PartFollows c tokens room := by
  induction room with
  | zero =>
      -- without room the counter is at its limit, and the descent is refused on both sides
      refine ⟨fun r hroom => .step ?_, fun least r hroom => .step ?_⟩
      · dsimp only [whole]
        rw [Parser.whole]
        exact .nested_refused (Nat.le_of_sub_eq_zero hroom)
      · dsimp only [part]
        rw [Parser.part]
        exact .nested_refused (Nat.le_of_sub_eq_zero hroom)
  | succ room ih => exact ⟨whole_succ_follows ih.1 ih.2, part_succ_follows ih.1 ih.2⟩

/-! ## Progress and balance -/

/-- With enough steps a run ends, with the answer of an attempt on the tokens ahead. The nesting is
what it was then, and it was never greater than it may be. After a success at least `taken` tokens
are taken, the reader is still within the tokens, and those that the attempt leaves are ahead. -/
def Steady (tokens : Tokens) (r : Reader) (taken : Nat) (attempt : Attempt (α × Tokens))
    (run : Nat → Descent α) : Prop :=
  ∃ r', (∃ enough, ∀ steps, enough ≤ steps →
      (run steps).outcome r = some (attempt.map Prod.fst, r')) ∧
    r'.nesting = r.nesting ∧ r'.deepest ≤ maxNesting ∧
    ∀ a rest, attempt = .ok (a, rest) →
      r.position + taken ≤ r'.position ∧ r'.position ≤ tokens.length ∧
        rest = tokens.drop r'.position

/-- What follows an attempt that takes tokens is steady. -/
theorem Follows.steady {position nesting taken : Nat} {attempt : Attempt (α × Tokens)}
    {run : Nat → Descent α} (hposition : position ≤ tokens.length) (hnesting : nesting ≤ maxNesting)
    (h : Follows tokens (.start position nesting) attempt run)
    (htaken : ∀ a rest, attempt = .ok (a, rest) →
      rest.length + taken ≤ (tokens.drop position).length) :
    Steady tokens (.start position nesting) taken attempt run := by
  have hdeepest : ∀ {r'}, Keeps (.start position nesting) r' → r'.deepest ≤ maxNesting :=
    fun hkeeps => Nat.le_trans hkeeps.deepest_le (Nat.max_le.mpr ⟨hnesting, Nat.le_refl _⟩)
  obtain ⟨answer, hagrees, hrun⟩ := h
  cases hagrees with
  | done hkeeps hwithin =>
      refine ⟨_, hrun, hkeeps.nesting, hdeepest hkeeps, ?_⟩
      rintro a rest ⟨⟩
      have hlength := htaken _ _ rfl
      rw [List.length_drop, List.length_drop] at hlength
      refine ⟨?_, hwithin, rfl⟩
      change position + taken ≤ _
      omega
  | failed hkeeps =>
      refine ⟨_, hrun, hkeeps.nesting, hdeepest hkeeps, ?_⟩
      rintro a rest ⟨⟩

/-- The reader ends wherever it starts within the tokens and within the limit on the counter, and
whatever it is asked to read. It gives what the parsers give for the tokens ahead in the nesting
that is left. If something was read, the position has moved and is within the tokens; only the
arguments of a call may be none. The counter is where it was, after a mistake as well, and was never
above its limit. -/
theorem balanced (c : Context) (tokens : Tokens) {position nesting : Nat}
    (hposition : position ≤ tokens.length) (hnesting : nesting ≤ maxNesting) :
    let r := Reader.start position nesting
    let ts := tokens.drop position
    let whole' := Parser.whole c (maxNesting - nesting)
    let part' := Parser.part c (maxNesting - nesting)
    Steady tokens r 1 (whole' ts) (whole c tokens) ∧
      (∀ least, Steady tokens r 1 (part' least ts) (part c tokens least)) ∧
      (∀ least, Steady tokens r 1 (Parser.operand c whole' part' least ts)
        (operand c tokens least)) ∧
      Steady tokens r 1 (plain c whole' ts) (primary c tokens) ∧
      Steady tokens r 1 (Parser.atom c whole' ts) (atom c tokens) ∧
      Steady tokens r 0 (Parser.arguments c whole' (ts.length + 1) ts) (arguments c tokens) ∧
      ∀ left op, Steady tokens r 1 (joined c part' left op (place c ts)
        (tokens.drop (position + 1))) (operation c tokens left op) := by
  intro r ts whole' part'
  obtain ⟨hwhole, hpart⟩ := whole_part_follows c tokens (maxNesting - nesting)
  obtain ⟨hwhole', hpart'⟩ := whole_part_reads c (maxNesting - nesting)
  refine ⟨?_, fun least => ?_, fun least => ?_, ?_, ?_, ?_, fun left op => ?_⟩
  · refine (hwhole r rfl).steady hposition hnesting fun g rest h => ?_
    exact (hwhole' _ _ _ h).length_lt
  · refine (hpart least r rfl).steady hposition hnesting fun g rest h => ?_
    exact (hpart' _ _ _ _ h).1.length_lt
  · refine (operand_follows hwhole hpart rfl).steady hposition hnesting fun g rest h => ?_
    exact (operand_ready hwhole' hpart' h).asked.length_lt
  · refine (primary_follows hwhole rfl).steady hposition hnesting fun g rest h => ?_
    have hready : Ready c 0 ts g rest := plain_ready hwhole' h
    exact hready.asked.length_lt
  · refine (atom_follows hwhole rfl).steady hposition hnesting fun g rest h => ?_
    exact (atom_reads hwhole' h).length_lt
  · refine (arguments_follows hwhole rfl (Nat.lt_succ_self _)).steady hposition hnesting
      fun g rest h => ?_
    obtain ⟨⟨w, hw, -⟩, -⟩ := arguments_reads hwhole' h
    have hlength : ts.length = w.length + rest.length := hw ▸ List.length_append
    exact hlength ▸ Nat.le_add_left _ _
  · refine (operation_follows hpart rfl).steady hposition hnesting fun g rest h => ?_
    have hlt := joined_length_lt hpart' h
    rw [List.length_drop] at hlt ⊢
    exact Nat.lt_of_lt_of_le hlt (Nat.sub_le_sub_left (Nat.le_succ _) _)

/-- One descent before the limit an expression in parentheses is begun and refused, and the counter
is where it was; with all of the room it is read to its end. -/
theorem balanced_parenthesized :
    let finish : Span := ⟨3, 3⟩
    let tokens : Tokens := [⟨.leftParen, ⟨0, 1⟩⟩, ⟨.name "x", ⟨1, 2⟩⟩, ⟨.rightParen, ⟨2, 3⟩⟩]
    (∃ r', (∃ enough, ∀ steps, enough ≤ steps →
          (whole ⟨finish, maxHeight⟩ tokens steps).outcome (.start 0 199) =
            some (.error ⟨.nestedTooDeeply, ⟨0, 1⟩⟩, r')) ∧
        r'.nesting = 199 ∧ r'.deepest ≤ 200) ∧
      ∃ r', (∃ enough, ∀ steps, enough ≤ steps →
          (whole ⟨finish, maxHeight⟩ tokens steps).outcome (.start 0 0) =
            some (.ok ⟨.name "x", 1⟩, r')) ∧
        r'.nesting = 0 ∧ r'.position = 3 := by
  intro finish tokens
  have hlate := balanced ⟨finish, maxHeight⟩ tokens (Nat.zero_le _) (by decide : 199 ≤ maxNesting)
  have hearly := balanced ⟨finish, maxHeight⟩ tokens (Nat.zero_le _) (Nat.zero_le maxNesting)
  obtain ⟨r', hrun, hnesting, hdeepest, -⟩ := hlate.1
  obtain ⟨s', hrun', hnesting', -, hmoved⟩ := hearly.1
  refine ⟨⟨r', hrun, hnesting, hdeepest⟩, s', hrun', hnesting', ?_⟩
  obtain ⟨-, hwithin, hrest⟩ := hmoved ⟨.name "x", 1⟩ [] rfl
  exact Nat.le_antisymm hwithin (List.drop_eq_nil_iff.mp hrest.symm)

end Descent

end Parser

end Elementwise
