import Elementwise.Proofs.Elements

/-!
# Runs of compiled programs

A compiled program writes the values of its formula, for one element after the other and up to the
first fault (`Program.Compiled.run_eq`). Where only the bytecode is known to be that of a formula,
the same holds of runs that succeed (`Program.run_eq_of_none`). In a session the parameters are
literals, and these are converted first: the session runs the program with what they stand for, or
refuses the one that does not convert (`Session.execute_cases`).
-/

namespace Elementwise

variable {T : ElementType}

/-- The value of a parameter; zero for a name that is not declared. -/
def Environment.parameter (env : Environment T) (name : String) : T.Value :=
  env.values.getD (env.names.idxOf name) T.zero

/-- What the results of a plain job leave in a destination. -/
def Outcome.ofPlain (destination : List T.Value) (result : List T.Value × Option ElementFault) :
    Outcome T :=
  ⟨result.1 ++ destination.drop result.1.length,
    result.2.map fun f => .arithmeticFault f.index f.operation f.reason⟩

/-- Where every element has a value, there is no error, and each value stands at the place of its
element. -/
theorem Outcome.ofPlain_of_values {job : Job T} {list : List T.Value}
    (h : ∀ x ∈ list, ∃ value, job.value x = .ok value) (destination : List T.Value) :
    (ofPlain destination (job.plain 0 list)).error = none ∧
      ∀ (i : Nat) (x : T.Value), list[i]? = some x →
        ∃ value, (ofPlain destination (job.plain 0 list)).destination[i]? = some value ∧
          job.value x = .ok value := by
  have hnone : (job.plain 0 list).2 = none := Job.plain_eq_none_iff.mpr h
  refine ⟨by rw [ofPlain, hnone]; rfl, fun i x hx => ?_⟩
  have hlt : i < (job.plain 0 list).1.length := by
    rw [Job.length_plain_of_none hnone]
    exact (List.getElem?_eq_some_iff.mp hx).1
  obtain ⟨x', hx', hvalue⟩ := Job.value_of_plain (List.getElem?_eq_getElem hlt)
  obtain rfl : x' = x := Option.some.inj (hx'.symm.trans hx)
  refine ⟨_, ?_, hvalue⟩
  rw [ofPlain, List.getElem?_append_left hlt, List.getElem?_eq_getElem hlt]

/-- The job of a formula, with the names and the values of its parameters. -/
def Formula.job (u : Formula) (names : List String) (values : List T.Value) (checked : Bool) :
    Job T :=
  ⟨u.code.map (Action.step T names), values, checked⟩

/-- A job of a formula gives the values of the formula. -/
theorem Formula.job_value (u : Formula) (element : String) (names : List String)
    (values : List T.Value) (checked : Bool) (x : T.Value) :
    (u.job names values checked).value x = u.value ⟨element, x, names, values, checked⟩ :=
  u.value_job ⟨element, x, names, values, checked⟩

/-- A run of a compiled program leaves what the job of its formula gives. -/
theorem Program.Compiled.run_eq {equation element : String} {parameters : List String}
    {p : Program T} {e : Expr} {u : Formula} (h : p.Compiled equation element parameters e u)
    {values : List T.Value} (hvalues : values.length = p.parameters.length)
    (hadmissible : ∀ a ∈ values, T.isAdmissible a = true) {source destination : List T.Value}
    (harrays : source.length = destination.length) (options : RunOptions) :
    p.run values source destination options =
      .ofPlain destination ((u.fold.job parameters values options.checked).plain 0
        (Bytecode.processed options.limit source)) := by
  let adjusted : RunOptions := ⟨max 1 options.lanes, options.checked, options.limit⟩
  have hprepared : p.bytecode.Prepared values (.zeros T (p.depth * adjusted.lanes)) source
      destination adjusted.lanes (u.fold.code.map (Action.step T parameters)) p.depth :=
    h.prepared hvalues hadmissible harrays (by simp only [adjusted]; omega) (Nat.min_le_left _ _)
  exact Bytecode.execute_eq_plain hprepared

/-- A run that succeeds leaves what the job of the formula gives whose bytecode it runs. -/
theorem Program.run_eq_of_none {parameters : List String} {p : Program T} {u : Formula}
    (hfits : Action.Fits T parameters u.code) (hbytecode : p.bytecode = .emit T parameters u.code)
    {values : List T.Value} (hvalues : values.length = parameters.length)
    {source destination : List T.Value} {options : RunOptions}
    (h : (p.run values source destination options).error = none) :
    p.run values source destination options =
      .ofPlain destination ((u.job parameters values options.checked).plain 0
        (Bytecode.processed options.limit source)) := by
  let adjusted : RunOptions := ⟨max 1 options.lanes, options.checked, options.limit⟩
  rcases p.bytecode.prepare_cases values (.zeros T (p.depth * adjusted.lanes)) source destination
    adjusted.lanes with ⟨steps, depth, hprepared⟩ | ⟨e, -, hrefused⟩
  · have hsteps : steps = u.code.map (Action.step T parameters) := by
      have hdecode := hfits.decode_emit u.proper_code
      rw [← hbytecode, ← hvalues] at hdecode
      exact Except.ok.inj (hprepared.decoded.symm.trans hdecode)
    subst hsteps
    exact Bytecode.execute_eq_plain hprepared
  · have hrun : p.run values source destination options = ⟨destination, some e⟩ := hrefused _ _
    rw [hrun] at h
    cases h

namespace Session

/-- Literals convert to values exactly if each of them converts to the value at its place. -/
theorem convert_eq_ok_iff {index : Nat} {literals : List Literal} {values : List T.Value} :
    convert index literals = .ok values ↔ literals.map T.ofLiteral? = values.map some := by
  induction literals generalizing index values with
  | nil => cases values <;> simp [convert]
  | cons l rest ih =>
      rw [convert, List.map_cons]
      rcases hl : T.ofLiteral? l with _ | a
      · cases values <;> simp
      · dsimp only
        rw [bind_eq_ok_iff]
        simp only [ih]
        cases values with
        | nil => simp
        | cons b others => simp [and_comm]

/-- Where conversion fails, there is a literal that does not convert, and the error is that of a
parameter out of range. -/
theorem of_convert_eq_error {index : Nat} {literals : List Literal} {e : Error}
    (h : convert (T := T) index literals = .error e) :
    (∃ l ∈ literals, T.ofLiteral? l = none) ∧ ∃ i text, e = .parameterOutOfRange i text T := by
  induction literals generalizing index with
  | nil => cases h
  | cons l rest ih =>
      rw [convert] at h
      rcases hl : T.ofLiteral? l with _ | a
      · rw [hl] at h
        cases h
        exact ⟨⟨l, List.mem_cons_self, hl⟩, index, l.text, rfl⟩
      · rw [hl] at h
        rcases bind_eq_error_iff.mp h with hrest | ⟨others, -, hothers⟩
        · obtain ⟨⟨l', hl', hnone⟩, herror⟩ := ih hrest
          exact ⟨⟨l', List.mem_cons_of_mem l hl', hnone⟩, herror⟩
        · cases hothers

/-- A run that succeeds has a literal for each parameter. -/
theorem length_of_execute {s : Session T} {p : Program T} (hs : s.program = some p)
    {source destination : List T.Value} {literals : List Literal} {options : RunOptions}
    (h : (s.execute source destination literals options).error = none) :
    literals.length = p.parameters.length := by
  by_contra hne
  unfold execute bindParameters at h
  rw [hs] at h
  dsimp only at h
  rw [if_pos hne] at h
  cases h

/-- A session with a program runs it with the values of the literals, or it refuses a literal that
does not convert and leaves the destination. -/
theorem execute_cases {s : Session T} {p : Program T} (hs : s.program = some p)
    {literals : List Literal} (hlength : literals.length = p.parameters.length)
    (source destination : List T.Value) (options : RunOptions) :
    (∃ values, literals.map T.ofLiteral? = values.map some ∧
      s.execute source destination literals options = p.run values source destination options) ∨
    ((∃ l ∈ literals, T.ofLiteral? l = none) ∧ ∃ index text,
      s.execute source destination literals options =
        ⟨destination, some (.parameterOutOfRange index text T)⟩) := by
  have hbind : bindParameters p literals = convert 0 literals :=
    if_neg (Classical.not_not.mpr hlength)
  unfold execute
  rw [hs]
  dsimp only
  rw [hbind]
  rcases hconvert : convert (T := T) 0 literals with e | values
  · obtain ⟨hnone, index, text, rfl⟩ := of_convert_eq_error hconvert
    exact .inr ⟨hnone, index, text, rfl⟩
  · exact .inl ⟨values, convert_eq_ok_iff.mp hconvert, rfl⟩

end Session

end Elementwise
