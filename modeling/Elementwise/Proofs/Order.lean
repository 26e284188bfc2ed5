import Elementwise.Proofs.Names
import Elementwise.Proofs.Runs
import Mathlib.Data.Fin.Tuple.Sort
import Mathlib.Data.List.FinRange

/-!
# The order of declaration is immaterial

Parameters are declared in a list, and literals are given for them in the same order. What an
equation compiles to depends on the order only through registers: a parameter is read from the
register of its place. `Program.compile_permuted` compares two declarations that differ by a
permutation `σ`.

* A compilation checks declared names one by one, or as a set without duplicates, so it succeeds for
  both or for neither (`Program.exists_compile_of_perm`).
* The name at place `r` of the second list stands at place `σ r` of the first (`idxOf_ofFn`), and so
  do its value and its literal. Each name has the same value in both environments, and with it the
  formula (`Formula.value_congr`).
-/

namespace Elementwise

variable {T : ElementType}

/-! ## Compilation -/

/-- A compilation that succeeds also succeeds with the parameters in another order. -/
theorem Program.exists_compile_of_perm {settings : Settings} {equation element : String}
    {parameters others : List String} (hperm : parameters.Perm others)
    (h : ∃ p, compile T settings equation element parameters = .ok p) :
    ∃ q, compile T settings equation element others = .ok q := by
  obtain ⟨p, h⟩ := h
  obtain ⟨_, hnames, h⟩ := bind_eq_ok_iff.mp h
  obtain ⟨parsed, hparsed, h⟩ := bind_eq_ok_iff.mp h
  obtain ⟨code, hcode, h⟩ := bind_eq_ok_iff.mp h
  obtain ⟨hconverts, hoperations, hdepth, ⟨⟨hdistinct, hlength⟩, hread⟩, -⟩ :=
    assemble_eq_ok_iff.mp h
  have hall : (element :: parameters).Perm (element :: others) := hperm.cons element
  have hnames' : checkNames (element :: others) = .ok () := by
    rw [checkNames_eq_ok_iff] at hnames ⊢
    intro name hname
    exact hnames name (hall.mem_iff.mpr hname)
  have hassemble : assemble T settings element others (Action.foldSigns code) =
      .ok ⟨.emit T others (Action.foldSigns code), p.depth, others⟩ := by
    rw [hperm.length_eq] at hlength
    refine assemble_eq_ok_iff.mpr
      ⟨hconverts, hoperations, hdepth, ⟨⟨hall.nodup_iff.mp hdistinct, hlength⟩, ?_⟩, rfl, rfl⟩
    intro name
    rw [hread name, hperm.mem_iff]
  exact ⟨_, (compile_eq_assemble hnames' hparsed hcode).trans hassemble⟩

/-! ## Places -/

/-- The name at a place of a list without duplicates is found there. -/
theorem idxOf_ofFn {n : Nat} {names : Fin n → String} (h : (List.ofFn names).Nodup) (i : Fin n) :
    (List.ofFn names).idxOf (names i) = i := by
  have hi : (i : Nat) < (List.ofFn names).length := by simp
  have hindex := h.idxOf_getElem i hi
  rwa [List.getElem_ofFn] at hindex

/-- The value at the place of a name. -/
theorem getD_idxOf_ofFn {α : Type} {n : Nat} {names : Fin n → String}
    (h : (List.ofFn names).Nodup) (values : Fin n → α) (zero : α) (i : Fin n) :
    (List.ofFn values).getD ((List.ofFn names).idxOf (names i)) zero = values i := by
  simp [idxOf_ofFn h i, List.getD_eq_getElem?_getD]

/-- A session with a program runs it with the value of the literal at each place, or it refuses a
literal that does not convert and leaves the destination. -/
theorem Session.execute_ofFn {s : Session T} {p : Program T} (hs : s.program = some p) {n : Nat}
    (hcount : p.parameters.length = n) (literals : Fin n → Literal)
    (source destination : List T.Value) (options : RunOptions) :
    (∃ values : Fin n → T.Value, (∀ i, T.ofLiteral? (literals i) = some (values i)) ∧
      s.execute source destination (List.ofFn literals) options =
        p.run (List.ofFn values) source destination options) ∨
    ((∃ i, T.ofLiteral? (literals i) = none) ∧ ∃ index text,
      s.execute source destination (List.ofFn literals) options =
        ⟨destination, some (.parameterOutOfRange index text T)⟩) := by
  have hlength : (List.ofFn literals).length = p.parameters.length := by simp [hcount]
  rcases execute_cases hs hlength source destination options with
    ⟨list, hlist, hrun⟩ | ⟨⟨l, hl, hnone⟩, hrefused⟩
  · have hn : list.length = n := by simpa using (congrArg List.length hlist).symm
    clear hcount hlength
    subst hn
    refine .inl ⟨list.get, fun i => ?_, by rw [List.ofFn_get, hrun]⟩
    have hi : ((List.ofFn literals).map T.ofLiteral?)[i.val]? = (list.map some)[i.val]? := by
      rw [hlist]
    simpa using hi
  · obtain ⟨i, rfl⟩ := List.mem_ofFn.mp hl
    exact .inr ⟨⟨i, hnone⟩, hrefused⟩

/-! ## Values -/

/-- A formula has the same value in environments that give the same values to the element and to the
parameters that it reads. -/
theorem Formula.value_congr {env env' : Environment T} {u : Formula} (helement : env.x = env'.x)
    (hchecked : env.checked = env'.checked)
    (hparameters : ∀ name, .parameter name ∈ u.code → env.parameter name = env'.parameter name) :
    u.value env = u.value env' := by
  induction u with
  | element => rw [value, value, helement]
  | parameter name => exact congrArg _ (hparameters name (List.mem_singleton_self _))
  | constant l => rfl
  | unary op arity operand ih =>
      rw [value, value, hchecked, ih fun name hname => hparameters name (by simp [code, hname])]
  | binary op arity left right ihleft ihright =>
      rw [value, value, hchecked,
        ihleft fun name hname => hparameters name (by simp [code, hname]),
        ihright fun name hname => hparameters name (by simp [code, hname])]

/-! ## Programs -/

/-- A literal was refused for a parameter. -/
def Outcome.Unconverted (o : Outcome T) : Prop :=
  ∃ index text U, o.error = some (.parameterOutOfRange index text U)

/-- Two programs are the same but for registers, and where they read a parameter, the register `r`
of the second is the register `σ r` of the first. -/
structure Program.Permuted {n : Nat} (σ : Equiv.Perm (Fin n)) (p q : Program T) : Prop where
  codes : q.bytecode.codes = p.bytecode.codes
  constants : q.bytecode.constants = p.bytecode.constants
  depth : q.depth = p.depth
  registers_length : q.bytecode.registers.length = p.bytecode.registers.length
  read : ∀ i, p.bytecode.operationAt? i = some .pushParameter → ∃ r : Fin n,
    q.bytecode.registers[i]? = some r.val ∧ p.bytecode.registers[i]? = some (σ r).val
  others : ∀ i, p.bytecode.operationAt? i ≠ some .pushParameter →
    q.bytecode.registers[i]? = p.bytecode.registers[i]?

section Declarations

variable {settings : Settings} {equation element : String} {n : Nat} {names : Fin n → String}
  {σ : Equiv.Perm (Fin n)} {p q : Program T}

/-- Programs of the same equation have the same tree and the same formula. -/
theorem Program.exists_compiled_both {parameters others : List String}
    (hp : compile T settings equation element parameters = .ok p)
    (hq : compile T settings equation element others = .ok q) :
    ∃ e u, p.Compiled equation element parameters e u ∧ q.Compiled equation element others e u := by
  obtain ⟨e, u, hcompiled⟩ := exists_compiled hp
  obtain ⟨e', u', hcompiled'⟩ := exists_compiled hq
  cases hcompiled.parsed.symm.trans hcompiled'.parsed
  cases hcompiled.formula.symm.trans hcompiled'.formula
  exact ⟨e, u, hcompiled, hcompiled'⟩

variable {e : Expr} {u : Formula}

/-- The programs of permuted declarations differ by the permutation of the registers. -/
theorem Program.Compiled.permuted (hp : p.Compiled equation element (List.ofFn names) e u)
    (hq : q.Compiled equation element (List.ofFn (names ∘ σ)) e u) : p.Permuted σ q := by
  have hnodup := hp.fits.nodup
  have hnodup' := hq.fits.nodup
  constructor
  case codes => rw [hp.bytecode, hq.bytecode]; rfl
  case constants => rw [hp.bytecode, hq.bytecode]; rfl
  case depth => rw [hp.depth, hq.depth]
  case registers_length => simp [hp.bytecode, hq.bytecode, Bytecode.emit]
  case read =>
    intro i hi
    rw [hp.bytecode, hp.fits.operationAt?_emit] at hi
    obtain ⟨action, haction, hop⟩ := Option.map_eq_some_iff.mp hi
    have hmem := List.mem_of_getElem? haction
    obtain ⟨name, rfl⟩ := Action.eq_parameter_of_operation u.fold.proper_code hmem hop
    obtain ⟨r, rfl⟩ := List.mem_ofFn.mp (hq.fits.declared name hmem)
    refine ⟨r, ?_, ?_⟩
    · simp only [hq.bytecode, Bytecode.emit, List.getElem?_map, haction, Option.map_some,
        Action.register, Action.parameter?, idxOf_ofFn hnodup' r]
    · simp only [hp.bytecode, Bytecode.emit, List.getElem?_map, haction, Option.map_some,
        Action.register, Action.parameter?, Function.comp_apply, idxOf_ofFn hnodup (σ r)]
  case others =>
    intro i hi
    rw [hp.bytecode, hp.fits.operationAt?_emit] at hi
    simp only [hp.bytecode, hq.bytecode, Bytecode.emit, List.getElem?_map]
    rcases haction : u.fold.code[i]? with _ | action
    · rfl
    · rw [haction] at hi
      cases action with
      | parameter name => exact absurd rfl hi
      | element | constant _ | apply _ => rfl

/-- Runs of the programs of permuted declarations, with values permuted in the same way, leave the
same. -/
theorem Program.Compiled.run_permuted (hp : p.Compiled equation element (List.ofFn names) e u)
    (hq : q.Compiled equation element (List.ofFn (names ∘ σ)) e u) {values : Fin n → T.Value}
    (hadmissible : ∀ i, T.isAdmissible (values i) = true) (source destination : List T.Value)
    (options : RunOptions) :
    p.run (List.ofFn values) source destination options =
      q.run (List.ofFn (values ∘ σ)) source destination options := by
  by_cases harrays : source.length = destination.length
  · have hagree : ∀ x ∈ Bytecode.processed options.limit source,
        (u.fold.job (List.ofFn names) (List.ofFn values) options.checked).value x =
          (u.fold.job (List.ofFn (names ∘ σ)) (List.ofFn (values ∘ σ))
            options.checked).value x := by
      intro x _
      rw [Formula.job_value _ element, Formula.job_value _ element]
      refine Formula.value_congr rfl rfl fun name hname => ?_
      obtain ⟨r, rfl⟩ := List.mem_ofFn.mp (hq.fits.declared name hname)
      calc _ = values (σ r) := getD_idxOf_ofFn hp.fits.nodup values T.zero (σ r)
        _ = _ := (getD_idxOf_ofFn hq.fits.nodup (values ∘ σ) T.zero r).symm
    have hbound : ∀ a ∈ List.ofFn values, T.isAdmissible a = true :=
      List.forall_mem_ofFn_iff.mpr hadmissible
    have hbound' : ∀ a ∈ List.ofFn (values ∘ σ), T.isAdmissible a = true :=
      List.forall_mem_ofFn_iff.mpr fun i => hadmissible (σ i)
    rw [hp.run_eq (by simp [hp.names]) hbound harrays,
      hq.run_eq (by simp [hq.names]) hbound' harrays, Job.plain_congr hagree]
  · rw [hp.run_eq_of_arrays harrays, hq.run_eq_of_arrays harrays]

end Declarations

/-- **The order of declaration is immaterial.** An equation compiles with permuted parameters
exactly if it compiles; the programs then differ by the permutation of registers where a parameter
is read, and nowhere else. With literals permuted in the same way, executions leave the same
destination, refuse a literal both or neither, and otherwise end in the same way. -/
theorem Program.compile_permuted (settings : Settings) (equation element : String) {n : Nat}
    (names : Fin n → String) (σ : Equiv.Perm (Fin n)) :
    ((∃ p, compile T settings equation element (List.ofFn (names ∘ σ)) = .ok p) ↔
      ∃ p, compile T settings equation element (List.ofFn names) = .ok p) ∧
    ∀ p q, compile T settings equation element (List.ofFn names) = .ok p →
      compile T settings equation element (List.ofFn (names ∘ σ)) = .ok q →
      p.Permuted σ q ∧
      ∀ (s s' : Session T), s.program = some p → s'.program = some q →
        ∀ (literals : Fin n → Literal) (source destination : List T.Value) (options : RunOptions),
          let o := s.execute source destination (List.ofFn literals) options
          let o' := s'.execute source destination (List.ofFn (literals ∘ σ)) options
          o'.destination = o.destination ∧ (o'.Unconverted ↔ o.Unconverted) ∧
            (¬o.Unconverted → o'.error = o.error) := by
  have hperm : (List.ofFn (names ∘ σ)).Perm (List.ofFn names) := Equiv.Perm.ofFn_comp_perm σ names
  refine ⟨⟨exists_compile_of_perm hperm, exists_compile_of_perm hperm.symm⟩, ?_⟩
  intro p q hp hq
  obtain ⟨e, u, hcompiled, hcompiled'⟩ := exists_compiled_both hp hq
  refine ⟨hcompiled.permuted hcompiled', ?_⟩
  intro s s' hs hs' literals source destination options o o'
  have hcount : p.parameters.length = n := by simp [hcompiled.names]
  have hcount' : q.parameters.length = n := by simp [hcompiled'.names]
  rcases Session.execute_ofFn hs hcount literals source destination options with
    ⟨values, hvalues, hrun⟩ | ⟨⟨i, hi⟩, index, text, hrefused⟩ <;>
  rcases Session.execute_ofFn hs' hcount' (literals ∘ σ) source destination options with
    ⟨values', hvalues', hrun'⟩ | ⟨⟨j, hj⟩, index', text', hrefused'⟩
  · obtain rfl : values' = values ∘ σ :=
      funext fun i => Option.some.inj ((hvalues' i).symm.trans (hvalues (σ i)))
    have hadmissible : ∀ i, T.isAdmissible (values i) = true :=
      fun i => ElementType.isAdmissible_of_ofLiteral? (hvalues i)
    have hsame : o' = o := by
      rw [← hcompiled.run_permuted hcompiled' hadmissible] at hrun'
      exact hrun'.trans hrun.symm
    rw [hsame]
    exact ⟨rfl, Iff.rfl, fun _ => rfl⟩
  · cases hj.symm.trans (hvalues (σ j))
  · have hvalue : T.ofLiteral? (literals i) = some (values' (σ.symm i)) := by
      simpa using hvalues' (σ.symm i)
    cases hi.symm.trans hvalue
  · have hunconverted : o.Unconverted := ⟨index, text, T, congrArg Outcome.error hrefused⟩
    have hunconverted' : o'.Unconverted := ⟨index', text', T, congrArg Outcome.error hrefused'⟩
    have hdestination : o'.destination = o.destination :=
      (congrArg Outcome.destination hrefused').trans (congrArg Outcome.destination hrefused).symm
    exact ⟨hdestination, iff_of_true hunconverted' hunconverted,
      fun hconverted => absurd hunconverted hconverted⟩

/-- `a - b * x` with its parameters exchanged: the registers are exchanged, and with the literals
exchanged too every execution ends in the same way, here over a byte at which the product overflows.
-/
theorem Program.compile_permuted_difference :
    let σ : Equiv.Perm (Fin 2) := Equiv.swap 0 1
    ∃ p q : Program (.int ⟨true, .w8⟩),
      compile _ .default "a - b * x" "x" ["a", "b"] = .ok p ∧
      compile _ .default "a - b * x" "x" ["b", "a"] = .ok q ∧ p.Permuted σ q ∧
      (Session.execute ⟨.default, some q⟩ [5#8, 50#8] [0#8, 0#8] [.int 3, .int 100]
          .default).destination =
        (Session.execute ⟨.default, some p⟩ [5#8, 50#8] [0#8, 0#8] [.int 100, .int 3]
          .default).destination := by
  intro σ
  have hcompile : compile (.int ⟨true, .w8⟩) .default "a - b * x" "x" (List.ofFn !["a", "b"]) =
      .ok ⟨⟨[0, 1, 9, 1, 8], [0, 1, 0, 0, 0], [0#8, 0#8, 0#8, 0#8, 0#8]⟩, 4, ["a", "b"]⟩ := rfl
  have hcompile' : compile (.int ⟨true, .w8⟩) .default "a - b * x" "x"
      (List.ofFn (!["a", "b"] ∘ Equiv.swap 0 1)) =
      .ok ⟨⟨[0, 1, 9, 1, 8], [0, 0, 0, 1, 0], [0#8, 0#8, 0#8, 0#8, 0#8]⟩, 4, ["b", "a"]⟩ := rfl
  obtain ⟨-, hboth⟩ := compile_permuted (T := .int ⟨true, .w8⟩) .default "a - b * x" "x"
    !["a", "b"] σ
  obtain ⟨hpermuted, hexecute⟩ := hboth _ _ hcompile hcompile'
  obtain ⟨hdestination, -⟩ := hexecute ⟨.default, some _⟩ ⟨.default, some _⟩ rfl rfl
    ![.int 100, .int 3] [5#8, 50#8] [0#8, 0#8] .default
  exact ⟨_, _, hcompile, hcompile', hpermuted, hdestination⟩

end Elementwise
