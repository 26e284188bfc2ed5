import Elementwise.Proofs.Names
import Elementwise.Proofs.Validity

/-!
# The gate of the compiler

Code becomes a program if it passes seven conditions, and what is reported otherwise is the first
that fails. `Action.Admitted` states the conditions and `Action.Refused` the errors, both of the
code alone and not of the passes that check it.

* Each pass refuses exactly what its condition excludes (`Action.constantValues_eq_error_iff` and
  its like). Passes that report several offenders report the one list of them (`ListsOnce.unique`).
* The passes in order give `Action.assemble_eq_error_iff` and `Action.exists_assemble_iff`. The code
  of a formula ends at one value, so no other error of the stack is left.
* In a program the registers are the places of the parameters (`Action.Fits.bijOn_idxOf`). Register
  numbers have 32 bits, so a list of parameters can be too long. It is refused where the first
  parameter without a register stands, unless a duplicate comes before.

`Program.compile_gate` is all three for the equations that pass the analysis. That the registers
suffice is a condition of its own: `Program.compile_crowded` has nothing else in its way but unused
parameters, and they are not what is reported.
-/

namespace Elementwise

variable {T : ElementType}

/-! ## Lists of offenders -/

section lists

variable {α : Type} [BEq α]

/-- `list` holds every member of `uses` that has some property, once and in the order of first use.
-/
structure ListsOnce (has : α → Prop) (uses list : List α) : Prop where
  mem_iff : ∀ a, a ∈ list ↔ a ∈ uses ∧ has a
  ordered : list.Pairwise fun a b => uses.idxOf a < uses.idxOf b

namespace ListsOnce

variable {has : α → Prop} {uses list : List α}

/-- There is only one such list. -/
theorem unique (h : ListsOnce has uses list) {other : List α} (hother : ListsOnce has uses other) :
    list = other := by
  have hnodup : ∀ {l : List α}, ListsOnce has uses l → l.Nodup := fun hl =>
    hl.ordered.imp fun hlt heq => absurd hlt (by rw [heq]; exact Nat.lt_irrefl _)
  have hperm : list.Perm other := (List.perm_ext_iff_of_nodup (hnodup h) (hnodup hother)).mpr
    fun a => (h.mem_iff a).trans (hother.mem_iff a).symm
  exact hperm.eq_of_pairwise (fun a b _ _ hab hba => absurd hab (Nat.lt_asymm hba)) h.ordered
    hother.ordered

/-- Dropping repetitions among the members with the property gives the list. -/
theorem eraseDups_filter [LawfulBEq α] (p : α → Bool) (uses : List α) :
    ListsOnce (fun a => p a = true) uses (uses.filter p).eraseDups := by
  refine ⟨fun a => by rw [List.mem_eraseDups, List.mem_filter], ?_⟩
  -- The list grows at its end, where a member is new if it was not used before.
  induction uses using List.reverseRecOn with
  | nil => exact List.Pairwise.nil
  | append_singleton uses a ih =>
      have hearlier : (uses.filter p).eraseDups.Pairwise
          fun b c => (uses ++ [a]).idxOf b < (uses ++ [a]).idxOf c := by
        refine ih.imp_of_mem fun {b c} hb hc hlt => ?_
        rw [List.mem_eraseDups] at hb hc
        rwa [List.idxOf_append_of_mem (List.mem_filter.mp hb).1,
          List.idxOf_append_of_mem (List.mem_filter.mp hc).1]
      rw [List.filter_append, List.eraseDups_append]
      by_cases hnew : p a = true ∧ a ∉ uses
      · have hlast : (([a].filter p).removeAll (uses.filter p)).eraseDups = [a] := by
          simp [List.removeAll, hnew, List.eraseDups_cons]
        rw [hlast, List.pairwise_append]
        refine ⟨hearlier, List.pairwise_singleton _ _, fun b hb c hc => ?_⟩
        rw [List.mem_eraseDups, List.mem_filter] at hb
        rw [List.mem_singleton] at hc
        subst hc
        rw [List.idxOf_append_of_mem hb.1, List.idxOf_append_of_notMem hnew.2]
        exact Nat.lt_of_lt_of_le (List.idxOf_lt_length_iff.mpr hb.1) (Nat.le_add_right _ _)
      · have hlast : (([a].filter p).removeAll (uses.filter p)).eraseDups = [] := by
          by_cases ha : p a = true
          · have hmem : a ∈ uses := by simpa [ha] using hnew
            simp [List.removeAll, ha, hmem]
          · simp [List.removeAll, ha]
        rw [hlast, List.append_nil]
        exact hearlier

/-- A list without repetitions keeps its order. -/
theorem filter_of_nodup [LawfulBEq α] (p : α → Bool) {uses : List α} (h : uses.Nodup) :
    ListsOnce (fun a => p a = true) uses (uses.filter p) := by
  have hordered : uses.Pairwise fun a b => uses.idxOf a < uses.idxOf b := by
    rw [List.pairwise_iff_getElem]
    intro i j hi hj hlt
    rwa [h.idxOf_getElem i hi, h.idxOf_getElem j hj]
  exact ⟨fun a => List.mem_filter, hordered.filter p⟩

/-- What holds of some such list holds of the one there is. -/
theorem exists_iff (h : ListsOnce has uses list) {holds : List α → Prop} :
    (∃ other, ListsOnce has uses other ∧ holds other) ↔ holds list := by
  constructor
  · rintro ⟨other, hother, hholds⟩
    rwa [h.unique hother]
  · exact fun hholds => ⟨list, h, hholds⟩

end ListsOnce

end lists

namespace Action

/-! ## The gate -/

/-- Everything that is asked of code before it becomes a program. -/
structure Admitted (T : ElementType) (settings : Settings) (element : String)
    (parameters : List String) (code : List Action) : Prop where
  converts : Converts T code
  legal : Legal T.family code
  available : Available settings.capabilities code
  shallow : Depth.peak (deltas code) + 2 ≤ settings.stackLimit
  distinct : (element :: parameters).Nodup
  numbered : parameters.length ≤ registerCount
  names : ∀ name, .parameter name ∈ code ↔ name ∈ parameters

/-- `Refused T settings element parameters code error`: the first of the conditions that fails is
the one of the error, which names all that is wrong there. -/
inductive Refused (T : ElementType) (settings : Settings) (element : String)
    (parameters : List String) (code : List Action) : Error → Prop
  /-- A literal does not convert, while those before it do. -/
  | constant {before after : List Action} {l : Literal} :
      code = before ++ .constant l :: after → Converts T before → T.ofLiteral? l = none →
      Refused T settings element parameters code (.constantOutOfRange l T)
  | illegal {ops : List Operation} :
      Converts T code → ops ≠ [] →
      ListsOnce (fun op => op.info.isLegalFor T.family = false) (code.map operation) ops →
      Refused T settings element parameters code (.illegalOperations T.family ops)
  | unavailable {ops : List Operation} :
      Converts T code → Legal T.family code → ops ≠ [] →
      ListsOnce (fun op => settings.capabilities.isAvailable op = false) (code.map operation) ops →
      Refused T settings element parameters code (.unavailableOperations ops)
  | deep {depth : Nat} :
      Converts T code → Legal T.family code → Available settings.capabilities code →
      depth = Depth.peak (deltas code) + 2 → settings.stackLimit < depth →
      Refused T settings element parameters code (.stackOverflow depth settings.stackLimit)
  /-- A parameter has the name of the element or of a parameter before it, and is the first. Those
  before it have registers. -/
  | duplicate {before after : List String} {name : String} :
      Converts T code → Legal T.family code → Available settings.capabilities code →
      Depth.peak (deltas code) + 2 ≤ settings.stackLimit →
      parameters = before ++ name :: after → (element :: before).Nodup →
      before.length ≤ registerCount → name ∈ element :: before →
      Refused T settings element parameters code (.duplicateParameter name)
  /-- There is no register for a parameter, and no duplicate up to there. -/
  | crowded {before after : List String} {name : String} :
      Converts T code → Legal T.family code → Available settings.capabilities code →
      Depth.peak (deltas code) + 2 ≤ settings.stackLimit →
      parameters = before ++ name :: after → (element :: before).Nodup →
      before.length = registerCount → name ∉ element :: before →
      Refused T settings element parameters code (.invalidArguments .tooManyParameters)
  | undefined {names : List String} :
      Converts T code → Legal T.family code → Available settings.capabilities code →
      Depth.peak (deltas code) + 2 ≤ settings.stackLimit → (element :: parameters).Nodup →
      parameters.length ≤ registerCount → names ≠ [] →
      ListsOnce (· ∉ parameters) (parametersRead code) names →
      Refused T settings element parameters code (.undefinedVariables names)
  | unused {names : List String} :
      Converts T code → Legal T.family code → Available settings.capabilities code →
      Depth.peak (deltas code) + 2 ≤ settings.stackLimit → (element :: parameters).Nodup →
      parameters.length ≤ registerCount → (∀ name, .parameter name ∈ code → name ∈ parameters) →
      names ≠ [] → ListsOnce (fun name => .parameter name ∉ code) parameters names →
      Refused T settings element parameters code (.unusedParameters names)

/-! ## What each pass refuses -/

/-- The constants of code fail at the first literal that does not convert. -/
theorem constantValues_eq_error_iff {code : List Action} {error : Error} :
    constantValues T code = .error error ↔ ∃ before l after, code = before ++ .constant l :: after ∧
      Converts T before ∧ T.ofLiteral? l = none ∧ error = .constantOutOfRange l T := by
  unfold constantValues
  rw [mapM_eq_error_iff]
  constructor
  · rintro ⟨before, action, after, rfl, hbefore, haction⟩
    have hconverts : Converts T before := by
      intro l hl
      obtain ⟨a, ha⟩ := hbefore _ hl
      exact (constantValue_eq_ok_iff.mp ha).1 l rfl
    unfold constantValue at haction
    split at haction
    · rename_i l
      split at haction
      · cases haction
      · rename_i hl
        cases haction
        exact ⟨before, l, after, rfl, hconverts, hl, rfl⟩
    · cases haction
  · rintro ⟨before, l, after, rfl, hbefore, hl, rfl⟩
    refine ⟨before, .constant l, after, rfl, fun action haction => ?_, by rw [constantValue, hl]⟩
    refine ⟨emittedConstant T action, constantValue_eq_ok_iff.mpr ⟨?_, rfl⟩⟩
    rintro l' rfl
    exact hbefore l' haction

/-- The operations that fail a test are listed once, in the order of first use. -/
theorem listsOnce_operationsWith (passes : Operation → Bool) (code : List Action) :
    ListsOnce (fun op => passes op = false) (code.map operation)
      (operationsWith (fun op => !passes op) code) := by
  simpa [operationsWith] using ListsOnce.eraseDups_filter (fun op => !passes op)
    (code.map operation)

/-- Operations are refused for all that are illegal, or else for all that are unavailable. -/
theorem checkOperations_eq_error_iff {family : Family} {capabilities : Capabilities}
    {code : List Action} {error : Error} :
    checkOperations family capabilities code = .error error ↔
      (∃ ops, ListsOnce (fun op => op.info.isLegalFor family = false) (code.map operation) ops ∧
          ops ≠ [] ∧ error = .illegalOperations family ops) ∨
        Legal family code ∧
          ∃ ops, ListsOnce (fun op => capabilities.isAvailable op = false)
            (code.map operation) ops ∧
            ops ≠ [] ∧ error = .unavailableOperations ops := by
  have hlegal : operationsWith (fun op => !op.info.isLegalFor family) code = [] ↔
      Legal family code := by simp [operationsWith_eq_nil_iff, Legal]
  rw [(listsOnce_operationsWith (fun op => op.info.isLegalFor family) code).exists_iff,
    (listsOnce_operationsWith capabilities.isAvailable code).exists_iff, ← hlegal]
  unfold checkOperations
  dsimp only
  rw [refuse_eq_error_iff, refuse_eq_error_iff]
  simp

/-- Parameters after earlier ones are refused for the first name that is the element or stands
before, or for the first for which there is no register. -/
theorem checkDeclared_eq_error_iff {element : String} {earlier names : List String} {error : Error}
    (hearlier : earlier.length ≤ registerCount) :
    checkDeclared element earlier names = .error error ↔
      ∃ before name after, names = before ++ name :: after ∧
        checkDeclared element earlier before = .ok () ∧
        ((name = element ∨ name ∈ earlier ∨ name ∈ before) ∧ error = .duplicateParameter name ∨
          ¬(name = element ∨ name ∈ earlier ∨ name ∈ before) ∧
            earlier.length + before.length = registerCount ∧
            error = .invalidArguments .tooManyParameters) := by
  induction names generalizing earlier with
  | nil => simp [checkDeclared]
  | cons first rest ih =>
      rw [checkDeclared]
      by_cases hold : first = element ∨ first ∈ earlier
      · rw [if_pos hold]
        constructor
        · rintro ⟨⟩
          exact ⟨[], first, rest, rfl, rfl, .inl ⟨by simpa using hold, rfl⟩⟩
        · rintro ⟨before, name, after, hnames, hbefore, h⟩
          cases before with
          | nil =>
              cases hnames
              rcases h with ⟨-, rfl⟩ | ⟨hnew, -⟩
              · rfl
              · exact absurd (by simpa using hold) hnew
          | cons _ before =>
              cases hnames
              rw [checkDeclared, if_pos hold] at hbefore
              cases hbefore
      · rw [if_neg hold]
        by_cases hfull : registerCount ≤ earlier.length
        · rw [if_pos hfull]
          constructor
          · rintro ⟨⟩
            refine ⟨[], first, rest, rfl, rfl, .inr ⟨by simpa using hold, ?_, rfl⟩⟩
            exact Nat.le_antisymm hearlier hfull
          · rintro ⟨before, name, after, hnames, hbefore, h⟩
            cases before with
            | nil =>
                cases hnames
                rcases h with ⟨hold', -⟩ | ⟨-, -, rfl⟩
                · exact absurd (by simpa using hold') hold
                · rfl
            | cons _ before =>
                cases hnames
                rw [checkDeclared, if_neg hold, if_pos hfull] at hbefore
                cases hbefore
        · -- The first name passes, so it is one of the earlier ones for the others.
          rw [if_neg hfull, ih (by rw [List.length_cons]; omega)]
          constructor
          · rintro ⟨before, name, after, rfl, hbefore, h⟩
            refine ⟨first :: before, name, after, rfl, ?_, ?_⟩
            · rw [checkDeclared, if_neg hold, if_neg hfull, hbefore]
            · simpa [or_left_comm, or_assoc, Nat.add_right_comm, Nat.add_assoc] using h
          · rintro ⟨before, name, after, hnames, hbefore, h⟩
            cases before with
            | nil =>
                cases hnames
                rcases h with ⟨hold', -⟩ | ⟨-, hlength, -⟩
                · exact absurd (by simpa using hold') hold
                · exact absurd hlength.ge hfull
            | cons _ before =>
                cases hnames
                rw [checkDeclared, if_neg hold, if_neg hfull] at hbefore
                refine ⟨before, name, after, rfl, hbefore, ?_⟩
                simpa [or_left_comm, or_assoc, Nat.add_right_comm, Nat.add_assoc] using h

/-- Parameters are refused for the first duplicate, or for the first without a register. -/
theorem checkDeclared_nil_eq_error_iff {element : String} {parameters : List String}
    {error : Error} :
    checkDeclared element [] parameters = .error error ↔
      ∃ before name after, parameters = before ++ name :: after ∧ (element :: before).Nodup ∧
        before.length ≤ registerCount ∧
        (name ∈ element :: before ∧ error = .duplicateParameter name ∨
          name ∉ element :: before ∧ before.length = registerCount ∧
            error = .invalidArguments .tooManyParameters) := by
  rw [checkDeclared_eq_error_iff (Nat.zero_le _)]
  simp only [checkDeclared_nil_eq_ok_iff, List.not_mem_nil, false_or, List.mem_cons,
    List.length_nil, Nat.zero_add, and_assoc]

/-- Parameters are refused as declarations, or else for all names that are read and not declared, or
else for all that are declared and not read. -/
theorem checkParameters_eq_error_iff {element : String} {parameters : List String}
    {code : List Action} {error : Error} :
    checkParameters element parameters code = .error error ↔
      checkDeclared element [] parameters = .error error ∨
        ((element :: parameters).Nodup ∧ parameters.length ≤ registerCount) ∧
          ((∃ names, ListsOnce (· ∉ parameters) (parametersRead code) names ∧ names ≠ [] ∧
              error = .undefinedVariables names) ∨
            (∀ name, .parameter name ∈ code → name ∈ parameters) ∧
              ∃ names, ListsOnce (fun name => .parameter name ∉ code) parameters names ∧
                names ≠ [] ∧ error = .unusedParameters names) := by
  unfold checkParameters
  rw [check_bind_eq_error_iff, checkDeclared_nil_eq_ok_iff]
  refine or_congr_right (and_congr_right fun ⟨hdistinct, _⟩ => ?_)
  have hundefined : ListsOnce (· ∉ parameters) (parametersRead code)
      ((parametersRead code).filter (· ∉ parameters)).eraseDups := by
    simpa using ListsOnce.eraseDups_filter (fun name => decide (name ∉ parameters))
      (parametersRead code)
  have hunused : ListsOnce (fun name => .parameter name ∉ code) parameters
      (parameters.filter (· ∉ parametersRead code)) := by
    have hnodup := (List.nodup_cons.mp hdistinct).2
    simpa [mem_parametersRead] using
      ListsOnce.filter_of_nodup (fun name => decide (name ∉ parametersRead code)) hnodup
  have hempty : ((parametersRead code).filter (· ∉ parameters)).eraseDups = [] ↔
      (parametersRead code).filter (· ∉ parameters) = [] := by
    simp only [List.eq_nil_iff_forall_not_mem, List.mem_eraseDups]
  rw [hundefined.exists_iff, hunused.exists_iff, ← undefined_eq_nil_iff, ne_eq, hempty]
  simp only [refuse_eq_error_iff, reduceCtorEq, and_false, or_false, ne_eq]

end Action

/-- Deltas that end at one are refused exactly if they reach too high. -/
theorem Depth.required_eq_error_iff {limit : Nat} {deltas : List Int} {top : Int}
    (h : run 0 0 0 deltas = .ok (1, top)) {error : Error} :
    required limit deltas = .error error ↔
      limit < top.toNat + 2 ∧ error = .stackOverflow (top.toNat + 2) limit := by
  unfold required
  rw [h, ok_bind]
  by_cases hlimit : limit < top.toNat + 2
  · simp [hlimit, eq_comm]
  · simp [hlimit]

namespace Action

/-! ## The passes in order -/

variable {settings : Settings} {element : String} {parameters : List String} {code : List Action}

/-- Assembling fails in the first pass that fails. -/
theorem assemble_eq_error_cases {top : Int}
    (hheights : Depth.run 0 0 0 (deltas code) = .ok (1, top))
    {error : Error} :
    Program.assemble T settings element parameters code = .error error ↔
      constantValues T code = .error error ∨ Converts T code ∧
        (checkOperations T.family settings.capabilities code = .error error ∨
          (Legal T.family code ∧ Available settings.capabilities code) ∧
            (Depth.required settings.stackLimit (deltas code) = .error error ∨
              top.toNat + 2 ≤ settings.stackLimit ∧
                checkParameters element parameters code = .error error)) := by
  unfold Program.assemble
  rw [bind_eq_error_iff]
  constructor
  · rintro (h | ⟨constants, hconstants, h⟩)
    · exact .inl h
    · refine .inr ⟨(constantValues_eq_ok_iff.mp hconstants).1, ?_⟩
      rcases bind_eq_error_iff.mp h with h | ⟨_, hoperations, h⟩
      · exact .inl h
      · have hboth := checkOperations_eq_ok_iff.mp hoperations
        refine .inr ⟨hboth, ?_⟩
        rcases bind_eq_error_iff.mp h with h | ⟨depth, hdepth, h⟩
        · exact .inl h
        · obtain ⟨top', htop, rfl, hlimit⟩ := Depth.run_of_required hdepth
          obtain ⟨-, rfl⟩ : 1 = 1 ∧ top = top' := by simpa [hheights] using htop
          rcases bind_eq_error_iff.mp h with h | ⟨_, -, h⟩
          · exact .inr ⟨hlimit, h⟩
          · rw [hboth.1.mapM_code, ok_bind] at h
            cases h
  · rintro (h | ⟨hconverts, h⟩)
    · exact .inl h
    · refine .inr ⟨_, constantValues_eq_ok_iff.mpr ⟨hconverts, rfl⟩, bind_eq_error_iff.mpr ?_⟩
      rcases h with h | ⟨hboth, h⟩
      · exact .inl h
      · refine .inr ⟨(), checkOperations_eq_ok_iff.mpr hboth, bind_eq_error_iff.mpr ?_⟩
        rcases h with h | ⟨hlimit, h⟩
        · exact .inl h
        · exact .inr ⟨_, Depth.required_of_run hheights hlimit, bind_eq_error_iff.mpr (.inl h)⟩

/-- Code that ends at one value is assembled unless it is refused. -/
theorem assemble_eq_error_iff {top : Int} (hheights : Depth.run 0 0 0 (deltas code) = .ok (1, top))
    {error : Error} :
    Program.assemble T settings element parameters code = .error error ↔
      Refused T settings element parameters code error := by
  have hpeak := Depth.peak_of_run hheights
  obtain ⟨-, htop, -, -⟩ := Depth.run_eq_ok hheights
  have hshallow : top.toNat + 2 ≤ settings.stackLimit ↔
      Depth.peak (deltas code) + 2 ≤ settings.stackLimit := by omega
  rw [assemble_eq_error_cases hheights, constantValues_eq_error_iff, checkOperations_eq_error_iff,
    Depth.required_eq_error_iff hheights, checkParameters_eq_error_iff, hshallow]
  rw [checkDeclared_nil_eq_error_iff]
  constructor
  · rintro (⟨before, l, after, hcode, hbefore, hl, rfl⟩ | ⟨hconverts, h⟩)
    · exact .constant hcode hbefore hl
    · rcases h with (⟨ops, hlists, hne, rfl⟩ | ⟨hlegal, ops, hlists, hne, rfl⟩) |
        ⟨⟨hlegal, havailable⟩, h⟩
      · exact .illegal hconverts hne hlists
      · exact .unavailable hconverts hlegal hne hlists
      · rcases h with ⟨hdeep, rfl⟩ | ⟨hlimit, h⟩
        · exact .deep hconverts hlegal havailable (by omega) hdeep
        · rcases h with ⟨before, name, after, hsplit, hbefore, hlength, h⟩ |
            ⟨⟨hdistinct, hlength⟩, h⟩
          · rcases h with ⟨hname, rfl⟩ | ⟨hname, hfull, rfl⟩
            · exact .duplicate hconverts hlegal havailable hlimit hsplit hbefore hlength hname
            · exact .crowded hconverts hlegal havailable hlimit hsplit hbefore hfull hname
          · rcases h with ⟨names, hlists, hne, rfl⟩ | ⟨hdeclared, names, hlists, hne, rfl⟩
            · exact .undefined hconverts hlegal havailable hlimit hdistinct hlength hne hlists
            · exact .unused hconverts hlegal havailable hlimit hdistinct hlength
                hdeclared hne hlists
  · intro h
    cases h with
    | constant hcode hbefore hl => exact .inl ⟨_, _, _, hcode, hbefore, hl, rfl⟩
    | illegal hconverts hne hlists =>
        exact .inr ⟨hconverts, .inl (.inl ⟨_, hlists, hne, rfl⟩)⟩
    | unavailable hconverts hlegal hne hlists =>
        exact .inr ⟨hconverts, .inl (.inr ⟨hlegal, _, hlists, hne, rfl⟩)⟩
    | @deep depth hconverts hlegal havailable hdepth hdeep =>
        obtain rfl : depth = top.toNat + 2 := by omega
        exact .inr ⟨hconverts, .inr ⟨⟨hlegal, havailable⟩, .inl ⟨hdeep, rfl⟩⟩⟩
    | duplicate hconverts hlegal havailable hlimit hsplit hbefore hlength hname =>
        exact .inr ⟨hconverts, .inr ⟨⟨hlegal, havailable⟩, .inr ⟨hlimit,
          .inl ⟨_, _, _, hsplit, hbefore, hlength, .inl ⟨hname, rfl⟩⟩⟩⟩⟩
    | crowded hconverts hlegal havailable hlimit hsplit hbefore hfull hname =>
        exact .inr ⟨hconverts, .inr ⟨⟨hlegal, havailable⟩, .inr ⟨hlimit,
          .inl ⟨_, _, _, hsplit, hbefore, hfull.le, .inr ⟨hname, hfull, rfl⟩⟩⟩⟩⟩
    | undefined hconverts hlegal havailable hlimit hdistinct hlength hne hlists =>
        exact .inr ⟨hconverts, .inr ⟨⟨hlegal, havailable⟩, .inr ⟨hlimit,
          .inr ⟨⟨hdistinct, hlength⟩, .inl ⟨_, hlists, hne, rfl⟩⟩⟩⟩⟩
    | unused hconverts hlegal havailable hlimit hdistinct hlength hdeclared hne hlists =>
        exact .inr ⟨hconverts, .inr ⟨⟨hlegal, havailable⟩, .inr ⟨hlimit,
          .inr ⟨⟨hdistinct, hlength⟩, .inr ⟨hdeclared, _, hlists, hne, rfl⟩⟩⟩⟩⟩

/-- Code that ends at one value is assembled exactly if it is admitted. -/
theorem exists_assemble_iff {top : Int} (hheights : Depth.run 0 0 0 (deltas code) = .ok (1, top)) :
    (∃ p, Program.assemble T settings element parameters code = .ok p) ↔
      Admitted T settings element parameters code := by
  have hpeak := Depth.peak_of_run hheights
  obtain ⟨-, htop, -, -⟩ := Depth.run_eq_ok hheights
  constructor
  · rintro ⟨p, hp⟩
    obtain ⟨hconverts, ⟨hlegal, havailable⟩, hdepth, ⟨⟨hdistinct, hlength⟩, hnames⟩,
      -⟩ := Program.assemble_eq_ok_iff.mp hp
    obtain ⟨top', htop', hdepth, hlimit⟩ := Depth.run_of_required hdepth
    have hshallow : Depth.peak (deltas code) + 2 ≤ settings.stackLimit := by
      rw [Depth.peak_of_run htop']
      omega
    exact ⟨hconverts, hlegal, havailable, hshallow, hdistinct, hlength, hnames⟩
  · rintro ⟨hconverts, hlegal, havailable, hshallow, hdistinct, hlength, hnames⟩
    have hdepth := Depth.required_of_run hheights
      (show top.toNat + 2 ≤ settings.stackLimit by omega)
    exact ⟨⟨.emit T parameters code, _, parameters⟩, Program.assemble_eq_ok_iff.mpr
      ⟨hconverts, ⟨hlegal, havailable⟩, hdepth, ⟨⟨hdistinct, hlength⟩, hnames⟩, rfl, rfl⟩⟩

/-! ## Registers -/

/-- An instruction that pushes a parameter has the place of its name as its register. -/
theorem Fits.register_emit (h : Fits T parameters code) (hproper : Proper code) {i : Nat}
    (hi : (Bytecode.emit T parameters code).operationAt? i = some .pushParameter) :
    ∃ name register, code[i]? = some (.parameter name) ∧
      (Bytecode.emit T parameters code).registers[i]? = some register ∧
        parameters[register]? = some name := by
  rw [h.operationAt?_emit] at hi
  obtain ⟨action, haction, hop⟩ := Option.map_eq_some_iff.mp hi
  obtain ⟨name, rfl⟩ := eq_parameter_of_operation hproper (List.mem_of_getElem? haction) hop
  have hmem := h.declared name (List.mem_of_getElem? haction)
  refine ⟨name, parameters.idxOf name, haction, ?_, ?_⟩
  · simp [Bytecode.emit, haction, register, parameter?]
  · rw [List.getElem?_eq_getElem (List.idxOf_lt_length_iff.mpr hmem), List.getElem_idxOf]

/-- The names that are read and the registers are in bijection. -/
theorem Fits.bijOn_idxOf (h : Fits T parameters code) :
    Set.BijOn parameters.idxOf {name | .parameter name ∈ code} (Set.Iio parameters.length) := by
  refine ⟨?_, ?_, ?_⟩
  · intro name hname
    exact List.idxOf_lt_length_iff.mpr (h.declared name hname)
  · intro name hname other hother heq
    exact (List.idxOf_inj (h.declared name hname)).mp heq
  · intro register hregister
    exact ⟨parameters[register], h.read _ (List.getElem_mem _), h.nodup.idxOf_getElem register _⟩

end Action

/-- **The gate.** For an equation that passes the analysis, with names that may be declared, a
program is compiled exactly if the code is admitted; otherwise the error is that of the first
condition that fails. In a program, the register of an instruction that pushes a parameter is the
place of the name and has 32 bits, so names and registers are in bijection. -/
theorem Program.compile_gate {settings : Settings} {text element : String}
    {parameters : List String} {equation : Equation} {raw : List Action}
    (hnames : checkNames (element :: parameters) = .ok ())
    (hparse : Equation.parse text = .ok equation) (hraw : equation.analyze element = .ok raw) :
    let code := Action.foldSigns raw
    ((∃ p, compile T settings text element parameters = .ok p) ↔
        Action.Admitted T settings element parameters code) ∧
      (∀ error, compile T settings text element parameters = .error error ↔
        Action.Refused T settings element parameters code error) ∧
      ∀ p, compile T settings text element parameters = .ok p →
        (∀ i, p.bytecode.operationAt? i = some .pushParameter → ∃ name register,
          code[i]? = some (.parameter name) ∧ p.bytecode.registers[i]? = some register ∧
            parameters[register]? = some name ∧ register < Action.registerCount) ∧
        Set.BijOn parameters.idxOf {name | .parameter name ∈ code} (Set.Iio parameters.length) := by
  intro code
  obtain ⟨u, -, -, hcode, -⟩ := Equation.folded_of_analyze hparse hraw
  change code = u.fold.code at hcode
  have hheights := u.fold.run_deltas_code_alone
  have hcompile : compile T settings text element parameters =
      assemble T settings element parameters code := compile_eq_assemble hnames hparse hraw
  rw [hcompile, hcode]
  refine ⟨Action.exists_assemble_iff hheights, fun error => Action.assemble_eq_error_iff hheights,
    fun p hp => ?_⟩
  obtain ⟨hfits, hbytecode, -⟩ := assemble_eq_ok hp
  obtain ⟨-, -, -, ⟨⟨-, hlength⟩, -⟩, -⟩ := assemble_eq_ok_iff.mp hp
  rw [hbytecode]
  refine ⟨fun i hi => ?_, hfits.bijOn_idxOf⟩
  obtain ⟨name, register, hname, hregister, hplace⟩ := hfits.register_emit u.fold.proper_code hi
  obtain ⟨hlt, -⟩ := List.getElem?_eq_some_iff.mp hplace
  exact ⟨name, register, hname, hregister, hplace, Nat.lt_of_lt_of_le hlt hlength⟩

/-- `a - b` with parameters declared the other way round is compiled. In `z * y + w - z` the names
`z` and `w` are not declared, which comes before that `k` is not read; they are listed from the end
of the equation on, and `z` once. -/
theorem Program.compile_gate_undeclared :
    (∃ raw p, (Equation.parse "a - b" >>= (·.analyze "x")) = .ok raw ∧
      compile (.int ⟨true, .w8⟩) .default "a - b" "x" ["b", "a"] = .ok p ∧
      p.bytecode.registers = [0, 1, 0] ∧
      Set.BijOn ["b", "a"].idxOf {name | .parameter name ∈ Action.foldSigns raw} (Set.Iio 2)) ∧
    ∃ raw, (Equation.parse "z * y + w - z" >>= (·.analyze "x")) = .ok raw ∧
      Action.Refused (.int ⟨true, .w8⟩) .default "x" ["k", "y"] (Action.foldSigns raw)
        (.undefinedVariables ["z", "w"]) := by
  constructor
  · have hparse : Equation.parse "a - b" = .ok ⟨.binary .sub (.name "a") (.name "b")⟩ := rfl
    have hraw : Equation.analyze ⟨.binary .sub (.name "a") (.name "b")⟩ "x" =
        .ok [.parameter "b", .parameter "a", .apply .sub] := rfl
    have hcompile : compile (.int ⟨true, .w8⟩) .default "a - b" "x" ["b", "a"] =
        .ok ⟨⟨[1, 1, 8], [0, 1, 0], [0#8, 0#8, 0#8]⟩, 4, ["b", "a"]⟩ := rfl
    have hnames : checkNames ["x", "b", "a"] = .ok () := rfl
    exact ⟨_, _, by rw [hparse]; exact hraw, hcompile, rfl,
      ((compile_gate hnames hparse hraw).2.2 _ hcompile).2⟩
  · have hparse : Equation.parse "z * y + w - z" = .ok ⟨.binary .sub
        (.binary .add (.binary .mul (.name "z") (.name "y")) (.name "w")) (.name "z")⟩ := rfl
    have hraw : Equation.analyze ⟨.binary .sub
        (.binary .add (.binary .mul (.name "z") (.name "y")) (.name "w")) (.name "z")⟩ "x" =
        .ok [.parameter "z", .parameter "w", .parameter "y", .parameter "z", .apply .mul,
          .apply .add, .apply .sub] := rfl
    have hcompile : compile (.int ⟨true, .w8⟩) .default "z * y + w - z" "x" ["k", "y"] =
        .error (.undefinedVariables ["z", "w"]) := rfl
    have hnames : checkNames ["x", "k", "y"] = .ok () := rfl
    exact ⟨_, by rw [hparse]; exact hraw, ((compile_gate hnames hparse hraw).2.1 _).mp hcompile⟩

/-! ## More parameters than registers -/

/-- A name of underscores. -/
def underscores (more : Nat) : String :=
  .ofList ('_' :: List.replicate more '_')

/-- Underscores may be declared. -/
theorem checkName_underscores (more : Nat) : checkName (underscores more) = .ok () := by
  have hname : (underscores more).toList = '_' :: List.replicate more '_' := String.toList_ofList
  have hother : ∀ {names : List String}, (∀ name ∈ names, name.toList.head? ≠ some '_') →
      underscores more ∉ names := fun h hmem => h _ hmem (by rw [hname, List.head?_cons])
  refine checkName_eq_ok_iff.mpr ⟨⟨?_, hother (by decide)⟩, hother (by decide)⟩
  rw [isIdentifier, hname]
  simp [Text.isWordStart, Text.isWordChar]

/-- There are as many names of underscores as one likes. -/
theorem exists_underscores (count : Nat) : ∃ names : List String, names.length = count ∧
    checkNames ("x" :: names) = .ok () ∧ ("x" :: names).Nodup := by
  have hinjective : Function.Injective underscores := by
    intro m n h
    have hlength := congrArg (fun name => name.toList.length) h
    simpa [underscores] using hlength
  refine ⟨(List.range count).map underscores, by simp, ?_, ?_⟩
  · refine checkNames_eq_ok_iff.mpr (List.forall_mem_cons.mpr ⟨rfl, ?_⟩)
    simp [checkName_underscores]
  · refine List.nodup_cons.mpr ⟨?_, List.nodup_range.map hinjective⟩
    intro hmem
    obtain ⟨more, -, h⟩ := List.mem_map.mp hmem
    have hhead := congrArg (fun name => name.toList.head?) h
    simp [underscores] at hhead

/-- Without the condition on their number the gate would be another one. With one parameter more
than there are registers, the equation `x` meets all other conditions but that the parameters are
read. That is not what is reported: there are too many of them. -/
theorem Program.compile_crowded :
    ∃ parameters : List String, parameters.length = Action.registerCount + 1 ∧
      checkNames ("x" :: parameters) = .ok () ∧
      (Equation.parse "x" >>= (·.analyze "x")) = .ok [.element] ∧
      Action.Converts (.int ⟨true, .w8⟩) (Action.foldSigns [.element]) ∧
      Action.Legal .signed (Action.foldSigns [.element]) ∧
      Action.Available .full (Action.foldSigns [.element]) ∧
      Depth.peak (Action.deltas (Action.foldSigns [.element])) + 2 ≤ defaultStackLimit ∧
      ("x" :: parameters).Nodup ∧
      (∀ name ∈ parameters, .parameter name ∉ Action.foldSigns [.element]) ∧
      compile (.int ⟨true, .w8⟩) .default "x" "x" parameters =
        .error (.invalidArguments .tooManyParameters) := by
  obtain ⟨parameters, hlength, hnames, hdistinct⟩ := exists_underscores (Action.registerCount + 1)
  have hcode : Action.foldSigns [.element] = [.element] := rfl
  have hanalyze : (Equation.parse "x" >>= (·.analyze "x")) = .ok [.element] := rfl
  have hconverts : Action.Converts (.int ⟨true, .w8⟩) [.element] := by simp [Action.Converts]
  have hlegal : Action.Legal .signed [.element] := by
    simp only [Action.Legal, List.map_cons, List.map_nil, List.mem_singleton, forall_eq]
    rfl
  have havailable : Action.Available .full [.element] := by
    simp only [Action.Available, List.map_cons, List.map_nil, List.mem_singleton, forall_eq]
    rfl
  have hshallow : Depth.peak (Action.deltas [.element]) + 2 ≤ defaultStackLimit := by decide
  rw [hcode]
  refine ⟨parameters, hlength, hnames, hanalyze, hconverts, hlegal, havailable, hshallow,
    hdistinct, by simp, ?_⟩
  have hparse : Equation.parse "x" = .ok ⟨.name "x"⟩ := rfl
  have hheights : Depth.run 0 0 0 (Action.deltas [.element]) = .ok (1, 1) := rfl
  rw [compile_eq_assemble hnames hparse rfl, hcode, Action.assemble_eq_error_iff hheights]
  -- all parameters but the last have registers
  rcases List.eq_nil_or_concat' parameters with rfl | ⟨before, name, rfl⟩
  · simp at hlength
  · rw [List.length_append, List.length_singleton, Nat.add_right_cancel_iff] at hlength
    rw [← List.cons_append] at hdistinct
    obtain ⟨hbefore, -, hname⟩ := List.nodup_append.mp hdistinct
    exact .crowded hconverts hlegal havailable hshallow rfl hbefore hlength
      fun hmem => hname name hmem name (List.mem_singleton_self name) rfl

end Elementwise
