import Mathlib.Data.List.Induction
import Elementwise.Session

/-!
# Histories of sessions

A session is used in steps: settings are changed, equations are compiled, and the program is
executed. `Session.perform` is one step, and `Session.after` the session that a history of steps
leads to from a new one.

What a session holds is the matter of its latest compilation alone. Two facts about single steps
carry this through a history. A step that compiles nothing leaves the program
(`Session.program_perform_of_not_compile`), and what a compilation gives depends on the settings
only (`Session.perform_compile_congr`). The settings in turn are those set last, whatever else was
done (`Session.settings_after`). Hence a session never executes the program of an earlier equation
(`Session.program_eq_latest`).
-/

namespace Elementwise

variable {T : ElementType}

/-- What a compilation is asked for. -/
structure Request where
  equation : String
  element : String
  parameters : List String

/-- One step in the use of a session. -/
inductive Command (T : ElementType) where
  | setCapabilities (capabilities : Capabilities)
  | setStackLimit (limit : Nat)
  | compile (request : Request)
  | execute (source destination : List T.Value) (literals : List Literal) (options : RunOptions)
  | executeInPlace (data : List T.Value) (literals : List Literal) (options : RunOptions)
  /-- Run the program itself, with parameters that are elements. -/
  | run (parameters source destination : List T.Value) (options : RunOptions)
  /-- Evaluate the program itself for one element. -/
  | evaluate (x : T.Value) (parameters : List T.Value)

namespace Command

/-- The request of a command that compiles. -/
def request? : Command T → Option Request
  | .compile request => some request
  | _ => none

/-- The capabilities that a command sets. -/
def capabilities? : Command T → Option Capabilities
  | .setCapabilities capabilities => some capabilities
  | _ => none

/-- The stack limit that a command sets. -/
def stackLimit? : Command T → Option Nat
  | .setStackLimit limit => some limit
  | _ => none

end Command

/-- What a step gives back. -/
inductive Reply (T : ElementType) where
  /-- A setting was changed. -/
  | set
  | compiled (result : Except Error (Program T))
  | outcome (outcome : Outcome T)
  | value (result : Except Error T.Value)
  /-- There was no program to run. -/
  | noProgram

namespace Session

/-! ## Steps -/

/-- One step: what it gives back, and the session after it. -/
def perform (s : Session T) : Command T → Reply T × Session T
  | .setCapabilities capabilities => (.set, s.withCapabilities capabilities)
  | .setStackLimit limit => (.set, s.withStackLimit limit)
  | .compile request =>
    let (result, next) := s.compile request.equation request.element request.parameters
    (.compiled result, next)
  | .execute source destination literals options =>
    (.outcome (s.execute source destination literals options), s)
  | .executeInPlace data literals options => (.outcome (s.executeInPlace data literals options), s)
  | .run parameters source destination options =>
    (match s.program with
      | some p => .outcome (p.run parameters source destination options)
      | none => .noProgram, s)
  | .evaluate x parameters =>
    (match s.program with
      | some p => .value (p.evaluate x parameters)
      | none => .noProgram, s)

/-- A step that compiles nothing leaves the program. -/
theorem program_perform_of_not_compile (s : Session T) {command : Command T}
    (h : command.request? = none) : (s.perform command).2.program = s.program := by
  cases command with
  | compile request => cases h
  | setCapabilities _ | setStackLimit _ | execute _ _ _ _ | executeInPlace _ _ _ | run _ _ _ _
  | evaluate _ _ => rfl

/-- What a step that compiles nothing gives back depends on the program only. -/
theorem reply_congr {s s' : Session T} (hprogram : s.program = s'.program) {command : Command T}
    (h : command.request? = none) : (s.perform command).1 = (s'.perform command).1 := by
  cases command with
  | compile request => cases h
  | setCapabilities _ | setStackLimit _ => rfl
  | execute _ _ _ _ | executeInPlace _ _ _ =>
      simp only [perform, executeInPlace, execute, hprogram]
  | run _ _ _ _ | evaluate _ _ => simp only [perform, hprogram]

/-- What a compilation gives, and the session it leaves, depend on the settings only. -/
theorem perform_compile_congr {s s' : Session T} (h : s.settings = s'.settings)
    (request : Request) : s.perform (.compile request) = s'.perform (.compile request) := by
  simp only [perform, compile, h]

/-- A compilation leaves a program exactly if it gives that program back. -/
theorem program_perform_compile {s : Session T} {request : Request} {p : Program T} :
    (s.perform (.compile request)).2.program = some p ↔
      (s.perform (.compile request)).1 = .compiled (.ok p) := by
  simp only [perform, compile]
  rcases Program.compile T s.settings request.equation request.element request.parameters with
    e | q
  · simp [Except.toOption]
  · simp [Except.toOption]

/-! ## Histories -/

/-- The session that a history leads to. -/
def after (history : List (Command T)) : Session T :=
  history.foldl (fun s command => (s.perform command).2) (new T)

/-- The capabilities in force after a history: those set last. -/
def capabilitiesAfter (history : List (Command T)) : Capabilities :=
  (history.filterMap Command.capabilities?).getLast?.getD .full

/-- The stack limit in force after a history: the one set last. -/
def stackLimitAfter (history : List (Command T)) : Nat :=
  (history.filterMap Command.stackLimit?).getLast?.getD defaultStackLimit

/-- A new session with the settings in force after a history. -/
def configured (history : List (Command T)) : Session T :=
  ((new T).withCapabilities (capabilitiesAfter history)).withStackLimit (stackLimitAfter history)

/-- `Latest history before request`: the latest compilation of a history is that of `request`, and
it was made after the steps `before`. -/
def Latest (history before : List (Command T)) (request : Request) : Prop :=
  ∃ others, history = before ++ .compile request :: others ∧
    ∀ command ∈ others, command.request? = none

theorem after_concat (history : List (Command T)) (command : Command T) :
    after (history ++ [command]) = ((after history).perform command).2 := by
  simp [after]

/-- The settings after a history are those set last. -/
theorem settings_after (history : List (Command T)) :
    (after history).settings = (configured history).settings := by
  induction history using List.reverseRecOn with
  | nil => rfl
  | append_singleton history command ih =>
      rw [after_concat]
      cases command with
      | setCapabilities _ | setStackLimit _ =>
          simp [perform, withCapabilities, ih, configured, withStackLimit, capabilitiesAfter,
            stackLimitAfter, Command.capabilities?, Command.stackLimit?]
      | compile _ | execute _ _ _ _ | executeInPlace _ _ _ | run _ _ _ _ | evaluate _ _ =>
          simp [perform, compile, ih, configured, capabilitiesAfter, stackLimitAfter,
            Command.capabilities?, Command.stackLimit?]

/-- Steps that compile nothing leave the program. -/
theorem program_foldl_of_not_compile (s : Session T) {commands : List (Command T)}
    (h : ∀ command ∈ commands, command.request? = none) :
    (commands.foldl (fun s command => (s.perform command).2) s).program = s.program := by
  induction commands generalizing s with
  | nil => rfl
  | cons command rest ih =>
      obtain ⟨hfirst, hrest⟩ := List.forall_mem_cons.mp h
      rw [List.foldl_cons, ih _ hrest, program_perform_of_not_compile s hfirst]

/-- A history has a latest compilation, or none was made. -/
theorem exists_latest (history : List (Command T)) :
    (∃ before request, Latest history before request) ∨
      ∀ command ∈ history, command.request? = none := by
  induction history using List.reverseRecOn with
  | nil => exact .inr (List.forall_mem_nil _)
  | append_singleton history command ih =>
      rcases hrequest : command.request? with _ | request
      · -- The last step compiles nothing, so the latest compilation is the one before it.
        rcases ih with ⟨before, request, others, rfl, hothers⟩ | hnone
        · refine .inl ⟨before, request, others ++ [command], by simp, ?_⟩
          rw [List.forall_mem_append, List.forall_mem_singleton]
          exact ⟨hothers, hrequest⟩
        · rw [List.forall_mem_append, List.forall_mem_singleton]
          exact .inr ⟨hnone, hrequest⟩
      · cases command with
        | compile request' => exact .inl ⟨history, request', [], rfl, List.forall_mem_nil _⟩
        | setCapabilities _ | setStackLimit _ | execute _ _ _ _ | executeInPlace _ _ _
        | run _ _ _ _ | evaluate _ _ => cases hrequest

/-- The program after a history is what its latest compilation leaves in the session that was there.
-/
theorem Latest.program_after {history before : List (Command T)} {request : Request}
    (h : Latest history before request) :
    (after history).program = ((after before).perform (.compile request)).2.program := by
  obtain ⟨others, rfl, hothers⟩ := h
  rw [after, List.foldl_append, List.foldl_cons, program_foldl_of_not_compile _ hothers]
  rfl

/-- A compilation gives what it would give in a new session with the settings in force. -/
theorem perform_compile_after (before : List (Command T)) (request : Request) :
    (after before).perform (.compile request) = (configured before).perform (.compile request) :=
  perform_compile_congr (settings_after before) request

/-- **The latest compilation counts.** After any history, a session holds a program exactly if an
equation was compiled and the latest compilation succeeded. The program is the one that a new
session with the settings of that time gives for the same request. No step but a compilation changes
it, and every execution is answered as in that new session. Without a program executions are refused
and change nothing. -/
theorem program_eq_latest (history : List (Command T)) :
    let s := after history
    ((∃ p, s.program = some p) ↔ ∃ before request p, Latest history before request ∧
      ((after before).perform (.compile request)).1 = .compiled (.ok p)) ∧
    (∀ before request, Latest history before request → ∀ p, s.program = some p ↔
      ((configured before).perform (.compile request)).1 = .compiled (.ok p)) ∧
    (∀ command, command.request? = none → (s.perform command).2.program = s.program ∧
      ∀ before request, Latest history before request →
        (s.perform command).1 =
          (((configured before).perform (.compile request)).2.perform command).1) ∧
    (s.program = none → ∀ source destination literals options,
      (s.perform (.execute source destination literals options)).1 =
          .outcome ⟨destination, some .notCompiled⟩ ∧
        (s.perform (.executeInPlace source literals options)).1 =
          .outcome ⟨source, some .notCompiled⟩) := by
  intro s
  have hlatest : ∀ before request, Latest history before request →
      s.program = ((configured before).perform (.compile request)).2.program := by
    intro before request h
    rw [h.program_after, perform_compile_after]
  refine ⟨⟨?_, ?_⟩, fun before request h p => ?_, fun command hcommand => ⟨?_, ?_⟩, ?_⟩
  · rintro ⟨p, hp⟩
    rcases exists_latest history with ⟨before, request, h⟩ | hnone
    · rw [h.program_after, program_perform_compile] at hp
      exact ⟨before, request, p, h, hp⟩
    · have hstart : s.program = none := program_foldl_of_not_compile (new T) hnone
      rw [hstart] at hp
      cases hp
  · rintro ⟨before, request, p, h, hreply⟩
    exact ⟨p, by rw [h.program_after, program_perform_compile, hreply]⟩
  · rw [hlatest before request h, program_perform_compile]
  · exact s.program_perform_of_not_compile hcommand
  · intro before request h
    exact reply_congr (hlatest before request h) hcommand
  · intro hnone source destination literals options
    simp only [perform, executeInPlace, execute, hnone, and_self]

/-- The program of `k // x`, compiled with room for its stack, outlives a lower stack limit and a
run that faults; a compilation that fails takes it away. -/
theorem program_eq_latest_cleared :
    let request : Request := ⟨"k // x", "x", ["k"]⟩
    let before : List (Command (.int ⟨true, .w8⟩)) := [.setStackLimit 4]
    let others : List (Command (.int ⟨true, .w8⟩)) :=
      [.setStackLimit 1, .execute [7#8, 0#8] [1#8, 2#8] [.int 100] .default]
    let history := before ++ .compile request :: others
    let cleared : List (Command (.int ⟨true, .w8⟩)) := history ++ [.compile request]
    (∃ p, (after history).program = some p) ∧
      ((after history).perform (.evaluate 7#8 [100#8])).1 =
        (((configured before).perform (.compile request)).2.perform (.evaluate 7#8 [100#8])).1 ∧
      ((after cleared).perform (.execute [7#8] [1#8] [.int 100] .default)).1 =
        .outcome ⟨[1#8], some .notCompiled⟩ := by
  intro request before others history cleared
  have hlatest : Latest history before request :=
    ⟨others, rfl, by simp [others, Command.request?]⟩
  have hcompile : Program.compile (.int ⟨true, .w8⟩) ⟨.full, 4⟩ "k // x" "x" ["k"] =
      .ok ⟨⟨[0, 1, 11], [0, 0, 0], [0#8, 0#8, 0#8]⟩, 4, ["k"]⟩ := rfl
  obtain ⟨hheld, -, hsteps, -⟩ := program_eq_latest history
  refine ⟨hheld.mpr ⟨before, request, _, hlatest, congrArg Reply.compiled hcompile⟩,
    (hsteps (.evaluate 7#8 [100#8]) rfl).2 before request hlatest, ?_⟩
  obtain ⟨-, -, -, hrefused⟩ := program_eq_latest cleared
  have hnone : (after cleared).program = none := by
    simp only [cleared, history, before, others, request]
    rfl
  exact (hrefused hnone _ _ _ _).1

end Session

end Elementwise
