import Elementwise.Proofs.Names
import Elementwise.Proofs.Validity

/-!
# Listings can be read back

The listing of a program shows of each instruction what the instruction uses: the name of its
operation, and the register with its name or the number that is pushed. It shows neither unused
slots nor the depth nor the list of parameters. For compiled programs nothing is lost by that.

What a line says is a `Program.Entry`, and an entry is all there is to an instruction of a valid
program: unused slots are zero, every parameter is read somewhere, and the depth follows from the
operations (`Program.Valid.eq_of_lists`). The texts of entries can be told apart, since the first
blank ends the name of the operation, and the next one the number of a register
(`Program.Entry.text_inj`). Lines can be told apart as no line feed stands in them.
-/

namespace Elementwise

open Text

namespace Operation

/-- Operations have different names. -/
theorem name_inj {op op' : Operation} (h : op.name = op'.name) : op = op' := by
  have hall : ∀ op ∈ all, ∀ op' ∈ all, op.name = op'.name → op = op' := by decide +kernel
  exact hall op op.mem_all op' op'.mem_all h

/-- The characters of names: letters and digits, and the point of the `math` functions. -/
theorem mem_name {op : Operation} {c : Char} (hc : c ∈ op.name.toList) :
    isWordChar c = true ∨ c = '.' := by
  have hall : ∀ op ∈ all, (op.name.toList.all fun c => isWordChar c || c == '.') = true := by
    decide +kernel
  simpa using List.all_eq_true.mp (hall op op.mem_all) c hc

/-- A code that is decoded is that of the operation. -/
theorem codeFor_of_ofCode? {op : Operation} {family : Family} {code : ℕ}
    (h : ofCode? family code = some op) : op.info.codeFor family = some code := by
  simpa using List.find?_some h

end Operation

namespace Program

/-! ## Entries -/

/-- What a line of a listing says behind its number. -/
inductive Entry where
  /-- An operation that uses neither a register nor a constant. -/
  | plain (op : Operation)
  /-- A parameter is pushed, from a register that has a name. -/
  | parameter (register : ℕ) (name : String)
  /-- A number is pushed. -/
  | constant (number : ℤ)

namespace Entry

/-- The operation that an entry is about. -/
def operation : Entry → Operation
  | plain op => op
  | parameter .. => .pushParameter
  | constant _ => .pushConstant

/-- The register of an instruction with this entry. -/
def register : Entry → ℕ
  | parameter register _ => register
  | _ => 0

/-- The constant of an instruction with this entry. -/
def word (t : IntType) : Entry → t.Word
  | constant number => t.wrap number
  | _ => 0#t.bits

/-- An entry in words. -/
def text : Entry → String
  | plain op => op.name
  | parameter register name =>
    s!"{padRight 14 (Operation.name .pushParameter)}r{register} ({name})"
  | constant number => s!"{padRight 14 (Operation.name .pushConstant)}{number}"

/-- The line of an entry at a position. -/
def line (position : ℕ) (e : Entry) : String :=
  s!"{padLeft 4 (toString position)}  {e.text}"

/-- The pushes of parameters and numbers have entries of their own. -/
def Proper : Entry → Prop
  | plain op => op ≠ .pushParameter ∧ op ≠ .pushConstant
  | _ => True

/-- Entries about one operation are the same, or both push a parameter, or both push a number. -/
theorem Proper.cases {e e' : Entry} (he : e.Proper) (he' : e'.Proper)
    (h : e.operation = e'.operation) :
    e = e' ∨ (∃ register name register' name', e = parameter register name ∧
      e' = parameter register' name') ∨ ∃ number number', e = constant number ∧
        e' = constant number' := by
  cases e with
  | plain op =>
      cases e' with
      | plain op' => exact .inl (congrArg plain h)
      | parameter _ _ => exact absurd h he.1
      | constant _ => exact absurd h he.2
  | parameter register name =>
      cases e' with
      | plain op' => exact absurd h.symm he'.1
      | parameter register' name' => exact .inr (.inl ⟨register, name, register', name', rfl, rfl⟩)
      | constant _ => cases h
  | constant number =>
      cases e' with
      | plain op' => exact absurd h.symm he'.2
      | parameter _ _ => cases h
      | constant number' => exact .inr (.inr ⟨number, number', rfl, rfl⟩)

end Entry

variable {t : IntType}

/-- What an entry says of the instruction at a position: its code is known, and a register that it
reads has a name. -/
def Lists (p : Program (.int t)) (position : ℕ) : Entry → Prop
  | .plain op => p.bytecode.operationAt? position = some op ∧ op ≠ .pushParameter ∧
      op ≠ .pushConstant
  | .parameter register name => p.bytecode.operationAt? position = some .pushParameter ∧
      p.bytecode.registers[position]? = some register ∧ p.parameters[register]? = some name
  | .constant number => p.bytecode.operationAt? position = some .pushConstant ∧
      ∃ a, p.bytecode.constants[position]? = some a ∧ t.toInt a = number

/-- A line shows the operation of its instruction. -/
theorem Lists.operationAt? {p : Program (.int t)} {position : ℕ} {e : Entry}
    (h : p.Lists position e) : p.bytecode.operationAt? position = some e.operation := by
  cases e with
  | plain _ | parameter _ _ | constant _ => exact h.1

/-- A line of a program is a proper one. -/
theorem Lists.proper {p : Program (.int t)} {position : ℕ} {e : Entry}
    (h : p.Lists position e) : e.Proper := by
  cases e with
  | plain op => exact h.2
  | parameter _ _ | constant _ => exact trivial

/-- An instruction has one entry. -/
theorem Lists.unique {p : Program (.int t)} {position : ℕ} {e e' : Entry}
    (h : p.Lists position e) (h' : p.Lists position e') : e = e' := by
  have hop : e.operation = e'.operation :=
    Option.some.inj (h.operationAt?.symm.trans h'.operationAt?)
  rcases h.proper.cases h'.proper hop with heq | ⟨register, name, register', name', rfl, rfl⟩ |
    ⟨number, number', rfl, rfl⟩
  · exact heq
  · obtain ⟨-, hregister, hname⟩ := h
    obtain ⟨-, hregister', hname'⟩ := h'
    obtain rfl := Option.some.inj (hregister.symm.trans hregister')
    rw [Option.some.inj (hname.symm.trans hname')]
  · obtain ⟨-, a, ha, rfl⟩ := h
    obtain ⟨-, a', ha', rfl⟩ := h'
    rw [Option.some.inj (ha.symm.trans ha')]

/-- The line of an instruction is that of its entry. -/
theorem Lists.getElem?_lines {p : Program (.int t)} {position : ℕ} {e : Entry}
    (h : p.Lists position e) : p.lines[position]? = some (e.line position) := by
  obtain ⟨code, hcode, hop⟩ := Option.bind_eq_some_iff.mp h.operationAt?
  have htext : p.instructionText position code = e.text := by
    unfold instructionText
    rw [hop]
    cases e with
    | plain op =>
        obtain ⟨-, hparameter, hconstant⟩ := h
        dsimp only [Entry.operation, Entry.text]
        split
        · rename_i hnone
          cases hnone
        · rename_i hpush
          exact absurd (Option.some.inj hpush) hparameter
        · rename_i hpush
          exact absurd (Option.some.inj hpush) hconstant
        · rename_i heq
          rw [Option.some.inj heq]
    | parameter register name =>
        obtain ⟨-, hregister, hname⟩ := h
        have hread : p.bytecode.registers.getD position 0 = register := by
          rw [List.getD_eq_getElem?_getD, hregister, Option.getD_some]
        have hnamed : p.parameters.getD register "?" = name := by
          rw [List.getD_eq_getElem?_getD, hname, Option.getD_some]
        simp only [Entry.operation, Entry.text, hread, hnamed]
    | constant number =>
        obtain ⟨-, a, ha, rfl⟩ := h
        have hread : p.bytecode.constants.getD position (ElementType.int t).zero = a := by
          rw [List.getD_eq_getElem?_getD, ha, Option.getD_some]
        simp only [Entry.operation, Entry.text, hread, ElementType.text]
        rfl
  rw [lines, List.getElem?_mapIdx, hcode, Option.map_some, htext, Entry.line]

namespace Valid

variable {p q : Program (.int t)}

/-- Every instruction of a valid program has an entry. -/
theorem exists_lists (h : p.Valid) {position : ℕ} (hposition : position < p.length) :
    ∃ e, p.Lists position e := by
  obtain ⟨op, hop⟩ := h.decodes position hposition
  by_cases hparameter : op = .pushParameter
  · subst hparameter
    obtain ⟨register, hlt, hregister⟩ := h.register_lt position hop
    exact ⟨.parameter register p.parameters[register], hop, hregister, List.getElem?_eq_getElem hlt⟩
  · by_cases hconstant : op = .pushConstant
    · subst hconstant
      have hlt : position < p.bytecode.constants.length := by rwa [h.constants_length]
      exact ⟨.constant (t.toInt p.bytecode.constants[position]), hop, _,
        List.getElem?_eq_getElem hlt, rfl⟩
    · exact ⟨.plain op, hop, hparameter, hconstant⟩

/-! ## Entries make up a program -/

variable {position : ℕ} {e : Entry}

/-- The code of an instruction is that of the operation on its line. -/
theorem getElem?_codes (he : p.Lists position e) :
    p.bytecode.codes[position]? = e.operation.info.codeFor (ElementType.int t).family := by
  obtain ⟨code, hcode, hop⟩ := Option.bind_eq_some_iff.mp he.operationAt?
  rw [hcode, Operation.codeFor_of_ofCode? hop]

/-- Unused registers are zero, so an entry determines the register. -/
theorem getElem?_registers (h : p.Valid) (he : p.Lists position e) :
    p.bytecode.registers[position]? = some e.register := by
  cases e with
  | plain op => exact h.register_zero position op he.1 he.2.1
  | parameter register name => exact he.2.1
  | constant number => exact h.register_zero position _ he.1 (by decide)

/-- Unused constants are zero, so an entry determines the constant. -/
theorem getElem?_constants (h : p.Valid) (he : p.Lists position e) :
    p.bytecode.constants[position]? = some (e.word t) := by
  cases e with
  | plain op => exact h.constant_zero position op he.1 he.2.2
  | parameter register name => exact h.constant_zero position _ he.1 (by decide)
  | constant number =>
      obtain ⟨-, a, ha, rfl⟩ := he
      rw [ha]
      exact congrArg some (t.wrap_toInt a).symm

/-- Every parameter is read, so entries determine the names of the parameters. -/
theorem getElem?_parameters (h : p.Valid)
    (hlists : ∀ position < p.length, ∃ e, p.Lists position e ∧ q.Lists position e) {register : ℕ}
    {name : String} (hname : p.parameters[register]? = some name) :
    q.parameters[register]? = some name := by
  obtain ⟨hlt, -⟩ := List.getElem?_eq_some_iff.mp hname
  obtain ⟨position, hop, hregister⟩ := h.register_read register hlt
  have hposition : position < p.length := by
    rw [← h.registers_length]
    exact (List.getElem?_eq_some_iff.mp hregister).1
  obtain ⟨e, he, he'⟩ := hlists position hposition
  have hparameter : p.Lists position (.parameter register name) := ⟨hop, hregister, hname⟩
  rw [he.unique hparameter] at he'
  exact he'.2.2

/-- The depth follows from the codes. -/
theorem depth_le (hp : p.Valid) (hq : q.Valid) (hcodes : p.bytecode.codes = q.bytecode.codes) :
    p.depth ≤ q.depth := by
  obtain ⟨n, hn, hle, hpeak⟩ := hp.height_peak
  have hlength : p.length = q.length := congrArg List.length hcodes
  have hheight : p.bytecode.heightAfter n = q.bytecode.heightAfter n := by
    unfold Bytecode.heightAfter
    rw [hcodes]
  have hbound := hq.height_le n hn (hlength ▸ hle)
  omega

/-- **Entries make up a program.** Valid programs of one length with the same entries are the same.
-/
theorem eq_of_lists (hp : p.Valid) (hq : q.Valid) (hlength : p.length = q.length)
    (h : ∀ position < p.length, ∃ e, p.Lists position e ∧ q.Lists position e) : p = q := by
  have hext : ∀ {α : Type} {as bs : List α}, as.length = p.length → bs.length = p.length →
      (∀ position < p.length, as[position]? = bs[position]?) → as = bs := by
    intro α as bs has hbs heq
    refine List.ext_getElem? fun position => ?_
    by_cases hposition : position < p.length
    · exact heq position hposition
    · rw [List.getElem?_eq_none (by omega), List.getElem?_eq_none (by omega)]
  have hcodes : p.bytecode.codes = q.bytecode.codes := by
    refine hext rfl hlength.symm fun position hposition => ?_
    obtain ⟨e, he, he'⟩ := h position hposition
    rw [getElem?_codes he, getElem?_codes he']
  have hregisters : p.bytecode.registers = q.bytecode.registers := by
    refine hext hp.registers_length (hq.registers_length.trans hlength.symm)
      fun position hposition => ?_
    obtain ⟨e, he, he'⟩ := h position hposition
    rw [hp.getElem?_registers he, hq.getElem?_registers he']
  have hconstants : p.bytecode.constants = q.bytecode.constants := by
    refine hext hp.constants_length (hq.constants_length.trans hlength.symm)
      fun position hposition => ?_
    obtain ⟨e, he, he'⟩ := h position hposition
    rw [hp.getElem?_constants he, hq.getElem?_constants he']
  have hdepth : p.depth = q.depth :=
    Nat.le_antisymm (hp.depth_le hq hcodes) (hq.depth_le hp hcodes.symm)
  have hparameters : p.parameters = q.parameters := by
    refine List.ext_getElem? fun register => Option.ext fun name => ⟨hp.getElem?_parameters h, ?_⟩
    refine hq.getElem?_parameters fun position hposition => ?_
    obtain ⟨e, he, he'⟩ := h position (hlength ▸ hposition)
    exact ⟨e, he', he⟩
  obtain ⟨⟨codes, registers, constants⟩, depth, parameters⟩ := p
  obtain ⟨⟨codes', registers', constants'⟩, depth', parameters'⟩ := q
  dsimp only at hcodes hregisters hconstants hdepth hparameters
  subst hcodes hregisters hconstants hdepth hparameters
  rfl

end Valid

/-! ## Texts of entries -/

namespace Entry

/-- The first blank ends the name of the operation. -/
theorem takeWhile_text (e : Entry) :
    e.text.toList.takeWhile (· != ' ') = e.operation.name.toList := by
  have hname : ∀ op : Operation, ∀ c ∈ op.name.toList, (c != ' ') = true := by
    intro op c hc
    rcases Operation.mem_name hc with hword | rfl
    · rw [bne_iff_ne]
      rintro rfl
      exact absurd hword (by decide)
    · rfl
  have hpadded : ∀ (op : Operation) (details : List Char), op.name.length < 14 →
      ((padRight 14 op.name).toList ++ details).takeWhile (· != ' ') = op.name.toList := by
    intro op details hshort
    obtain ⟨blanks, hblanks⟩ : ∃ n, 14 - op.name.length = n + 1 :=
      ⟨13 - op.name.length, by omega⟩
    rw [padRight, String.toList_append, String.toList_ofList, hblanks, List.replicate_succ,
      List.append_assoc, List.takeWhile_append_of_pos (hname op)]
    simp
  cases e with
  | plain op => exact List.takeWhile_eq_self_iff.mpr (hname op)
  | parameter register name =>
      rw [text]
      simp only [toString, String.toList_append, List.append_assoc]
      exact hpadded _ _ (by decide)
  | constant number =>
      rw [text]
      simp only [String.toList_append]
      exact hpadded _ _ (by decide)

/-- A number is written in digits. -/
theorem mem_toString {n : ℕ} {c : Char} (hc : c ∈ (toString n).toList) : c.isDigit = true := by
  rw [Nat.toString_eq_repr, Nat.toList_repr] at hc
  exact Nat.isDigit_of_mem_toDigits (by decide) (by decide) hc

/-- The number of a register ends at the blank behind it, and its name stands in parentheses. -/
theorem parameter_inj {register register' : ℕ} {name name' : String}
    (h : (parameter register name).text = (parameter register' name').text) :
    register = register' ∧ name = name' := by
  have hchars : ∀ (n : ℕ) (s : String), (parameter n s).text.toList =
      (padRight 14 (Operation.name .pushParameter)).toList ++
        'r' :: ((toString n).toList ++ ' ' :: '(' :: (s.toList ++ [')'])) := by
    intro n s
    simp [text, toString]
  have hdigits : ∀ (n : ℕ) (rest : List Char),
      ((toString n).toList ++ ' ' :: rest).takeWhile Char.isDigit = (toString n).toList := by
    intro n rest
    rw [List.takeWhile_append_of_pos fun c hc => mem_toString hc]
    simp
  have htail := congrArg String.toList h
  rw [hchars, hchars, List.append_cancel_left_eq, List.cons.injEq] at htail
  have hnumber := congrArg (List.takeWhile Char.isDigit) htail.2
  rw [hdigits, hdigits, String.toList_inj] at hnumber
  obtain rfl := Nat.repr_inj.mp hnumber
  refine ⟨rfl, String.toList_inj.mp ?_⟩
  simpa using htail.2

/-- **Entries can be told apart by their texts.** -/
theorem text_inj {e e' : Entry} (he : e.Proper) (he' : e'.Proper) (h : e.text = e'.text) :
    e = e' := by
  have hop : e.operation = e'.operation := by
    refine Operation.name_inj (String.toList_inj.mp ?_)
    rw [← takeWhile_text, ← takeWhile_text, h]
  rcases he.cases he' hop with heq | ⟨register, name, register', name', rfl, rfl⟩ |
    ⟨number, number', rfl, rfl⟩
  · exact heq
  · obtain ⟨rfl, rfl⟩ := parameter_inj h
    rfl
  · have hnumber : toString number = toString number' := (String.append_right_inj _).mp h
    rw [Int.repr_inj.mp hnumber]

/-! ## Lines -/

/-- The characters of lines: those of words, and a few signs. -/
def isLineChar (c : Char) : Bool :=
  isWordChar c || c == ' ' || c == '.' || c == '(' || c == ')' || c == '-'

/-- A text in the characters of lines. -/
def Legible (s : String) : Prop :=
  s.toList.all isLineChar = true

/-- A text is legible if all of its characters are. -/
theorem legible_iff {s : String} : Legible s ↔ ∀ c ∈ s.toList, isLineChar c = true :=
  List.all_eq_true

/-- Two legible texts side by side are legible. -/
theorem Legible.append {s s' : String} (h : Legible s) (h' : Legible s') : Legible (s ++ s') := by
  rw [Legible, String.toList_append, List.all_append, Bool.and_eq_true]
  exact ⟨h, h'⟩

/-- What is no character of lines is not in a legible text. -/
theorem Legible.not_mem {s : String} (h : Legible s) {c : Char} (hc : isLineChar c = false) :
    c ∉ s.toList := by
  intro hmem
  rw [legible_iff.mp h c hmem] at hc
  cases hc

/-- Characters of words are characters of lines. -/
theorem isLineChar_of_isWordChar {c : Char} (h : isWordChar c = true) : isLineChar c = true := by
  simp [isLineChar, h]

/-- Blanks are legible. -/
theorem legible_blanks (n : ℕ) : Legible (String.ofList (List.replicate n ' ')) := by
  rw [legible_iff]
  intro c hc
  rw [String.toList_ofList] at hc
  rw [List.eq_of_mem_replicate hc]
  rfl

/-- Blanks may be added on the right. -/
theorem legible_padRight {s : String} (h : Legible s) (width : ℕ) : Legible (padRight width s) :=
  h.append (legible_blanks _)

/-- Blanks may be added on the left. -/
theorem legible_padLeft {s : String} (h : Legible s) (width : ℕ) : Legible (padLeft width s) :=
  (legible_blanks _).append h

/-- The names of operations are legible. -/
theorem legible_name (op : Operation) : Legible op.name := by
  rw [legible_iff]
  intro c hc
  rcases Operation.mem_name hc with hword | rfl
  · exact isLineChar_of_isWordChar hword
  · rfl

/-- Natural numbers are legible. -/
theorem legible_toString (n : ℕ) : Legible (toString n) := by
  rw [legible_iff]
  intro c hc
  refine isLineChar_of_isWordChar ?_
  simp [isWordChar, Char.isAlphanum, mem_toString hc]

/-- Whole numbers are legible, with their signs. -/
theorem legible_number (number : ℤ) : Legible (toString number) := by
  have hminus : Legible "-" := rfl
  rw [Int.toString_eq_repr, Int.repr_eq_if]
  split
  · exact legible_toString _
  · exact hminus.append (legible_toString _)

/-- The text of an entry is legible if the name in it is one. -/
theorem legible_text {e : Entry}
    (h : ∀ register name, e = parameter register name → isIdentifier name = true) :
    Legible e.text := by
  cases e with
  | plain op => exact legible_name op
  | parameter register name =>
      have hname : Legible name := legible_iff.mpr fun c hc =>
        isLineChar_of_isWordChar (isWordChar_of_isIdentifier (h register name rfl) c hc)
      have hmark : Legible "r" := rfl
      have hopen : Legible " (" := rfl
      have hclose : Legible ")" := rfl
      have hregister := ((legible_padRight (legible_name .pushParameter) 14).append hmark).append
        (legible_toString register)
      exact ((hregister.append hopen).append hname).append hclose
  | constant number => exact (legible_padRight (legible_name _) 14).append (legible_number number)

/-- A line is legible if the name on it is a name. -/
theorem legible_line {e : Entry}
    (h : ∀ register name, e = parameter register name → isIdentifier name = true) (position : ℕ) :
    Legible (e.line position) := by
  have hblanks : Legible "  " := legible_blanks 2
  exact ((legible_padLeft (legible_toString position) 4).append hblanks).append (legible_text h)

end Entry

/-! ## Listings -/

/-- There is a line for each instruction. -/
theorem length_lines (p : Program (.int t)) : p.lines.length = p.length :=
  List.length_mapIdx

/-- A listing is read line by line. -/
theorem splitOn_listing {p : Program (.int t)} (h : ∀ line ∈ p.lines, '\n' ∉ line.toList) :
    p.listing.toList.splitOn '\n' = p.lines.map String.toList ++ [[]] := by
  unfold listing
  generalize p.lines = lines at h
  induction lines with
  | nil => rfl
  | cons line rest ih =>
      rw [List.forall_mem_cons] at h
      have hchars : (String.join ((line :: rest).map (· ++ "\n"))).toList =
          line.toList ++ '\n' :: (String.join (rest.map (· ++ "\n"))).toList := by
        simp [String.toList_join]
      rw [hchars, List.splitOn_append_cons_self_of_not_mem h.1, ih h.2]
      rfl

/-- The parameters of a compiled program have the form of names. -/
theorem isIdentifier_of_compile {T : ElementType} {settings : Settings} {equation element : String}
    {parameters : List String} {p : Program T}
    (h : compile T settings equation element parameters = .ok p) :
    ∀ name ∈ parameters, isIdentifier name = true := by
  obtain ⟨_, hnames, -⟩ := bind_eq_ok_iff.mp h
  intro name hname
  exact (checkName_eq_ok_iff.mp
    (checkNames_eq_ok_iff.mp hnames name (List.mem_cons_of_mem _ hname))).1.1

/-- The lines of a valid program are legible if its parameters have the form of names. -/
theorem Valid.legible {p : Program (.int t)} (h : p.Valid)
    (hnames : ∀ name ∈ p.parameters, isIdentifier name = true) {line : String}
    (hline : line ∈ p.lines) : Entry.Legible line := by
  obtain ⟨position, hposition⟩ := List.mem_iff_getElem?.mp hline
  have hlt : position < p.length := by
    rw [← p.length_lines]
    exact (List.getElem?_eq_some_iff.mp hposition).1
  obtain ⟨e, he⟩ := h.exists_lists hlt
  rw [he.getElem?_lines, Option.some.injEq] at hposition
  rw [← hposition]
  refine Entry.legible_line ?_ position
  rintro register name rfl
  exact hnames name (List.mem_of_getElem? he.2.2)

/-- **Listings can be told apart.** -/
theorem Valid.eq_of_listing {p q : Program (.int t)} (hp : p.Valid) (hq : q.Valid)
    (hpnames : ∀ name ∈ p.parameters, isIdentifier name = true)
    (hqnames : ∀ name ∈ q.parameters, isIdentifier name = true) (h : p.listing = q.listing) :
    p = q := by
  have hlines : p.lines = q.lines := by
    have hsplit := congrArg (fun s => s.toList.splitOn '\n') h
    rw [splitOn_listing fun line hline => (hp.legible hpnames hline).not_mem rfl,
      splitOn_listing fun line hline => (hq.legible hqnames hline).not_mem rfl,
      List.append_cancel_right_eq] at hsplit
    exact List.map_injective_iff.mpr (fun _ _ => String.toList_injective) hsplit
  have hlength : p.length = q.length := by
    rw [← p.length_lines, ← q.length_lines, hlines]
  refine hp.eq_of_lists hq hlength fun position hposition => ?_
  obtain ⟨e, he⟩ := hp.exists_lists hposition
  obtain ⟨e', he'⟩ := hq.exists_lists (hlength ▸ hposition)
  have hline : e.line position = e'.line position := by
    rw [← Option.some.injEq, ← he.getElem?_lines, ← he'.getElem?_lines, hlines]
  have htext : e.text = e'.text := (String.append_right_inj _).mp hline
  obtain rfl := Entry.text_inj he.proper he'.proper htext
  exact ⟨e, he, he'⟩

/-- **Listings are faithful.** Two programs that are compiled for one integer type, from whatever
equations and with whatever names and settings, are the same if their listings are. The listing of a
compiled program has a line for each instruction, and the line shows what the instruction does: its
code is known, and a register it reads is shown with the parameter's name. So the marks of unknown
codes and of registers without a name are nowhere in the listing. -/
theorem listing_faithful (t : IntType) {settings settings' : Settings}
    {equation equation' element element' : String} {parameters parameters' : List String}
    {p q : Program (.int t)}
    (hp : compile (.int t) settings equation element parameters = .ok p)
    (hq : compile (.int t) settings' equation' element' parameters' = .ok q) :
    (p.listing = q.listing → p = q) ∧
      p.listing.toList.splitOn '\n' = p.lines.map String.toList ++ [[]] ∧
      p.lines.length = p.length ∧
      (∀ position < p.length, ∃ e, p.Lists position e ∧
        p.lines[position]? = some (e.line position)) ∧
      ∀ line ∈ p.lines, '<' ∉ line.toList ∧ '?' ∉ line.toList := by
  obtain ⟨_, _, hcompiled⟩ := exists_compiled hp
  obtain ⟨_, _, hcompiled'⟩ := exists_compiled hq
  have hvalid := hcompiled.valid
  have hpnames := isIdentifier_of_compile hp
  have hqnames := isIdentifier_of_compile hq
  rw [← hcompiled.names] at hpnames
  rw [← hcompiled'.names] at hqnames
  have hlegible : ∀ line ∈ p.lines, Entry.Legible line :=
    fun _ hline => hvalid.legible hpnames hline
  refine ⟨hvalid.eq_of_listing hcompiled'.valid hpnames hqnames,
    splitOn_listing fun line hline => (hlegible line hline).not_mem rfl, p.length_lines,
    fun position hposition => ?_,
    fun line hline => ⟨(hlegible line hline).not_mem rfl, (hlegible line hline).not_mem rfl⟩⟩
  obtain ⟨e, he⟩ := hvalid.exists_lists hposition
  exact ⟨e, he, he.getElem?_lines⟩

/-- `a - b * -128` with its parameters declared in the one order and in the other: the programs
differ in their registers, so the listings differ, each of five lines. -/
theorem listing_faithful_exchanged :
    ∃ p q : Program (.int ⟨true, .w8⟩),
      compile _ .default "a - b * -128" "x" ["a", "b"] = .ok p ∧
      compile _ ⟨.baseline, 4⟩ "(a)-(b*-0x80)" "y" ["b", "a"] = .ok q ∧
      p.listing ≠ q.listing ∧ p.lines.length = 5 ∧ q.lines.length = 5 := by
  have hp : compile (.int ⟨true, .w8⟩) .default "a - b * -128" "x" ["a", "b"] =
      .ok ⟨⟨[2, 1, 9, 1, 8], [0, 1, 0, 0, 0], [128#8, 0#8, 0#8, 0#8, 0#8]⟩, 4, ["a", "b"]⟩ := rfl
  have hq : compile (.int ⟨true, .w8⟩) ⟨.baseline, 4⟩ "(a)-(b*-0x80)" "y" ["b", "a"] =
      .ok ⟨⟨[2, 1, 9, 1, 8], [0, 0, 0, 1, 0], [128#8, 0#8, 0#8, 0#8, 0#8]⟩, 4, ["b", "a"]⟩ := rfl
  obtain ⟨hsame, -, hlength, -⟩ := listing_faithful _ hp hq
  obtain ⟨-, -, hlength', -⟩ := listing_faithful _ hq hp
  refine ⟨_, _, hp, hq, fun hlisting => ?_, hlength, hlength'⟩
  have hregisters := congrArg (fun p => p.bytecode.registers) (hsame hlisting)
  exact absurd hregisters (by decide)

end Program

end Elementwise
