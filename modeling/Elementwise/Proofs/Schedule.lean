import Elementwise.Proofs.Lanes

/-!
# Lanes at the same time

Lanes that run at the same time share the lowest faulting element known so far. Before each element
a lane reads it, and what it reads may be out of date; if its element comes after what it read, the
lane stops. Otherwise it writes the result, or it lowers the shared number and ends with the fault.
A schedule is any sequence of such moves (`Parallel.Reaches`).

The invariant `Parallel.Sound` holds after every move: each lane has written the values of its
elements up to where it is, every number ever shared is that of an element that faults, and only
elements with a value are written. A lane that stopped was past an element that faults. So when all
lanes have finished, nothing before the first faulting element is missing, the lane of that element
has ended with its fault, and every other fault comes later (`Bytecode.parallel_eq_single`).
-/

namespace Elementwise

variable {T : ElementType}

/-- Where a lane is. -/
inductive LaneState (T : ElementType) where
  /-- Before the element with number `index`, with the rest of its block to do. -/
  | running (index : Nat) (slots : Array T.Value) (rest : List T.Value)
  /-- Stopped because of a fault at an earlier element. -/
  | stopped
  | faulted (fault : ElementFault)

/-- Lanes at the same time. -/
structure Parallel (T : ElementType) where
  lanes : List (LaneState T)
  destination : List T.Value
  /-- The number of the lowest faulting element known. -/
  lowest : Option Nat
  /-- What the lowest number was before. -/
  earlier : List (Option Nat)

namespace LaneState

/-- A lane has nothing left to do. -/
def Finished : LaneState T → Prop
  | .running _ _ rest => rest = []
  | _ => True

/-- The fault that a lane ended with. -/
def fault? : LaneState T → Option ElementFault
  | .faulted fault => some fault
  | _ => none

/-- The elements that a lane may still take up. -/
def remaining : LaneState T → Nat
  | .running _ _ rest => rest.length
  | _ => 0

end LaneState

namespace Parallel

/-- What a lane may read: the lowest number, or what it was before. -/
def Known (s : Parallel T) (number : Option Nat) : Prop :=
  number = s.lowest ∨ number ∈ s.earlier

/-- An element comes after a faulting one. -/
def Passed (index : Nat) : Option Nat → Prop
  | some lowest => lowest < index
  | none => False

/-- The lowest number with one more. -/
def lower (index : Nat) : Option Nat → Option Nat
  | some lowest => some (min lowest index)
  | none => some index

/-- One lane takes up its next element: it stops, writes the result, or ends with a fault. -/
inductive Moves (job : Job T) (s : Parallel T) : Parallel T → Prop
  | stop (number : Nat) {index : Nat} {slots : Array T.Value} {x : T.Value} {rest : List T.Value}
      {read : Option Nat} (hlane : s.lanes[number]? = some (.running index slots (x :: rest)))
      (hread : s.Known read) (hpassed : Passed index read) :
      Moves job s ⟨s.lanes.set number .stopped, s.destination, s.lowest, s.earlier⟩
  | write (number : Nat) {index : Nat} {slots left : Array T.Value} {x value : T.Value}
      {rest : List T.Value} {read : Option Nat}
      (hlane : s.lanes[number]? = some (.running index slots (x :: rest)))
      (hread : s.Known read) (hpassed : ¬Passed index read)
      (helement : job.element slots x = .ok (value, left)) :
      Moves job s ⟨s.lanes.set number (.running (index + 1) left rest),
        s.destination.set index value, s.lowest, s.earlier⟩
  | fault (number : Nat) {index : Nat} {slots : Array T.Value} {x : T.Value} {rest : List T.Value}
      {read : Option Nat} {fault : OperationFault}
      (hlane : s.lanes[number]? = some (.running index slots (x :: rest)))
      (hread : s.Known read) (hpassed : ¬Passed index read)
      (helement : job.element slots x = .error fault) :
      Moves job s ⟨s.lanes.set number (.faulted ⟨index, fault.operation, fault.reason⟩),
        s.destination, lower index s.lowest, s.lowest :: s.earlier⟩

/-- What lanes can come to. -/
inductive Reaches (job : Job T) (start : Parallel T) : Parallel T → Prop
  | start : Reaches job start start
  | move {s t : Parallel T} (h : Reaches job start s) (hmove : Moves job s t) :
      Reaches job start t

/-- All lanes have nothing left to do. -/
def Finished (s : Parallel T) : Prop :=
  ∀ lane ∈ s.lanes, lane.Finished

/-- The fault with the lowest number. -/
def first? : List ElementFault → Option ElementFault
  | [] => none
  | fault :: rest =>
    match first? rest with
    | none => some fault
    | some other => if fault.index ≤ other.index then some fault else some other

/-- The outcome of lanes: the destination, and the first of their faults. -/
def outcome (s : Parallel T) : Outcome T :=
  ⟨s.destination,
    (first? (s.lanes.filterMap LaneState.fault?)).map fun f =>
      .arithmeticFault f.index f.operation f.reason⟩

/-- The lanes of a run over `input` before their first moves, each with its block of `size` elements
and its slice of the memory. -/
def start (memory : Scratch T) (depth size count : Nat) (input destination : List T.Value) :
    Parallel T :=
  ⟨(List.range count).map fun number =>
      .running (number * size) (memory.slice depth number)
        ((input.drop (number * size)).take size),
    destination, none, []⟩

end Parallel

/-! ## The invariant -/

namespace Job

/-- The element with a number has a value. -/
def HasValue (job : Job T) (input : List T.Value) (i : Nat) (value : T.Value) : Prop :=
  ∃ x, input[i]? = some x ∧ job.value x = .ok value

/-- A fault is that of its element. -/
def FaultsWith (job : Job T) (input : List T.Value) (fault : ElementFault) : Prop :=
  ∃ x, input[fault.index]? = some x ∧ job.value x = .error ⟨fault.operation, fault.reason⟩

variable {job : Job T} {input : List T.Value}

/-- An element has one value. -/
theorem HasValue.unique {i : Nat} {value other : T.Value} (h : job.HasValue input i value)
    (hother : job.HasValue input i other) : value = other := by
  obtain ⟨x, hx, hvalue⟩ := h
  obtain ⟨y, hy, hvalue'⟩ := hother
  cases hx.symm.trans hy
  exact Except.ok.inj (hvalue.symm.trans hvalue')

/-- An element does not have a value and a fault. -/
theorem FaultsWith.not_hasValue {fault : ElementFault} (h : job.FaultsWith input fault)
    {value : T.Value} : ¬job.HasValue input fault.index value := by
  rintro ⟨y, hy, hvalue⟩
  obtain ⟨x, hx, hfault⟩ := h
  cases hx.symm.trans hy
  cases hfault.symm.trans hvalue

/-- An element has one fault. -/
theorem FaultsWith.unique {fault other : ElementFault} (h : job.FaultsWith input fault)
    (hother : job.FaultsWith input other) (hindex : other.index = fault.index) :
    other = fault := by
  obtain ⟨x, hx, hfault⟩ := h
  obtain ⟨y, hy, hfault'⟩ := hother
  rw [hindex] at hy
  cases hx.symm.trans hy
  cases fault
  cases other
  cases hindex
  cases hfault.symm.trans hfault'
  rfl

end Job

namespace Parallel

/-- The values of elements from `first` up to `last` are written. -/
def Written (job : Job T) (input destination : List T.Value) (first last : Nat) : Prop :=
  ∀ i, first ≤ i → i < last → ∃ value, job.HasValue input i value ∧ destination[i]? = some value

/-- What holds of a lane whose block is from `first` to `last`. -/
def LaneSound (job : Job T) (input : List T.Value) (depth : Nat) (s : Parallel T)
    (first last : Nat) : LaneState T → Prop
  | .running index slots rest =>
    rest = (input.drop index).take (last - index) ∧ depth ≤ slots.size ∧
      Written job input s.destination first index
  | .stopped => ∃ index lowest, s.Known (some lowest) ∧ lowest < index ∧
      Written job input s.destination first index
  | .faulted fault =>
    job.FaultsWith input fault ∧ Written job input s.destination first fault.index

/-- What holds of lanes that started on blocks of `size` elements with the destination `initial`. -/
structure Sound (job : Job T) (input initial : List T.Value) (depth size count : Nat)
    (s : Parallel T) : Prop where
  count_eq : s.lanes.length = count
  lane : ∀ number lane, s.lanes[number]? = some lane →
    LaneSound job input depth s (number * size) ((number + 1) * size) lane
  known : ∀ lowest, s.Known (some lowest) → ∃ fault, job.FaultsWith input fault ∧
    fault.index = lowest
  length_eq : s.destination.length = initial.length
  /-- Nothing is written but values. -/
  untouched : ∀ i, (∀ value, ¬job.HasValue input i value) → s.destination[i]? = initial[i]?

variable {job : Job T} {input initial : List T.Value} {depth size count : Nat} {s t : Parallel T}

/-- What is written stays written when another value is. -/
theorem Written.set {destination : List T.Value} {first last : Nat}
    (h : Written job input destination first last) {index : Nat} {value : T.Value}
    (hvalue : job.HasValue input index value) (hindex : index < destination.length) :
    Written job input (destination.set index value) first last := by
  intro i hfirst hlast
  by_cases hi : index = i
  · subst hi
    exact ⟨value, hvalue, List.getElem?_set_self hindex⟩
  · rw [List.getElem?_set_ne hi]
    exact h i hfirst hlast

/-- What holds of a lane goes on to hold when more is known and more is written. -/
theorem LaneSound.mono {first last : Nat} {lane : LaneState T}
    (h : LaneSound job input depth s first last lane)
    (hknown : ∀ number, s.Known number → t.Known number)
    (hwritten : ∀ index, Written job input s.destination first index →
      Written job input t.destination first index) :
    LaneSound job input depth t first last lane := by
  cases lane with
  | running index slots rest => exact ⟨h.1, h.2.1, hwritten index h.2.2⟩
  | stopped =>
      obtain ⟨index, lowest, hlowest, hlt, hdone⟩ := h
      exact ⟨index, lowest, hknown _ hlowest, hlt, hwritten index hdone⟩
  | faulted fault => exact ⟨h.1, hwritten fault.index h.2⟩

/-- After a change of one lane, a lane is the changed one or as before. -/
theorem lane_of_set {lanes : List (LaneState T)} {number place : Nat} {changed lane : LaneState T}
    (h : (lanes.set place changed)[number]? = some lane) :
    number = place ∧ lane = changed ∨ lanes[number]? = some lane := by
  rw [List.getElem?_set] at h
  split at h
  · rename_i hplace
    split at h
    · exact .inl ⟨hplace.symm, (Option.some.inj h).symm⟩
    · cases h
  · exact .inr h

/-- The next element of a running lane. -/
theorem next_of_rest {index last : Nat} {x : T.Value} {rest : List T.Value}
    (h : x :: rest = (input.drop index).take (last - index)) :
    input[index]? = some x ∧ rest = (input.drop (index + 1)).take (last - (index + 1)) := by
  obtain ⟨count, hcount⟩ : ∃ count, last - index = count + 1 := by
    refine ⟨last - index - 1, ?_⟩
    rcases Nat.eq_zero_or_pos (last - index) with hzero | hpos
    · rw [hzero, List.take_zero] at h
      cases h
    · omega
  have hless : last - (index + 1) = count := by omega
  rw [hcount] at h
  rw [hless, ← List.drop_drop]
  rcases hdrop : input.drop index with _ | ⟨y, tail⟩
  · rw [hdrop] at h
    cases h
  · rw [hdrop, List.take_succ_cons] at h
    obtain ⟨rfl, rfl⟩ := List.cons.inj h
    refine ⟨?_, rfl⟩
    rw [← List.head?_drop, hdrop, List.head?_cons]

/-- The invariant holds before the first move. -/
theorem sound_start (job : Job T) (memory : Scratch T) (depth size count : Nat)
    (input destination : List T.Value) :
    Sound job input destination depth size count
      (start memory depth size count input destination) := by
  constructor
  case count_eq => simp [start]
  case lane =>
    intro number lane hlane
    have hlt : number < count := by
      have := (List.getElem?_eq_some_iff.mp hlane).1
      simpa [start] using this
    rw [start, List.getElem?_map, List.getElem?_range hlt, Option.map_some,
      Option.some.injEq] at hlane
    subst hlane
    have hsize : (number + 1) * size - number * size = size := by
      rw [Nat.succ_mul, Nat.add_sub_cancel_left]
    refine ⟨by rw [hsize], by simp [Scratch.slice], fun i hfirst hlast => ?_⟩
    exact absurd hlast (Nat.not_lt.mpr hfirst)
  case known =>
    intro lowest hknown
    rcases hknown with h | h <;> cases h
  case length_eq => rfl
  case untouched => exact fun _ _ => rfl

/-- **One move.** A move keeps the invariant. -/
theorem Sound.move (hneeds : job.Needs depth) (hinput : input.length ≤ initial.length)
    (h : Sound job input initial depth size count s) (hmove : Moves job s t) :
    Sound job input initial depth size count t := by
  cases hmove with
  | stop place hlane hread hpassed =>
      obtain ⟨-, -, hdone⟩ := h.lane _ _ hlane
      refine ⟨by rw [List.length_set, h.count_eq], ?_, h.known, h.length_eq, h.untouched⟩
      intro number lane hnew
      rcases lane_of_set hnew with ⟨rfl, rfl⟩ | hold
      · rename_i read
        rcases read with _ | lowest
        · cases hpassed
        · exact ⟨_, lowest, hread, hpassed, hdone⟩
      · exact (h.lane number lane hold).mono (fun _ => id) (fun _ => id)
  | @write place index slots left x value rest read hlane hread hpassed helement =>
      obtain ⟨hrest, hslots, hdone⟩ := h.lane _ _ hlane
      obtain ⟨hx, hrest⟩ := next_of_rest hrest
      have hvalue : job.value x = .ok value ∧ left.size = slots.size := by
        rcases Job.element_cases hneeds hslots x with
          ⟨value', left', hvalue, helement', hsize⟩ | ⟨fault, -, helement'⟩
        · cases helement.symm.trans helement'
          exact ⟨hvalue, hsize⟩
        · cases helement.symm.trans helement'
      have hhas : job.HasValue input index value := ⟨x, hx, hvalue.1⟩
      have hindex : index < s.destination.length := by
        have := (List.getElem?_eq_some_iff.mp hx).1
        rw [h.length_eq]
        omega
      refine ⟨by rw [List.length_set, h.count_eq], ?_, h.known,
        by rw [List.length_set, h.length_eq], ?_⟩
      · intro number lane hnew
        rcases lane_of_set hnew with ⟨rfl, rfl⟩ | hold
        · refine ⟨hrest, hvalue.2.symm ▸ hslots, fun i hfirst hlast => ?_⟩
          rcases Nat.lt_succ_iff_lt_or_eq.mp hlast with hlt | rfl
          · exact hdone.set hhas hindex i hfirst hlt
          · exact ⟨value, hhas, List.getElem?_set_self hindex⟩
        · exact (h.lane number lane hold).mono (fun _ => id) fun _ hw => hw.set hhas hindex
      · intro i hi
        have hne : index ≠ i := by
          rintro rfl
          exact hi value hhas
        rw [List.getElem?_set_ne hne]
        exact h.untouched i hi
  | @fault place index slots x rest read fault hlane hread hpassed helement =>
      obtain ⟨hrest, hslots, hdone⟩ := h.lane _ _ hlane
      obtain ⟨hx, -⟩ := next_of_rest hrest
      have hfault : job.FaultsWith input ⟨index, fault.operation, fault.reason⟩ := by
        rcases Job.element_cases hneeds hslots x with
          ⟨value, left, -, helement', -⟩ | ⟨fault', hfault, helement'⟩
        · cases helement.symm.trans helement'
        · cases helement.symm.trans helement'
          exact ⟨x, hx, hfault⟩
      refine ⟨by rw [List.length_set, h.count_eq], ?_, ?_, h.length_eq, h.untouched⟩
      · intro number lane hnew
        rcases lane_of_set hnew with ⟨rfl, rfl⟩ | hold
        · exact ⟨hfault, hdone⟩
        · refine (h.lane number lane hold).mono (fun known hknown => ?_) (fun _ => id)
          exact .inr (List.mem_cons.mpr hknown)
      · intro lowest hknown
        rcases hknown with hlowest | hearlier
        · rcases hold : s.lowest with _ | known
          · rw [hold] at hlowest
            cases hlowest
            exact ⟨_, hfault, rfl⟩
          · rw [hold] at hlowest
            cases hlowest
            rcases Nat.le_total known index with hle | hle
            · rw [Nat.min_eq_left hle]
              exact h.known known (.inl hold.symm)
            · rw [Nat.min_eq_right hle]
              exact ⟨_, hfault, rfl⟩
        · exact h.known lowest (List.mem_cons.mp hearlier)

/-- **Whole schedules.** The invariant holds wherever lanes come to. -/
theorem Sound.reaches (hneeds : job.Needs depth) (hinput : input.length ≤ initial.length)
    (h : Sound job input initial depth size count s) (hreaches : Reaches job s t) :
    Sound job input initial depth size count t := by
  induction hreaches with
  | start => exact h
  | move _ hmove ih => exact ih.move hneeds hinput hmove

/-! ## Ends of schedules -/

/-- The elements that lanes may still take up. -/
def remaining (s : Parallel T) : Nat :=
  (s.lanes.map LaneState.remaining).sum

/-- A lane with less to do leaves less to do. -/
theorem sum_remaining_set {lanes : List (LaneState T)} {number : Nat} {lane changed : LaneState T}
    (hlane : lanes[number]? = some lane) (hless : changed.remaining < lane.remaining) :
    ((lanes.set number changed).map LaneState.remaining).sum <
      (lanes.map LaneState.remaining).sum := by
  induction lanes generalizing number with
  | nil => cases hlane
  | cons head tail ih =>
      cases number with
      | zero =>
          cases hlane
          simp only [List.set_cons_zero, List.map_cons, List.sum_cons]
          omega
      | succ number =>
          have := ih hlane
          simp only [List.set_cons_succ, List.map_cons, List.sum_cons]
          omega

/-- A move leaves less to do. -/
theorem remaining_of_moves (h : Moves job s t) : t.remaining < s.remaining := by
  cases h with
  | stop number hlane _ _ => exact sum_remaining_set hlane (Nat.succ_pos _)
  | write number hlane _ _ _ => exact sum_remaining_set hlane (Nat.lt_succ_self _)
  | fault number hlane _ _ _ => exact sum_remaining_set hlane (Nat.succ_pos _)

/-- Lanes that have not finished can move. -/
theorem exists_moves (job : Job T) (h : ¬s.Finished) : ∃ t, Moves job s t := by
  obtain ⟨lane, hmem, hlane⟩ : ∃ lane ∈ s.lanes, ¬lane.Finished := by
    simpa [Finished] using h
  obtain ⟨number, hnumber⟩ := List.mem_iff_getElem?.mp hmem
  match lane with
  | .stopped | .faulted _ => exact absurd trivial hlane
  | .running index slots [] => exact absurd rfl hlane
  | .running index slots (x :: rest) =>
      by_cases hpassed : Passed index s.lowest
      · exact ⟨_, .stop number hnumber (.inl rfl) hpassed⟩
      · rcases helement : job.element slots x with fault | ⟨value, left⟩
        · exact ⟨_, .fault number hnumber (.inl rfl) hpassed helement⟩
        · exact ⟨_, .write number hnumber (.inl rfl) hpassed helement⟩

/-- The lane of an element. -/
theorem Sound.exists_lane (h : Sound job input initial depth size count s) (hsize : 0 < size)
    (hcover : input.length ≤ count * size) {i : Nat} (hi : i < input.length) :
    ∃ first last lane, lane ∈ s.lanes ∧ LaneSound job input depth s first last lane ∧
      first ≤ i ∧ i < last := by
  have hlt : i / size < s.lanes.length := by
    rw [h.count_eq]
    exact (Nat.div_lt_iff_lt_mul hsize).mpr (Nat.lt_of_lt_of_le hi hcover)
  refine ⟨_, _, s.lanes[i / size], List.getElem_mem hlt,
    h.lane (i / size) _ (List.getElem?_eq_getElem hlt), Nat.div_mul_le_self i size, ?_⟩
  exact Nat.lt_mul_of_div_lt (Nat.lt_succ_self _) hsize

/-- A lane with nothing left to do has come to the end of its block or of all elements. -/
theorem lt_of_rest_nil {index last i : Nat} (h : [] = (input.drop index).take (last - index))
    (hlast : i < last) (hi : i < input.length) : i < index := by
  rw [eq_comm, List.take_eq_nil_iff, List.drop_eq_nil_iff] at h
  omega

/-- Every element before all faults is written when lanes have finished. -/
theorem Sound.written (h : Sound job input initial depth size count s) (hfinished : s.Finished)
    (hsize : 0 < size) (hcover : input.length ≤ count * size) {i : Nat} (hi : i < input.length)
    (hbefore : ∀ fault, job.FaultsWith input fault → i < fault.index) :
    ∃ value, job.HasValue input i value ∧ s.destination[i]? = some value := by
  obtain ⟨first, last, lane, hmem, hlane, hfirst, hlast⟩ := h.exists_lane hsize hcover hi
  have hdone := hfinished lane hmem
  match lane with
  | .running index slots rest =>
      obtain ⟨hrest, -, hwritten⟩ := hlane
      rw [show rest = [] from hdone] at hrest
      exact hwritten i hfirst (lt_of_rest_nil hrest hlast hi)
  | .stopped =>
      obtain ⟨index, lowest, hknown, hlt, hwritten⟩ := hlane
      obtain ⟨fault, hfault, rfl⟩ := h.known lowest hknown
      have := hbefore fault hfault
      exact hwritten i hfirst (by omega)
  | .faulted fault => exact hlane.2 i hfirst (hbefore fault hlane.1)

/-- The lane of the first element that faults ends with its fault. -/
theorem Sound.faulted (h : Sound job input initial depth size count s) (hfinished : s.Finished)
    (hsize : 0 < size) (hcover : input.length ≤ count * size) {fault : ElementFault}
    (hfault : job.FaultsWith input fault)
    (hfirst : ∀ other, job.FaultsWith input other → fault.index ≤ other.index) :
    .faulted fault ∈ s.lanes := by
  obtain ⟨x, hx, -⟩ := id hfault
  have hi := (List.getElem?_eq_some_iff.mp hx).1
  obtain ⟨first, last, lane, hmem, hlane, hstart, hlast⟩ := h.exists_lane hsize hcover hi
  have hdone := hfinished lane hmem
  -- A lane that has passed the element has written its value, which it does not have.
  have hunwritten : ∀ index, Written job input s.destination first index → index ≤ fault.index := by
    intro index hwritten
    by_cases hlt : fault.index < index
    · obtain ⟨value, hvalue, -⟩ := hwritten fault.index hstart hlt
      exact absurd hvalue hfault.not_hasValue
    · omega
  match lane with
  | .running index slots rest =>
      obtain ⟨hrest, -, hwritten⟩ := hlane
      rw [show rest = [] from hdone] at hrest
      have hlt := lt_of_rest_nil hrest hlast hi
      exact absurd (hunwritten index hwritten) (Nat.not_le.mpr hlt)
  | .stopped =>
      obtain ⟨index, lowest, hknown, hlt, hwritten⟩ := hlane
      obtain ⟨other, hother, rfl⟩ := h.known lowest hknown
      have hle := hunwritten index hwritten
      have := hfirst other hother
      omega
  | .faulted other =>
      obtain ⟨hother, hwritten⟩ := hlane
      have hle := hunwritten other.index hwritten
      have := hfirst other hother
      rw [← hfault.unique hother (by omega)]
      exact hmem

/-- Of some faults there is a first one. -/
theorem exists_first? {faults : List ElementFault} (h : faults ≠ []) :
    ∃ fault ∈ faults, first? faults = some fault ∧
      ∀ other ∈ faults, fault.index ≤ other.index := by
  induction faults with
  | nil => exact absurd rfl h
  | cons head tail ih =>
      rw [first?]
      by_cases htail : tail = []
      · subst htail
        exact ⟨head, List.mem_cons_self .., rfl, by simp⟩
      · obtain ⟨fault, hmem, hfirst, hle⟩ := ih htail
        rw [hfirst]
        dsimp only
        by_cases hhead : head.index ≤ fault.index
        · rw [if_pos hhead]
          refine ⟨head, List.mem_cons_self .., rfl, List.forall_mem_cons.mpr ⟨Nat.le_refl _, ?_⟩⟩
          exact fun other hother => Nat.le_trans hhead (hle other hother)
        · rw [if_neg hhead]
          exact ⟨fault, List.mem_cons_of_mem _ hmem, rfl,
            List.forall_mem_cons.mpr ⟨by omega, hle⟩⟩

/-- The faults of lanes are those of their elements. -/
theorem Sound.faultsWith (h : Sound job input initial depth size count s) {fault : ElementFault}
    (hmem : fault ∈ s.lanes.filterMap LaneState.fault?) : job.FaultsWith input fault := by
  obtain ⟨lane, hlane, hfault⟩ := List.mem_filterMap.mp hmem
  obtain ⟨number, hnumber⟩ := List.mem_iff_getElem?.mp hlane
  have hsound := h.lane number lane hnumber
  match lane with
  | .faulted other =>
      cases hfault
      exact hsound.1
  | .running .. | .stopped => cases hfault

/-- The outcome of lanes that have finished is the first fault of all elements. -/
theorem Sound.first?_eq (h : Sound job input initial depth size count s) (hfinished : s.Finished)
    (hsize : 0 < size) (hcover : input.length ≤ count * size) {fault : ElementFault}
    (hfault : job.FaultsWith input fault)
    (hfirst : ∀ other, job.FaultsWith input other → fault.index ≤ other.index) :
    first? (s.lanes.filterMap LaneState.fault?) = some fault := by
  have hmem : fault ∈ s.lanes.filterMap LaneState.fault? :=
    List.mem_filterMap.mpr ⟨_, h.faulted hfinished hsize hcover hfault hfirst, rfl⟩
  obtain ⟨found, hfound, hsome, hle⟩ := exists_first? (List.ne_nil_of_mem hmem)
  have hindex := hfirst found (h.faultsWith hfound)
  rw [hsome, hfault.unique (h.faultsWith hfound) (Nat.le_antisymm (hle fault hmem) hindex)]

end Parallel

/-! ## The same outcome -/

namespace Job

variable {job : Job T} {input : List T.Value}

/-- The fault of the plain job is the first one. -/
theorem first_of_plain {fault : ElementFault} (h : (job.plain 0 input).2 = some fault) :
    fault.index = (job.plain 0 input).1.length ∧ job.FaultsWith input fault ∧
      ∀ other, job.FaultsWith input other → fault.index ≤ other.index := by
  obtain ⟨hindex, hfault⟩ := fault_of_plain h
  rw [Nat.zero_add] at hindex
  rw [← hindex] at hfault
  refine ⟨hindex, hfault, fun other hother => ?_⟩
  by_cases hlt : other.index < (job.plain 0 input).1.length
  · exact absurd (value_of_plain (List.getElem?_eq_getElem hlt)) hother.not_hasValue
  · omega

/-- Without a fault of the plain job there is none. -/
theorem not_faultsWith_of_plain (h : (job.plain 0 input).2 = none) (fault : ElementFault) :
    ¬job.FaultsWith input fault := by
  intro hfault
  obtain ⟨x, hx, -⟩ := id hfault
  have hlt := (List.getElem?_eq_some_iff.mp hx).1
  rw [← length_plain_of_none h] at hlt
  exact hfault.not_hasValue (value_of_plain (List.getElem?_eq_getElem hlt))

end Job

namespace Parallel

variable {job : Job T} {input initial : List T.Value} {depth size count : Nat} {s : Parallel T}

/-- Where all elements up to a number are before all faults, lanes leave the plain values. -/
theorem Sound.getElem?_eq_plain (h : Sound job input initial depth size count s)
    (hfinished : s.Finished) (hsize : 0 < size) (hcover : input.length ≤ count * size) {i : Nat}
    (hi : i < (job.plain 0 input).1.length)
    (hbefore : ∀ fault, job.FaultsWith input fault → i < fault.index) :
    s.destination[i]? = some (job.plain 0 input).1[i] := by
  have hplain := Job.value_of_plain (List.getElem?_eq_getElem hi)
  obtain ⟨x, hx, -⟩ := id hplain
  obtain ⟨value, hvalue, hwritten⟩ :=
    h.written hfinished hsize hcover (List.getElem?_eq_some_iff.mp hx).1 hbefore
  rw [hwritten, Job.HasValue.unique hvalue hplain]

/-- Elements that are not processed are untouched. -/
theorem Sound.getElem?_of_length_le (h : Sound job input initial depth size count s) {i : Nat}
    (hi : input.length ≤ i) : s.destination[i]? = initial[i]? := by
  refine h.untouched i ?_
  rintro value ⟨x, hx, -⟩
  have := (List.getElem?_eq_some_iff.mp hx).1
  omega

/-- Lanes without a fault leave what the plain job gives. -/
theorem Sound.outcome_of_none (h : Sound job input initial depth size count s)
    (hfinished : s.Finished) (hsize : 0 < size) (hcover : input.length ≤ count * size)
    (hnone : (job.plain 0 input).2 = none) :
    s.outcome = ⟨(job.plain 0 input).1 ++ initial.drop (job.plain 0 input).1.length, none⟩ := by
  have hlength := Job.length_plain_of_none hnone
  have hfaults : s.lanes.filterMap LaneState.fault? = [] := by
    refine List.eq_nil_iff_forall_not_mem.mpr fun fault hmem => ?_
    exact Job.not_faultsWith_of_plain hnone fault (h.faultsWith hmem)
  have hdestination : s.destination =
      (job.plain 0 input).1 ++ initial.drop (job.plain 0 input).1.length := by
    refine List.ext_getElem? fun i => ?_
    by_cases hi : i < (job.plain 0 input).1.length
    · rw [List.getElem?_append_left hi, List.getElem?_eq_getElem hi]
      exact h.getElem?_eq_plain hfinished hsize hcover hi fun fault hfault =>
        absurd hfault (Job.not_faultsWith_of_plain hnone fault)
    · rw [List.getElem?_append_right (by omega), List.getElem?_drop,
        h.getElem?_of_length_le (by omega)]
      congr 1
      omega
  rw [outcome, hfaults, hdestination]
  rfl

/-- Lanes with a fault end with the first one, and leave the plain values before it. -/
theorem Sound.outcome_of_some (h : Sound job input initial depth size count s)
    (hfinished : s.Finished) (hsize : 0 < size) (hcover : input.length ≤ count * size)
    {fault : ElementFault} (hsome : (job.plain 0 input).2 = some fault) :
    s.outcome.error = some (.arithmeticFault fault.index fault.operation fault.reason) ∧
      (∀ i < fault.index, s.outcome.destination[i]? =
        ((job.plain 0 input).1 ++ initial.drop (job.plain 0 input).1.length)[i]?) ∧
      s.outcome.destination[fault.index]? = initial[fault.index]? := by
  obtain ⟨hindex, hfault, hfirst⟩ := Job.first_of_plain hsome
  refine ⟨?_, fun i hi => ?_, ?_⟩
  · rw [outcome, h.first?_eq hfinished hsize hcover hfault hfirst]
    rfl
  · have hlt : i < (job.plain 0 input).1.length := hindex ▸ hi
    rw [List.getElem?_append_left hlt, List.getElem?_eq_getElem hlt]
    exact h.getElem?_eq_plain hfinished hsize hcover hlt fun other hother =>
      Nat.lt_of_lt_of_le hi (hfirst other hother)
  · exact h.untouched fault.index fun value => hfault.not_hasValue

end Parallel

/-- **Schedules do not matter.** Lanes in turn do what one lane does. Lanes at the same time can
move until they have finished, with less to do after every move, and then, however their moves
followed each other, the error is that of one lane. Without an error they leave the same
destination. With a fault they leave the same values before it, and at the faulting element what was
there. Elements past the processed ones are untouched. -/
theorem Bytecode.parallel_eq_single {b : Bytecode T} {parameters : List T.Value}
    {memory : Scratch T} {source destination : List T.Value} {lanes : Nat} {steps : List (Step T)}
    {depth : Nat}
    (h : b.prepare parameters memory source destination lanes = .ok (steps, depth))
    (checked : Bool) (limit : Nat) :
    let input := processed limit source
    let size := max 1 ((input.length + lanes - 1) / lanes)
    let count := min ((input.length + size - 1) / size) lanes
    let job : Job T := ⟨steps, parameters, checked⟩
    let start := Parallel.start memory depth size count input destination
    let single := b.execute parameters memory source destination ⟨1, checked, limit⟩
    b.execute parameters memory source destination ⟨lanes, checked, limit⟩ = single ∧
    ∀ s, Parallel.Reaches job start s →
      (s.Finished ∨ ∃ t, Parallel.Moves job s t) ∧
      (∀ t, Parallel.Moves job s t → t.remaining < s.remaining) ∧
      (s.Finished →
        s.outcome.error = single.error ∧
        (single.error = none → s.outcome.destination = single.destination) ∧
        (∀ index op reason, single.error = some (.arithmeticFault index op reason) →
          (∀ i < index, s.outcome.destination[i]? = single.destination[i]?) ∧
          s.outcome.destination[index]? = destination[index]?) ∧
        ∀ i, input.length ≤ i → s.outcome.destination[i]? = destination[i]?) := by
  intro input size count job start single
  have hprepared := prepare_eq_ok_iff.mp h
  have hsingle : single = ⟨(job.plain 0 input).1 ++ destination.drop (job.plain 0 input).1.length,
      (job.plain 0 input).2.map fun f => .arithmeticFault f.index f.operation f.reason⟩ :=
    execute_eq_plain hprepared.single
  rw [hsingle]
  refine ⟨execute_eq_plain hprepared, fun s hreaches => ?_⟩
  have hsize : 0 < size := Nat.lt_of_lt_of_le Nat.one_pos (Nat.le_max_left _ _)
  have hcover : input.length ≤ count * size :=
    le_blocks_mul_size input.length hprepared.lanes_pos
  have hinput : input.length ≤ destination.length := by
    rw [← hprepared.arrays]
    exact length_processed_le limit source
  have hsound : Parallel.Sound job input destination depth size count s :=
    (Parallel.sound_start job memory depth size count input destination).reaches
      hprepared.depth_eq hinput hreaches
  refine ⟨?_, fun t => Parallel.remaining_of_moves, fun hfinished => ?_⟩
  · by_cases hfinished : s.Finished
    · exact .inl hfinished
    · exact .inr (Parallel.exists_moves job hfinished)
  refine ⟨?_, ?_, ?_, fun i hi => hsound.getElem?_of_length_le hi⟩
  all_goals rcases hfault : (job.plain 0 input).2 with _ | fault
  · rw [hsound.outcome_of_none hfinished hsize hcover hfault]
    rfl
  · exact (hsound.outcome_of_some hfinished hsize hcover hfault).1
  · intro _
    rw [hsound.outcome_of_none hfinished hsize hcover hfault]
  · exact nofun
  · exact nofun
  · intro index op reason herror
    cases herror
    exact (hsound.outcome_of_some hfinished hsize hcover hfault).2

/-- Bytecode of `100 / x` over bytes. -/
def Bytecode.quotient : Bytecode (.int ⟨true, .w8⟩) :=
  ⟨[0, 2, 10], [0, 0, 0], [0#8, 100#8, 0#8]⟩

/-- The job of `100 / x` over bytes. -/
def Job.quotient : Job (.int ⟨true, .w8⟩) :=
  ⟨[.element, .constant 100#8, .binary .div], [], true⟩

/-- Three lanes after the element 1 faulted first, the element 2 was written because the lowest
number was read as it was before, and then the element 0 faulted. -/
def Parallel.afterStaleRead : Parallel (.int ⟨true, .w8⟩) :=
  ⟨[.faulted ⟨0, .div, .divisionByZero⟩, .faulted ⟨1, .div, .divisionByZero⟩,
    .running 3 #[20#8, 100#8, 0#8, 0#8] []], [7#8, 7#8, 20#8], some 0, [some 1, none]⟩

/-- A lane writes past the first fault; the outcome is the first fault all the same. -/
theorem Bytecode.parallel_eq_single_staleRead :
    Parallel.Reaches .quotient
        (.start (.zeros _ 12) 4 1 3 [0#8, 0#8, 5#8] [7#8, 7#8, 7#8]) .afterStaleRead ∧
      Parallel.afterStaleRead.Finished ∧
      Parallel.afterStaleRead.outcome.error =
        (quotient.execute [] (.zeros _ 12) [0#8, 0#8, 5#8] [7#8, 7#8, 7#8] ⟨1, true, 0⟩).error ∧
      Parallel.afterStaleRead.outcome.error = some (.arithmeticFault 0 .div .divisionByZero) := by
  have hprepare : quotient.prepare [] (.zeros _ 12) [0#8, 0#8, 5#8] [7#8, 7#8, 7#8] 3 =
      .ok (Job.quotient.steps, 4) := rfl
  have hwrite : Job.quotient.element ((Scratch.zeros _ 12).slice 4 2) 5#8 =
      .ok (20#8, #[20#8, 100#8, 0#8, 0#8]) := by rfl
  have hfault : ∀ number, Job.quotient.element ((Scratch.zeros _ 12).slice 4 number) 0#8 =
      .error ⟨.div, .divisionByZero⟩ := fun number => by rfl
  have hone : Parallel.Reaches .quotient
      (.start (.zeros _ 12) 4 1 3 [0#8, 0#8, 5#8] [7#8, 7#8, 7#8]) _ :=
    .move .start (.fault 1 rfl (.inl rfl) id (hfault 1))
  have htwo := hone.move (.write 2 rfl (.inr (List.mem_singleton_self _)) id hwrite)
  have hreaches := htwo.move (.fault 0 rfl (.inl rfl) (Nat.not_lt_zero _) (hfault 0))
  have hfinished : Parallel.afterStaleRead.Finished := by
    simp [Parallel.Finished, Parallel.afterStaleRead, LaneState.Finished]
  obtain ⟨-, hall⟩ := parallel_eq_single hprepare true 0
  obtain ⟨-, -, hend⟩ := hall _ hreaches
  exact ⟨hreaches, hfinished, (hend hfinished).1, rfl⟩

end Elementwise
