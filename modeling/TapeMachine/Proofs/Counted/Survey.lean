/-
**Which cells a loop body assigns, and in which order.**

`Loop.survey` walks over the body of a loop in the text, like the pass that fuses it, and lists the
assignments to cells, the latest first, with their values and whether they are inside of a nested
region.

* `Loop.Separate`: no cell is assigned both inside of a nested region and outside of all;
* `Loop.Lasting`: what nested regions assign to a cell, behind its last assignment outside of them, is
  the value of that assignment;
* `lasting_of_separate`: the first is a special case of the second;
* `Closed.lasts_of_lasting`: the second says of the code what makes a counted loop settle.
-/

import TapeMachine.Proofs.Code.Closed
import TapeMachine.Proofs.Counted.Settle

namespace TapeMachine

namespace Loop

/-- A cell, by its distance from the counter of the loop, is made a value. -/
structure Assignment where
  cell : Int
  value : UInt8
  /-- It happens inside of a nested region. -/
  nested : Bool
  deriving DecidableEq

/-- A loop body as far as it has been walked over. -/
structure Survey where
  current : Int := 0
  depth : Nat := 0
  /-- The latest comes first. -/
  assignments : List Assignment := []

namespace Survey

/-- One more instruction of the body. -/
def next (survey : Survey) (instruction : Instruction) : Survey :=
  match instruction.opcode with
  | .move => { survey with current := survey.current + instruction.value }
  | .set =>
    let assignment : Assignment :=
      ⟨survey.current, UInt8.ofInt instruction.value, survey.depth ≠ 0⟩
    { survey with assignments := assignment :: survey.assignments }
  | .reset =>
    let cleared := instruction.distances.map fun distance : Int =>
      (⟨survey.current + distance, 0, survey.depth ≠ 0⟩ : Assignment)
    { survey with
      current := survey.current + instruction.shift
      assignments := cleared ++ survey.assignments }
  | .push | .pushFast => { survey with depth := survey.depth + 1 }
  | .pop | .popFast => { survey with depth := survey.depth - 1 }
  | _ => survey

/-- The assignments to one cell. -/
def ofCell (survey : Survey) (cell : Int) : List Assignment :=
  survey.assignments.filter (·.cell = cell)

end Survey

/-- The survey of the loop that begins at `start` and ends with the text. -/
def survey (text : Text) (start : Nat) : Survey :=
  text.foldl Survey.next {} (start + 1) (text.size - 1)

/-- No cell is assigned both inside of a nested region and outside of all. -/
def Separate (text : Text) (start : Nat) : Prop :=
  ∀ one ∈ (survey text start).assignments, ∀ other ∈ (survey text start).assignments,
    one.cell = other.cell → one.nested = other.nested

/-- What nested regions assign to a cell, behind its last assignment outside of them, is the value of
that assignment. -/
def Lasting (text : Text) (start : Nat) : Prop :=
  ∀ assignment ∈ (survey text start).assignments,
    ∀ outer ∈ ((survey text start).ofCell assignment.cell).find? (!·.nested),
      ∀ later ∈ ((survey text start).ofCell assignment.cell).takeWhile (·.nested),
        later.value = outer.value

instance (text : Text) (start : Nat) : Decidable (Separate text start) :=
  inferInstanceAs (Decidable (∀ one ∈ _, ∀ other ∈ _, _))

instance (text : Text) (start : Nat) : Decidable (Lasting text start) :=
  inferInstanceAs (Decidable (∀ assignment ∈ _, ∀ outer ∈ _, ∀ later ∈ _, _))

theorem lasting_of_separate {text : Text} {start : Nat} (separate : Separate text start) :
    Lasting text start := by
  intro assignment member outer found later late
  rw [Option.mem_def] at found
  have outerMember := List.mem_of_find?_eq_some found
  have outside := List.find?_some found
  have laterMember := (List.takeWhile_sublist _).subset late
  have nested := List.all_eq_true.mp List.all_takeWhile later late
  simp only [Survey.ofCell, List.mem_filter, decide_eq_true_eq] at outerMember laterMember
  have same := separate later laterMember.1 outer outerMember.1
    (laterMember.2.trans outerMember.2.symm)
  simp [← same, nested] at outside

end Loop

/-! ### The survey of a code -/

/-- The assignments of an instruction with the head on some cell. -/
def Instruction.events (instruction : Instruction) (here : Int) (nested : Bool) :
    List Loop.Assignment :=
  match instruction.opcode with
  | .set => [⟨here, UInt8.ofInt instruction.value, nested⟩]
  | .reset => instruction.distances.map fun distance : Int => ⟨here + distance, 0, nested⟩
  | _ => []

/-- The assignments of a code, the latest first. -/
def Code.events : Code → Int → Bool → List Loop.Assignment
  | empty, _, _ => []
  | plain before instruction, origin, nested =>
    instruction.events (origin + before.shift) nested ++ before.events origin nested
  | loop before _, origin, nested => before.events origin nested
  | region before _ body, origin, nested =>
    body.events (origin + before.shift) true ++ before.events origin nested

theorem Instruction.mem_events {instruction : Instruction} {here cell : Int} {nested : Bool}
    {value : UInt8} (assigns : instruction.Assigns cell value) :
    (⟨here + cell, value, nested⟩ : Loop.Assignment) ∈ instruction.events here nested := by
  rcases assigns with ⟨opcode, rfl, rfl⟩ | ⟨opcode, cleared, rfl⟩
  · simp [events, opcode]
  · simp only [events, opcode, List.mem_map]
    exact ⟨cell, cleared, rfl⟩

theorem Instruction.eq_of_mem_events {instruction : Instruction} {here cell : Int} {nested : Bool}
    {assignment : Loop.Assignment} (member : assignment ∈ instruction.events here nested)
    (same : assignment.cell = here + cell) :
    instruction.constant? cell = some assignment.value ∧ assignment.nested = nested := by
  have assigns : instruction.Assigns cell assignment.value ∧ assignment.nested = nested := by
    rcases instruction with ⟨opcode, amount, offset, link⟩
    cases opcode with
    | set =>
      obtain rfl := List.mem_singleton.mp member
      exact ⟨.inl ⟨rfl, by simp only at same; omega, rfl⟩, rfl⟩
    | reset =>
      obtain ⟨distance, cleared, rfl⟩ := List.mem_map.mp member
      obtain rfl : distance = cell := by simp only at same; omega
      exact ⟨.inr ⟨rfl, cleared, rfl⟩, rfl⟩
    | _ => cases member
  exact ⟨constant?_of_assigns assigns.1, assigns.2⟩

/-- What is not made a constant has no assignments, -/
theorem Instruction.filter_events_of_none {instruction : Instruction} {distance : Int}
    (constant : instruction.constant? distance = none) (here : Int) (nested : Bool) :
    (instruction.events here nested).filter (·.cell = here + distance) = [] := by
  rw [List.filter_eq_nil_iff]
  intro assignment member same
  rw [decide_eq_true_eq] at same
  rw [(eq_of_mem_events member same).1] at constant
  cases constant

/-- and the assignments of what is made one are to the constant. -/
theorem Instruction.filter_events_of_some {instruction : Instruction} {distance : Int} {value : UInt8}
    (constant : instruction.constant? distance = some value) (here : Int) (nested : Bool) :
    ∃ first rest, (instruction.events here nested).filter (·.cell = here + distance) = first :: rest ∧
      first.value = value ∧ first.nested = nested := by
  have member : (⟨here + distance, value, nested⟩ : Loop.Assignment) ∈
      (instruction.events here nested).filter (·.cell = here + distance) := by
    rw [List.mem_filter]
    exact ⟨mem_events (assigns_of_constant? constant), decide_eq_true rfl⟩
  cases listed : (instruction.events here nested).filter (·.cell = here + distance) with
  | nil =>
    rw [listed] at member
    cases member
  | cons first rest =>
    have early : first ∈ (instruction.events here nested).filter (·.cell = here + distance) :=
      listed ▸ List.mem_cons_self ..
    rw [List.mem_filter, decide_eq_true_eq] at early
    obtain ⟨amount, inside⟩ := eq_of_mem_events early.1 early.2
    rw [constant, Option.some.injEq] at amount
    exact ⟨first, rest, rfl, amount.symm, inside⟩

theorem Instruction.next_survey {inner : Bool} {instruction : Instruction}
    (straight : instruction.opcode.IsStraight inner) (survey : Loop.Survey) :
    survey.next instruction =
      { survey with
        current := survey.current + instruction.shift
        assignments := instruction.events survey.current (survey.depth ≠ 0) ++
          survey.assignments } := by
  rcases instruction with ⟨opcode, amount, offset, link⟩
  cases opcode with
  | move | reset => rfl
  | add | multiply | store | set => simp [Loop.Survey.next, shift, events]
  | _ => cases inner <;> simp [Opcode.IsStraight] at straight

theorem Code.foldl_survey {inner : Bool} {code : Code} (straight : code.Straight inner) (base : Nat)
    (survey : Loop.Survey) :
    (code.emit true base).foldl Loop.Survey.next survey =
      { survey with
        current := survey.current + code.shift
        assignments := code.events survey.current (survey.depth ≠ 0) ++ survey.assignments } := by
  induction code generalizing inner base survey with
  | empty => simp [emit, events, shift]
  | plain before instruction ih =>
    rw [emit, List.foldl_append, ih straight.1]
    simp only [List.foldl_cons, List.foldl_nil, Instruction.next_survey straight.2.1, shift, events,
      List.append_assoc, Int.add_assoc]
  | loop before body _ _ => exact straight.elim
  | region before fast body ihBefore ihBody =>
    have starts (survey : Loop.Survey) (link : Nat) : survey.next (regionStart fast link) =
        { survey with depth := survey.depth + 1 } := by cases fast <;> rfl
    have ending (survey : Loop.Survey) (link : Nat) :
        (regionEnd true fast link).foldl Loop.Survey.next survey =
          { survey with depth := survey.depth - 1 } := by cases fast <;> rfl
    rw [emit, List.foldl_append, ihBefore straight.1, List.foldl_cons, List.foldl_append, starts,
      ihBody straight.2.2.2.1, ending]
    simp [shift, events, Int.add_assoc]

namespace Code

theorem nested_of_mem_events {code : Code} (straight : code.Straight true) {origin : Int}
    {assignment : Loop.Assignment} (member : assignment ∈ code.events origin true) :
    assignment.nested = true := by
  induction code generalizing origin with
  | empty => cases member
  | plain before instruction ih =>
    rcases List.mem_append.mp member with late | early
    · have place : assignment.cell =
          origin + before.shift + (assignment.cell - (origin + before.shift)) := by omega
      exact (Instruction.eq_of_mem_events late place).2
    · exact ih straight.1 early
  | loop before body _ _ => exact straight.elim
  | region before fast body ihBefore ihBody =>
    rcases List.mem_append.mp member with late | early
    · exact ihBody straight.2.2.2.1 late
    · exact ihBefore straight.1 early

theorem mem_events {code : Code} (straight : code.Straight true) {origin cell : Int} {value : UInt8}
    (assigns : code.Assigns cell value) :
    (⟨origin + cell, value, true⟩ : Loop.Assignment) ∈ code.events origin true := by
  induction code generalizing origin cell with
  | empty => exact assigns.elim
  | plain before instruction ih =>
    rcases assigns with early | late
    · exact List.mem_append_right _ (ih straight.1 early)
    · have place : origin + before.shift + (cell - before.shift) = origin + cell := by omega
      exact List.mem_append_left _ (place ▸ Instruction.mem_events late)
  | loop before body _ _ => exact straight.elim
  | region before fast body ihBefore ihBody =>
    rcases assigns with early | late
    · exact List.mem_append_right _ (ihBefore straight.1 early)
    · have place : origin + before.shift + (cell - before.shift) = origin + cell := by omega
      exact List.mem_append_left _ (place ▸ ihBody straight.2.2.2.1 late)

/-- The assignments to one cell. -/
def eventsTo (code : Code) (cell : Int) : List Loop.Assignment :=
  (code.events 0 false).filter (·.cell = cell)

/-- The last assignment that is not nested gives the last plain constant, and if those behind it agree
with it, the constant lasts. -/
theorem lasts_of_eventsTo {code : Code} (straight : code.Straight false) (cell : Int) :
    ((code.eventsTo cell).find? (!·.nested)).map (·.value) = code.last cell ∧
      ((∀ outer ∈ (code.eventsTo cell).find? (!·.nested),
        ∀ later ∈ (code.eventsTo cell).takeWhile (·.nested), later.value = outer.value) →
          code.Lasts cell) := by
  induction code with
  | empty => exact ⟨rfl, fun _ => trivial⟩
  | plain before instruction ih =>
    have parts : (before.plain instruction).eventsTo cell =
        (instruction.events (0 + before.shift) false).filter (·.cell = cell) ++
          before.eventsTo cell := List.filter_append ..
    have place : 0 + before.shift + (cell - before.shift) = cell := by omega
    cases constant : instruction.constant? (cell - before.shift) with
    | none =>
      have nothing := Instruction.filter_events_of_none constant (0 + before.shift) false
      rw [place] at nothing
      rw [parts, nothing, List.nil_append, last, constant, Option.none_or]
      exact ⟨(ih straight.1).1, fun lasts => .inr ((ih straight.1).2 lasts)⟩
    | some value =>
      refine ⟨?_, fun _ => .inl (by rw [constant]; rfl)⟩
      obtain ⟨first, rest, listed, amount, outside⟩ :=
        Instruction.filter_events_of_some constant (0 + before.shift) false
      rw [place] at listed
      rw [parts, last, constant, Option.some_or, listed, List.cons_append,
        List.find?_cons_of_pos (by simp [outside])]
      exact congrArg some amount
  | loop before body _ _ => exact straight.elim
  | region before fast body ihBefore _ =>
    obtain ⟨early, -, -, inside, -, -⟩ := straight
    obtain ⟨found, lasts⟩ := ihBefore early
    have parts : (before.region fast body).eventsTo cell =
        (body.events (0 + before.shift) true).filter (·.cell = cell) ++ before.eventsTo cell :=
      List.filter_append ..
    have nested : ∀ assignment ∈ (body.events (0 + before.shift) true).filter (·.cell = cell),
        assignment.nested = true := fun assignment member =>
      nested_of_mem_events inside (List.mem_filter.mp member).1
    have same : ((before.region fast body).eventsTo cell).find? (!·.nested) =
        (before.eventsTo cell).find? (!·.nested) := by
      rw [parts, List.find?_append, List.find?_eq_none.mpr fun assignment member => by
        simp [nested assignment member], Option.none_or]
    have later : ((before.region fast body).eventsTo cell).takeWhile (·.nested) =
        (body.events (0 + before.shift) true).filter (·.cell = cell) ++
          (before.eventsTo cell).takeWhile (·.nested) := by
      rw [parts, List.takeWhile_append_of_pos nested]
    rw [same, later]
    refine ⟨found, fun agree => ⟨lasts fun outer last assignment member =>
      agree outer last assignment (List.mem_append_right _ member), ?_⟩⟩
    intro value last other assigns
    rw [← found, Option.map_eq_some_iff] at last
    obtain ⟨outer, last, rfl⟩ := last
    have place : 0 + before.shift + (cell - before.shift) = cell := by omega
    have member : (⟨0 + before.shift + (cell - before.shift), other, true⟩ : Loop.Assignment) ∈
        body.events (0 + before.shift) true := mem_events inside assigns
    rw [place] at member
    exact agree outer last _ (List.mem_append_left _
      (List.mem_filter.mpr ⟨member, decide_eq_true rfl⟩))

end Code

/-- If what the text assigns lasts, the body keeps its constants. -/
theorem Closed.lasts_of_lasting {outers : List Code} {outer body : Code} {text : Text} {start : Nat}
    (closed : Closed outers outer body text start) (straight : body.Straight false)
    (lasting : Loop.Lasting text start) (cell : Int) : body.Lasts cell := by
  have assignments : (Loop.survey text start).assignments = body.events 0 false := by
    have walked : Loop.survey text start =
        (body.emit true (start + 1)).foldl Loop.Survey.next {} := by
      rw [Loop.survey, Array.foldl_eq_foldl_extract, ← Array.foldl_toList, closed.toList_extract]
    rw [walked, Code.foldl_survey straight]
    exact List.append_nil _
  have same (cell : Int) : (Loop.survey text start).ofCell cell = body.eventsTo cell := by
    rw [Loop.Survey.ofCell, assignments]
    rfl
  refine (Code.lasts_of_eventsTo straight cell).2 fun outer found later late => ?_
  have member := (List.takeWhile_sublist _).subset late
  simp only [Code.eventsTo, List.mem_filter, decide_eq_true_eq] at member
  have agree := lasting later (assignments ▸ member.1) outer
  rw [member.2, same] at agree
  exact agree found later late

end TapeMachine
