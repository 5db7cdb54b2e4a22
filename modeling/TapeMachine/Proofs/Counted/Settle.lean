/-
**What a second turn of a counted loop changes.**

If a loop body can be repeated, and if every cell that is assigned keeps its last plain constant, then
one turn settles the cells that the body works on: all outer counters are zero and stay so, so that no
region is entered any more, and every plain assignment writes what is already there.

* `Code.Repeats`: how the cells may overlap that a body adds to, counts down, adds products to and
  assigns;
* `Code.Lasts`: what a region assigns to a cell behind its last plain assignment is the same value;
* `Code.settled_sweep`: a turn settles the cells, and `Code.cells_sweep_of_settled`: behind it, a turn
  changes none of them.
-/

import TapeMachine.Proofs.Code.Sweep

namespace TapeMachine

/-! ### Plain assignments -/

/-- The value that the instruction makes the cell at a distance, if it does. -/
def Instruction.constant? (instruction : Instruction) (cell : Int) : Option UInt8 :=
  if instruction.opcode = .set ∧ cell = 0 then some (UInt8.ofInt instruction.value)
  else if instruction.opcode = .reset ∧ cell ∈ instruction.distances then some 0
  else none

theorem Instruction.assigns_of_constant? {instruction : Instruction} {cell : Int} {value : UInt8}
    (found : instruction.constant? cell = some value) : instruction.Assigns cell value := by
  unfold constant? at found
  split at found
  · next set => exact .inl ⟨set.1, set.2, (Option.some.inj found).symm⟩
  · split at found
    · next reset => exact .inr ⟨reset.1, reset.2, (Option.some.inj found).symm⟩
    · cases found

theorem Instruction.constant?_of_assigns {instruction : Instruction} {cell : Int} {value : UInt8}
    (assigns : instruction.Assigns cell value) : instruction.constant? cell = some value := by
  unfold constant?
  rcases assigns with ⟨opcode, here, rfl⟩ | ⟨opcode, cleared, rfl⟩
  · rw [if_pos ⟨opcode, here⟩]
  · rw [if_neg (by simp [opcode]), if_pos ⟨opcode, cleared⟩]

theorem Instruction.cells_sweep_of_constant? {instruction : Instruction} {register value : UInt8}
    {sight : Sight} {cell : Int}
    (found : instruction.constant? (cell - sight.index) = some value) :
    (instruction.sweep register sight).cells cell = value := by
  rcases assigns_of_constant? found with ⟨opcode, here, rfl⟩ | ⟨opcode, cleared, rfl⟩
  · have under : cell = sight.index := by omega
    simp only [sweep, opcode, Sight.tick, Sight.write]
    rw [under, Sight.put_self]
  · simp only [sweep, opcode]
    rw [if_pos cleared]

theorem Instruction.cells_sweep_store {instruction : Instruction}
    (store : instruction.opcode = .store) (register : UInt8) (sight : Sight) :
    (instruction.sweep register sight).cells sight.index = 0 := by
  simp only [sweep, store]
  by_cases zero : sight.cell = 0
  · rw [if_pos zero]
    exact zero
  · rw [if_neg zero]
    exact Sight.put_self _ _ _

namespace Code

/-- The value of the last assignment to the cell that is not inside of a region. -/
def last : Code → Int → Option UInt8
  | empty, _ => none
  | plain before instruction, cell =>
    (instruction.constant? (cell - before.shift)).or (before.last cell)
  | loop before _, cell => before.last cell
  | region before _ _, cell => before.last cell

/-- What regions assign to the cell, behind the last assignment that is not inside of one, is the same
value again. -/
def Lasts : Code → Int → Prop
  | empty, _ => True
  | plain before instruction, cell =>
    (instruction.constant? (cell - before.shift)).isSome ∨ before.Lasts cell
  | loop before _, cell => before.Lasts cell
  | region before _ body, cell =>
    before.Lasts cell ∧ ∀ value, before.last cell = some value →
      ∀ other, body.Assigns (cell - before.shift) other → other = value

/-- A cell that is worked on is not added to, a counter gets neither products nor constants, and what
gets a product is not assigned. -/
structure Repeats (code : Code) : Prop where
  away : ∀ cell, code.Touches cell → ¬ code.Adds cell
  counters : ∀ cell, code.Counts cell →
    ¬ code.Targets cell ∧ ∀ value, code.Assigns cell value → value = 0
  targets : ∀ cell, code.Targets cell → ∀ value, ¬ code.Assigns cell value

theorem assigns_of_last {code : Code} {cell : Int} {value : UInt8}
    (found : code.last cell = some value) : code.Assigns cell value := by
  induction code with
  | empty => cases found
  | plain before instruction ih =>
    rw [last, Option.or_eq_some_iff] at found
    rcases found with late | ⟨-, early⟩
    · exact .inr (Instruction.assigns_of_constant? late)
    · exact .inl (ih early)
  | loop before body ihBefore _ => exact ihBefore found
  | region before fast body ihBefore _ => exact .inl (ihBefore found)

theorem Repeats.of_plain {before : Code} {instruction : Instruction}
    (repeats : (before.plain instruction).Repeats) : before.Repeats where
  away cell touches adds := repeats.away cell (touches_plain.mpr (.inl touches)) (.inl adds)
  counters cell counted :=
    ⟨fun target => (repeats.counters cell (.inl counted)).1 (.inl target),
      fun value assigned => (repeats.counters cell (.inl counted)).2 value (.inl assigned)⟩
  targets cell target value assigned := repeats.targets cell (.inl target) value (.inl assigned)

theorem Repeats.of_region {before body : Code} {fast : Bool}
    (repeats : (before.region fast body).Repeats) : before.Repeats where
  away cell touches adds := repeats.away cell (touches_region.mpr (.inl touches)) adds
  counters cell counted :=
    ⟨fun target => (repeats.counters cell (.inl counted)).1 (.inl target),
      fun value assigned => (repeats.counters cell (.inl counted)).2 value (.inl assigned)⟩
  targets cell target value assigned := repeats.targets cell (.inl target) value (.inl assigned)

/-! ### A turn settles the cells -/

/-- The outer counters are zero, and every assigned cell has its last plain constant. -/
structure Settled (code : Code) (origin : Int) (cells : Int → UInt8) : Prop where
  counters : ∀ cell, code.Drains cell → cells (origin + cell) = 0
  constants : ∀ cell value, code.last cell = some value → cells (origin + cell) = value

/-- An instruction of a loop body leaves a cell alone, or adds to it, or works on it. -/
theorem cells_plain_cases {before : Code} {instruction : Instruction}
    (straight : (before.plain instruction).Straight false) {keep : Bool} {register : UInt8}
    {sight : Sight} {cell : Int} (away : ¬ (before.plain instruction).Adds cell)
    (none : instruction.constant? (cell - before.shift) = none) :
    ((before.plain instruction).sweep keep register sight).cells (sight.index + cell) =
        (before.sweep keep register sight).cells (sight.index + cell) ∨
      instruction.Targets (cell - before.shift) ∨
      (instruction.opcode = .store ∧ cell = before.shift ∧
        ((before.plain instruction).sweep keep register sight).cells (sight.index + cell) = 0) := by
  obtain ⟨early, opcode, -⟩ := straight
  have here := index_sweep early keep register sight
  have place : sight.index + cell - (before.sweep keep register sight).index =
      cell - before.shift := by omega
  rcases opcode with plain | adds
  · have fates := Instruction.cells_sweep_cases (.inl plain) register
      (before.sweep keep register sight) (sight.index + cell)
    rw [place] at fates
    rcases fates with same | target | ⟨store, under, zero⟩ | assigned
    · exact .inl same
    · exact .inr (.inl target)
    · exact .inr (.inr ⟨store, by omega, zero⟩)
    · rw [Instruction.constant?_of_assigns assigned] at none
      cases none
  · replace adds : instruction.opcode = .add := adds
    left
    have off : sight.index + cell ≠ (before.sweep keep register sight).index := by
      intro under
      exact away (.inr ⟨adds, by omega⟩)
    simp only [sweep, Instruction.sweep, adds]
    exact Sight.put_of_ne off _

/-- A constant that was assigned before stays until the next one, if the cell is zero when it is
counted down. -/
theorem cells_constant_sweep {code : Code} (straight : code.Straight false) (repeats : code.Repeats)
    (keep : Bool) (register : UInt8) (sight : Sight) {cell : Int} {value : UInt8}
    (lasts : code.Lasts cell) (found : code.last cell = some value) :
    (code.sweep keep register sight).cells (sight.index + cell) = value := by
  have assigned := assigns_of_last found
  have away := repeats.away cell (.inr (.inr ⟨value, assigned⟩))
  have target := fun targets => repeats.targets cell targets value assigned
  have zero := fun counted => (repeats.counters cell counted).2 value assigned
  induction code with
  | empty => cases found
  | plain before instruction ih =>
    have here := index_sweep straight.1 keep register sight
    cases constant : instruction.constant? (cell - before.shift) with
    | some other =>
      rw [last, constant, Option.some_or, Option.some.injEq] at found
      rw [sweep, ← found]
      refine Instruction.cells_sweep_of_constant? ?_
      rw [here, ← constant]
      congr 1
      omega
    | none =>
      rw [last, constant, Option.none_or] at found
      have early := lasts.resolve_left (by simp [constant])
      rcases cells_plain_cases straight away constant with same | product | ⟨store, under, cleared⟩
      · rw [same]
        exact ih straight.1 repeats.of_plain early found (assigns_of_last found)
          (fun adds => away (.inl adds)) (fun targets => target (.inl targets))
          fun counted => zero (.inl counted)
      · exact (target (.inr product)).elim
      · rw [cleared, zero (.inr ⟨store, under⟩)]
  | loop before body _ _ => exact straight.elim
  | region before fast body ihBefore _ =>
    have inside := cells_sweep_cases straight.2.2.2.1 keep
    by_cases under : cell = before.shift
    · rw [under, cells_region_counter straight inside, zero (.inr (.inl under))]
    · have place : sight.index + cell - sight.index - before.shift = cell - before.shift := by omega
      have off : sight.index + cell ≠ sight.index + before.shift := by omega
      rcases cells_region_cases straight inside off with same | targets | ⟨counted, cleared⟩ | assigns
      · rw [same]
        exact ihBefore straight.1 repeats.of_region lasts.1 found (assigns_of_last found) away
          (fun targets => target (.inl targets)) fun counted => zero (.inl counted)
      · exact (target (.inr (place ▸ targets))).elim
      · rw [cleared, zero (.inr (.inr (place ▸ counted)))]
      · exact lasts.2 value found _ (place ▸ assigns)

/-- A counter that was counted down stays zero. -/
theorem cells_counter_sweep {code : Code} (straight : code.Straight false) (repeats : code.Repeats)
    (keep : Bool) (register : UInt8) (sight : Sight) {cell : Int} (drained : code.Drains cell) :
    (code.sweep keep register sight).cells (sight.index + cell) = 0 := by
  have counted := counts_of_drains drained
  have away := repeats.away cell (.inl counted)
  obtain ⟨target, zero⟩ := repeats.counters cell counted
  induction code with
  | empty => exact drained.elim
  | plain before instruction ih =>
    have here := index_sweep straight.1 keep register sight
    by_cases store : instruction.opcode = .store ∧ cell = before.shift
    · rw [store.2, ← here, sweep]
      exact Instruction.cells_sweep_store store.1 register _
    · have early := drained.resolve_right store
      cases constant : instruction.constant? (cell - before.shift) with
      | some other =>
        rw [sweep, ← zero other (.inr (Instruction.assigns_of_constant? constant))]
        refine Instruction.cells_sweep_of_constant? ?_
        rw [here, ← constant]
        congr 1
        omega
      | none =>
        rcases cells_plain_cases straight away constant with same | product | ⟨-, -, cleared⟩
        · rw [same]
          exact ih straight.1 repeats.of_plain early (counts_of_drains early)
            (fun adds => away (.inl adds)) (fun targets => target (.inl targets))
            fun value assigned => zero value (.inl assigned)
        · exact (target (.inr product)).elim
        · exact cleared
  | loop before body _ _ => exact straight.elim
  | region before fast body ihBefore _ =>
    have inside := cells_sweep_cases straight.2.2.2.1 keep
    by_cases under : cell = before.shift
    · rw [under, cells_region_counter straight inside]
    · have early := drained.resolve_right under
      have place : sight.index + cell - sight.index - before.shift = cell - before.shift := by omega
      have off : sight.index + cell ≠ sight.index + before.shift := by omega
      rcases cells_region_cases straight inside off with same | targets | ⟨-, cleared⟩ | assigns
      · rw [same]
        exact ihBefore straight.1 repeats.of_region early (counts_of_drains early) away
          (fun targets => target (.inl targets)) fun value assigned => zero value (.inl assigned)
      · exact (target (.inr (place ▸ targets))).elim
      · exact cleared
      · exact zero _ (.inr (place ▸ assigns))

theorem settled_sweep {code : Code} (straight : code.Straight false) (repeats : code.Repeats)
    (lasts : ∀ cell, code.Lasts cell) (keep : Bool) (register : UInt8) (sight : Sight) :
    code.Settled sight.index (code.sweep keep register sight).cells where
  counters _ drained := cells_counter_sweep straight repeats keep register sight drained
  constants cell _ found :=
    cells_constant_sweep straight repeats keep register sight (lasts cell) found

/-! ### A turn of settled cells -/

/-- Where all outer counters are zero, nothing but the plain assignments and additions happens. -/
theorem cells_sweep_of_counters {code : Code} (straight : code.Straight false)
    (repeats : code.Repeats) (keep : Bool) (register : UInt8) {sight : Sight}
    (counters : ∀ cell, code.Drains cell → sight.cells (sight.index + cell) = 0) {cell : Int}
    (away : ¬ code.Adds cell) :
    (code.sweep keep register sight).cells (sight.index + cell) =
      (code.last cell).getD (sight.cells (sight.index + cell)) := by
  induction code generalizing cell with
  | empty => rfl
  | plain before instruction ih =>
    have here := index_sweep straight.1 keep register sight
    have early {cell : Int} (away : ¬ before.Adds cell) :=
      ih straight.1 repeats.of_plain (fun cell drained => counters cell (.inl drained)) away
    cases constant : instruction.constant? (cell - before.shift) with
    | some other =>
      rw [last, constant, Option.some_or, Option.getD_some, sweep]
      refine Instruction.cells_sweep_of_constant? ?_
      rw [here, ← constant]
      congr 1
      omega
    | none =>
      rw [last, constant, Option.none_or, ← early fun adds => away (.inl adds)]
      by_cases store : instruction.opcode = .store
      · -- The counter is zero, and was made nothing else since.
        have counted : (before.plain instruction).Counts before.shift := .inr ⟨store, rfl⟩
        have zero : (before.sweep keep register sight).cell = 0 := by
          have alone := repeats.away _ (.inl counted)
          rw [Sight.cell, here, early fun adds => alone (.inl adds)]
          cases found : before.last before.shift with
          | none => exact counters _ (.inr ⟨store, rfl⟩)
          | some value =>
            exact (repeats.counters _ counted).2 value (.inl (assigns_of_last found))
        simp only [sweep, Instruction.sweep, store]
        rw [if_pos zero]
        rfl
      · have opcode := straight.2.1
        rcases cells_plain_cases straight away constant with same | product | ⟨counted, -, -⟩
        · exact same
        · have multiplies := product.1.resolve_left store
          rw [multiplies] at opcode
          simp [Opcode.IsStraight] at opcode
        · exact (store counted).elim
  | loop before body _ _ => exact straight.elim
  | region before fast body ihBefore _ =>
    have here := index_sweep straight.1 keep register sight
    have early {cell : Int} (away : ¬ before.Adds cell) :=
      ihBefore straight.1 repeats.of_region (fun cell drained => counters cell (.inl drained)) away
    have counted : (before.region fast body).Counts before.shift := .inr (.inl rfl)
    have zero : (before.sweep keep register sight).cell = 0 := by
      have alone := repeats.away _ (.inl counted)
      rw [Sight.cell, here, early alone]
      cases found : before.last before.shift with
      | none => exact counters _ (.inr rfl)
      | some value => exact (repeats.counters _ counted).2 value (.inl (assigns_of_last found))
    simp only [sweep]
    rw [if_pos zero]
    exact early away

/-- A turn of settled cells changes none of those that the body works on. -/
theorem cells_sweep_of_settled {code : Code} (straight : code.Straight false)
    (repeats : code.Repeats) (keep : Bool) (register : UInt8) {sight : Sight}
    (settled : code.Settled sight.index sight.cells) {cell : Int} (touches : code.Touches cell) :
    (code.sweep keep register sight).cells (sight.index + cell) =
      sight.cells (sight.index + cell) := by
  rw [cells_sweep_of_counters straight repeats keep register settled.counters
    (repeats.away cell touches)]
  cases found : code.last cell with
  | none => rfl
  | some value => exact (settled.constants cell value found).symm

end Code

end TapeMachine
