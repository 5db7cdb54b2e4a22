/-
**Which cells a code reaches.**

What can be said about a code without loops before it runs: how far it moves the head, and which cells
it adds to, counts down, adds products to and assigns, all relative to the cell where it starts.

* `Instruction.Sound`: the operands are such as are written, and which instructions are so;
* `Code.shift`, `Code.gain`: the distance the head moves, and what plain additions add to a cell;
* `Code.Counts`, `Code.Targets`, `Code.Assigns`: what regions, products and assignments do;
* `Code.Straight`: the code has no loops, its regions come back to their counters and leave them
  alone, and it is made of the instructions that may stand inside of a region, or of those that may
  stand in the body of a counted loop.
-/

import TapeMachine.Proofs.Code.Basic

namespace TapeMachine

namespace Instruction

/-- How far the head moves. -/
def shift (instruction : Instruction) : Int :=
  match instruction.opcode with
  | .move => instruction.value
  | .reset => (instruction.value - 1) * instruction.offset
  | _ => 0

/-- The distances of the cells that a reset clears. -/
def distances (instruction : Instruction) : List Int :=
  (List.range instruction.value.toNat).map fun count : Nat => count * instruction.offset

/-- The instruction makes the cell at a distance a value. -/
def Assigns (instruction : Instruction) (cell : Int) (value : UInt8) : Prop :=
  instruction.opcode = .set ∧ cell = 0 ∧ value = UInt8.ofInt instruction.value ∨
    instruction.opcode = .reset ∧ cell ∈ instruction.distances ∧ value = 0

/-- The instruction adds a product to the cell at a distance. -/
def Targets (instruction : Instruction) (cell : Int) : Prop :=
  (instruction.opcode = .store ∨ instruction.opcode = .multiply) ∧ cell = instruction.offset

/-- The instruction works on the cell at a distance other than by adding to it. -/
def Works (instruction : Instruction) (cell : Int) : Prop :=
  instruction.Targets cell ∨ (instruction.opcode = .store ∧ cell = 0) ∨
    ∃ value, instruction.Assigns cell value

/-- The operands are such as are written: moves, additions and searches are by something, a reset
clears at least one cell, with a stride of one exactly if it clears more, and what an opcode does not
use is zero. -/
structure Sound (instruction : Instruction) : Prop where
  moving : instruction.opcode ∈ [.move, .add, .seek] → instruction.value ≠ 0
  clearing : instruction.opcode = .reset → 1 ≤ instruction.value ∧
    (instruction.value = 1 ∧ instruction.offset = 0 ∨
      instruction.value ≠ 1 ∧ (instruction.offset = 1 ∨ instruction.offset = -1))
  unlinked : instruction.link = 0
  plain : instruction.opcode.operands = .value ∨ instruction.opcode.operands = .none →
    instruction.offset = 0
  bare : instruction.opcode.operands = .none → instruction.value = 0

namespace Sound

variable {instruction : Instruction} {opcode : Opcode} {amount distance : Int}

theorem of_amount (written : opcode ∈ [.move, .add, .seek]) (marked : amount ≠ 0) :
    ({ opcode := opcode, value := amount } : Instruction).Sound := by
  simp only [List.mem_cons, List.not_mem_nil, or_false] at written
  rcases written with rfl | rfl | rfl <;> constructor <;> simp [Opcode.operands, marked]

theorem of_product (written : opcode ∈ [.multiply, .store]) (factor distance : Int) :
    ({ opcode := opcode, value := factor, offset := distance } : Instruction).Sound := by
  simp only [List.mem_cons, List.not_mem_nil, or_false] at written
  rcases written with rfl | rfl <;> constructor <;> simp [Opcode.operands]

theorem of_constant (value : Int) : ({ opcode := .set, value := value } : Instruction).Sound := by
  constructor <;> simp [Opcode.operands]

/-- Without operands, where none are used. -/
theorem of_bare (bare : opcode.operands = .none) : ({ opcode := opcode } : Instruction).Sound := by
  cases opcode <;> cases bare <;> constructor <;> simp [Opcode.operands]

/-- A reset of the cell under the head. -/
theorem single : ({ opcode := .reset, value := 1 } : Instruction).Sound := by
  constructor <;> simp [Opcode.operands]

/-- Two amounts in one, unless they cancel out; a constant may come to nothing. -/
theorem joined (sound : instruction.Sound) (written : instruction.opcode ∈ [.move, .add, .set])
    (marked : instruction.opcode ≠ .set → instruction.value + amount ≠ 0) :
    ({ instruction with value := instruction.value + amount } : Instruction).Sound := by
  have linear : instruction.opcode.operands = .value := by
    simp only [List.mem_cons, List.not_mem_nil, or_false] at written
    rcases written with same | same | same <;> rw [same] <;> rfl
  refine ⟨fun moving => marked ?_, fun reset => ?_, sound.unlinked, fun _ => sound.plain (.inl linear),
    fun bare => nomatch linear.symm.trans bare⟩
  · intro set
    simp [set] at moving
  · simp [show instruction.opcode = .reset from reset] at written

/-- One cell more, next to those that are cleared. -/
theorem wider (sound : instruction.Sound) (opcode : instruction.opcode = .reset)
    (near : distance.natAbs = 1) (stride : instruction.offset = 0 ∨ instruction.offset = distance) :
    ({ instruction with value := instruction.value + 1, offset := distance } : Instruction).Sound := by
  obtain ⟨one, -⟩ := sound.clearing opcode
  constructor
  · simp [opcode]
  · intro _
    refine ⟨?_, .inr ⟨?_, ?_⟩⟩ <;> simp only <;> omega
  · exact sound.unlinked
  · simp [opcode, Opcode.operands]
  · simp [opcode, Opcode.operands]

end Sound

end Instruction

/-- The opcodes that may stand inside of a region, or else in the body of a counted loop. -/
def Opcode.IsStraight (inner : Bool) (opcode : Opcode) : Prop :=
  opcode ∈ [.move, .store, .set, .reset] ∨ opcode = if inner then .multiply else .add

instance (inner : Bool) (opcode : Opcode) : Decidable (opcode.IsStraight inner) :=
  inferInstanceAs (Decidable (_ ∨ _))

namespace Code

/-- How far the head moves. -/
def shift : Code → Int
  | empty => 0
  | plain before instruction => before.shift + instruction.shift
  | loop before _ => before.shift
  | region before _ body => before.shift + body.shift

/-- What plain additions add to a cell. -/
def gain : Code → Int → Int
  | empty, _ => 0
  | plain before instruction, cell =>
    before.gain cell +
      if instruction.opcode = .add ∧ cell = before.shift then instruction.value else 0
  | loop before _, cell => before.gain cell
  | region before _ _, cell => before.gain cell

/-- A plain addition adds to the cell. -/
def Adds : Code → Int → Prop
  | empty, _ => False
  | plain before instruction, cell =>
    before.Adds cell ∨ instruction.opcode = .add ∧ cell = before.shift
  | loop before _, cell => before.Adds cell
  | region before _ _, cell => before.Adds cell

/-- The cell is a counter of a region or a `store` that is not inside of another region. -/
def Drains : Code → Int → Prop
  | empty, _ => False
  | plain before instruction, cell =>
    before.Drains cell ∨ instruction.opcode = .store ∧ cell = before.shift
  | loop before _, cell => before.Drains cell
  | region before _ _, cell => before.Drains cell ∨ cell = before.shift

/-- The cell is a counter of a region or a `store`. -/
def Counts : Code → Int → Prop
  | empty, _ => False
  | plain before instruction, cell =>
    before.Counts cell ∨ instruction.opcode = .store ∧ cell = before.shift
  | loop before _, cell => before.Counts cell
  | region before _ body, cell =>
    before.Counts cell ∨ cell = before.shift ∨ body.Counts (cell - before.shift)

/-- A product is added to the cell. -/
def Targets : Code → Int → Prop
  | empty, _ => False
  | plain before instruction, cell =>
    before.Targets cell ∨ instruction.Targets (cell - before.shift)
  | loop before _, cell => before.Targets cell
  | region before _ body, cell => before.Targets cell ∨ body.Targets (cell - before.shift)

/-- The cell is made a value. -/
def Assigns : Code → Int → UInt8 → Prop
  | empty, _, _ => False
  | plain before instruction, cell, value =>
    before.Assigns cell value ∨ instruction.Assigns (cell - before.shift) value
  | loop before _, cell, value => before.Assigns cell value
  | region before _ body, cell, value =>
    before.Assigns cell value ∨ body.Assigns (cell - before.shift) value

/-- The code works on the cell other than by plain additions. -/
def Touches (code : Code) (cell : Int) : Prop :=
  code.Counts cell ∨ code.Targets cell ∨ ∃ value, code.Assigns cell value

/-- There are no regions. -/
def Leaf : Code → Prop
  | empty => True
  | plain before _ => before.Leaf
  | loop before _ => before.Leaf
  | region _ _ _ => False

/-- There are no loops, every region comes back to its counter and leaves it alone, and the plain
instructions are those of a region, if the code is `inner`, or else those of a counted loop. Regions
inside of others use the stack, and regions that do not are innermost. -/
def Straight : Bool → Code → Prop
  | _, empty => True
  | inner, plain before instruction =>
    before.Straight inner ∧ instruction.opcode.IsStraight inner ∧ instruction.Sound
  | _, loop _ _ => False
  | inner, region before fast body =>
    before.Straight inner ∧ (inner = true → fast = false) ∧ (fast = true → body.Leaf) ∧
      body.Straight true ∧ body.shift = 0 ∧ ¬ body.Touches 0

/-- The code is made as drafts are: the plain instructions are those that are written outside of
regions, and every region is as in a straight code. -/
def Proper : Code → Prop
  | empty => True
  | plain before instruction =>
    before.Proper ∧
      instruction.opcode ∈ [.move, .add, .input, .output, .reset, .store, .seek, .set] ∧
      instruction.Sound
  | loop before body => before.Proper ∧ body.Proper
  | region before fast body =>
    before.Proper ∧ (fast = true → body.Leaf) ∧
      body.Straight true ∧ body.shift = 0 ∧ ¬ body.Touches 0

theorem counts_of_drains {code : Code} {cell : Int} (drained : code.Drains cell) :
    code.Counts cell := by
  induction code with
  | empty => exact drained
  | plain before instruction ih => exact drained.imp ih id
  | loop before body ihBefore _ => exact ihBefore drained
  | region before fast body ihBefore _ =>
    exact drained.elim (fun early => .inl (ihBefore early)) fun here => .inr (.inl here)

theorem touches_plain {before : Code} {instruction : Instruction} {cell : Int} :
    (before.plain instruction).Touches cell ↔
      before.Touches cell ∨ instruction.Works (cell - before.shift) := by
  simp only [Touches, Counts, Targets, Assigns, Instruction.Works, exists_or]
  have place : cell - before.shift = 0 ↔ cell = before.shift := by omega
  rw [place]
  constructor
  · rintro ((counted | stored) | (target | product) | (assigned | assigned))
    · exact .inl (.inl counted)
    · exact .inr (.inr (.inl stored))
    · exact .inl (.inr (.inl target))
    · exact .inr (.inl product)
    · exact .inl (.inr (.inr assigned))
    · exact .inr (.inr (.inr assigned))
  · rintro ((counted | target | assigned) | (product | stored | assigned))
    · exact .inl (.inl counted)
    · exact .inr (.inl (.inl target))
    · exact .inr (.inr (.inl assigned))
    · exact .inr (.inl (.inr product))
    · exact .inl (.inr stored)
    · exact .inr (.inr (.inr assigned))

theorem touches_region {before body : Code} {fast : Bool} {cell : Int} :
    (before.region fast body).Touches cell ↔
      before.Touches cell ∨ cell = before.shift ∨ body.Touches (cell - before.shift) := by
  simp only [Touches, Counts, Targets, Assigns, exists_or]
  constructor
  · rintro ((counted | here | inside) | (target | product) | (assigned | inside))
    · exact .inl (.inl counted)
    · exact .inr (.inl here)
    · exact .inr (.inr (.inl inside))
    · exact .inl (.inr (.inl target))
    · exact .inr (.inr (.inr (.inl product)))
    · exact .inl (.inr (.inr assigned))
    · exact .inr (.inr (.inr (.inr inside)))
  · rintro ((counted | target | assigned) | here | (inside | product | assigned))
    · exact .inl (.inl counted)
    · exact .inr (.inl (.inl target))
    · exact .inr (.inr (.inl assigned))
    · exact .inl (.inr (.inl here))
    · exact .inl (.inr (.inr inside))
    · exact .inr (.inl (.inr product))
    · exact .inr (.inr (.inr assigned))

/-- Plain additions do not stand inside of a region. -/
theorem not_adds_of_straight {code : Code} (straight : code.Straight true) (cell : Int) :
    ¬ code.Adds cell := by
  induction code with
  | empty => exact id
  | plain before instruction ih =>
    rintro (early | ⟨opcode, -⟩)
    · exact ih straight.1 early
    · have inside := straight.2.1
      rw [opcode] at inside
      revert inside
      decide
  | loop before body _ _ => exact straight.elim
  | region before fast body ihBefore _ => exact ihBefore straight.1

theorem gain_eq_zero {code : Code} {cell : Int} (never : ¬ code.Adds cell) : code.gain cell = 0 := by
  induction code with
  | empty => rfl
  | plain before instruction ih =>
    have early : ¬ before.Adds cell := fun adds => never (.inl adds)
    have late : ¬ (instruction.opcode = .add ∧ cell = before.shift) := fun adds => never (.inr adds)
    rw [gain, ih early, if_neg late, Int.add_zero]
  | loop before body ihBefore _ => exact ihBefore never
  | region before fast body ihBefore _ => exact ihBefore never

end Code

end TapeMachine
