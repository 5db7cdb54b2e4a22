/-
**How large the numbers of a text get.**

Every symbol moves a position by at most one and makes an operand larger by at most one, and no pass
adds to that. So the numbers in a text, and those that the passes form when they look at a loop, are
never larger than the source is long.

* `Code.low`, `Code.high`: the cells between which a code stays, by distance from where it begins;
* `Code.mass`: what its additions, constants and resets sum up to;
* `Code.extent`: both together;
* `Reached.extent_le`: the codes on all levels together extend no further than the source.
-/

import TapeMachine.Proofs.Assembly.Reached

namespace TapeMachine

namespace Instruction

/-- Where a product is added, by distance from the head. -/
def target (instruction : Instruction) : Int :=
  match instruction.opcode with
  | .store | .multiply => instruction.offset
  | _ => 0

/-- What the instruction adds to the sum of operands. -/
def mass (instruction : Instruction) : Int :=
  match instruction.opcode with
  | .add | .set | .reset => instruction.value.natAbs
  | _ => 0

theorem mass_nonneg (instruction : Instruction) : 0 ≤ instruction.mass := by
  unfold mass
  split <;> omega

end Instruction

namespace Code

/-- The leftmost cell that the head or a product gets to. Kept loops are not looked into. -/
def low : Code → Int
  | empty => 0
  | plain before instruction =>
    min before.low (before.shift + min instruction.shift instruction.target)
  | loop before _ => before.low
  | region before _ body => min before.low (before.shift + body.low)

/-- The rightmost cell that the head or a product gets to. -/
def high : Code → Int
  | empty => 0
  | plain before instruction =>
    max before.high (before.shift + max instruction.shift instruction.target)
  | loop before _ => before.high
  | region before _ body => max before.high (before.shift + body.high)

/-- What additions, constants and resets sum up to. -/
def mass : Code → Int
  | empty => 0
  | plain before instruction => before.mass + instruction.mass
  | loop before _ => before.mass
  | region before _ body => before.mass + body.mass

/-- How many symbols it takes at least to write the code. -/
def extent (code : Code) : Int := code.high - code.low + code.mass

/-- The code begins and ends between the cells. -/
theorem between (code : Code) :
    code.low ≤ 0 ∧ 0 ≤ code.high ∧ code.low ≤ code.shift ∧ code.shift ≤ code.high := by
  induction code with
  | empty => simp [low, high, shift]
  | plain before instruction ih =>
    simp only [low, high, shift]
    omega
  | loop before body ihBefore _ => exact ihBefore
  | region before fast body ihBefore ihBody =>
    simp only [low, high, shift]
    omega

theorem mass_nonneg (code : Code) : 0 ≤ code.mass := by
  induction code with
  | empty => exact Int.le_refl 0
  | plain before instruction ih => exact Int.add_nonneg ih instruction.mass_nonneg
  | loop before body ihBefore _ => exact ihBefore
  | region before fast body ihBefore ihBody => exact Int.add_nonneg ihBefore ihBody

theorem extent_nonneg (code : Code) : 0 ≤ code.extent := by
  have ends := code.between
  have mass := code.mass_nonneg
  unfold extent
  omega

/-- One more instruction only widens the code. -/
theorem within_plain (before : Code) (instruction : Instruction) :
    (before.plain instruction).low ≤ before.low ∧ before.high ≤ (before.plain instruction).high :=
  ⟨Int.min_le_left .., Int.le_max_left ..⟩

theorem extent_le_plain (before : Code) (instruction : Instruction) :
    before.extent ≤ (before.plain instruction).extent := by
  have mass := instruction.mass_nonneg
  have wider := before.within_plain instruction
  simp only [extent, Code.mass]
  omega

/-- Operands are no larger than the code extends. -/
theorem value_le_extent (before : Code) {last : Instruction}
    (counts : last.opcode = .move ∨ last.opcode = .add ∨ last.opcode = .set ∨ last.opcode = .reset) :
    (last.value.natAbs : Int) ≤ (before.plain last).extent := by
  have ends := before.between
  have mass := before.mass_nonneg
  rcases counts with same | same | same | same <;>
    simp only [extent, low, high, Code.mass, Instruction.shift, Instruction.target,
      Instruction.mass, same] <;> omega

/-! ### One code inside of another -/

/-- The code stays where the bound does, and does not sum up to more. -/
structure Inside (code bound : Code) : Prop where
  low : bound.low ≤ code.low
  high : code.high ≤ bound.high
  mass : code.mass ≤ bound.mass

theorem Inside.extent {code bound : Code} (inside : code.Inside bound) :
    code.extent ≤ bound.extent := by
  obtain ⟨low, high, mass⟩ := inside
  unfold Code.extent
  omega

theorem shift_append (first second : Code) :
    (first ++ second).shift = first.shift + second.shift := by
  induction second with
  | empty => exact (Int.add_zero _).symm
  | plain before instruction ih => simp only [append_plain, shift, ih, Int.add_assoc]
  | loop before body ihBefore _ => exact ihBefore
  | region before fast body ihBefore _ => simp only [append_region, shift, ihBefore, Int.add_assoc]

theorem min_shifted (far near reached moved : Int) :
    min (min far (moved + near)) (moved + reached) = min far (moved + min near reached) := by
  omega

theorem max_shifted (far near reached moved : Int) :
    max (max far (moved + near)) (moved + reached) = max far (moved + max near reached) := by
  omega

theorem extent_append (first second : Code) :
    (first ++ second).extent ≤ first.extent + second.extent := by
  have ends : (first ++ second).low = min first.low (first.shift + second.low) ∧
      (first ++ second).high = max first.high (first.shift + second.high) ∧
        (first ++ second).mass = first.mass + second.mass := by
    have around := first.between
    induction second with
    | empty =>
      simp only [append_empty, low, high, mass]
      omega
    | plain before instruction ih =>
      obtain ⟨lower, upper, sum⟩ := ih
      simp only [append_plain, low, high, mass, shift_append]
      rw [lower, upper, sum, Int.add_assoc first.shift, Int.add_assoc first.shift, min_shifted,
        max_shifted, Int.add_assoc]
      exact ⟨rfl, rfl, rfl⟩
    | loop before body ihBefore _ => exact ihBefore
    | region before fast body ihBefore _ =>
      obtain ⟨lower, upper, sum⟩ := ihBefore
      simp only [append_region, low, high, mass, shift_append]
      rw [lower, upper, sum, Int.add_assoc first.shift, Int.add_assoc first.shift, min_shifted,
        max_shifted, Int.add_assoc]
      exact ⟨rfl, rfl, rfl⟩
  have around := first.between
  have inside := second.between
  unfold extent
  omega

/-! ### Weaving -/

section Weaving

variable {woven : Woven} {bound before : Code} {instruction : Instruction} {target : Int}

theorem inside_moveTo (level : woven.code.shift = woven.cursor) (inside : woven.code.Inside bound)
    (low : bound.low ≤ target) (high : target ≤ bound.high) :
    (woven.moveTo target).code.Inside bound := by
  have around := woven.code.between
  unfold Woven.moveTo
  split
  · exact inside
  · obtain ⟨lower, upper, mass⟩ := inside
    constructor <;>
      simp only [Code.low, Code.high, Code.mass, Instruction.shift, Instruction.target,
        Instruction.mass, level] <;> omega

theorem inside_multiply (level : woven.code.shift = woven.cursor) (inside : woven.code.Inside bound)
    (factor : Int) (low : bound.low ≤ target) (high : target ≤ bound.high) :
    (woven.multiply factor target).code.Inside bound := by
  have around := woven.code.between
  obtain ⟨lower, upper, mass⟩ := inside
  constructor <;>
    simp only [Woven.multiply, Woven.write, Code.low, Code.high, Code.mass, Instruction.shift,
      Instruction.target, Instruction.mass, level] <;> omega

theorem inside_plain {code : Code} (inside : code.Inside before) (instruction : Instruction) :
    code.Inside (before.plain instruction) := by
  have more := instruction.mass_nonneg
  obtain ⟨lower, upper, mass⟩ := inside
  constructor <;> simp only [Code.low, Code.high, Code.mass] <;> omega

end Weaving

/-- What is woven of a code stays where the code does. -/
theorem inside_weave {inner : Bool} {code : Code} (straight : code.Straight inner) :
    code.weave.code.Inside code := by
  induction code generalizing inner with
  | empty => exact ⟨Int.le_refl _, Int.le_refl _, Int.le_refl _⟩
  | plain before instruction ih =>
    have early := inside_plain (ih straight.1) instruction
    have level := shift_weave straight.1
    have around := before.between
    rcases weave_plain_cases straight.2.1 with same | ⟨target, product, same⟩ | ⟨-, same⟩
    · rw [same]
      exact early
    · have place : before.shift + min instruction.shift instruction.target ≤ target ∧
          target ≤ before.shift + max instruction.shift instruction.target := by
        rcases product with ⟨opcode, rfl⟩ | ⟨opcode, rfl, -⟩ <;>
          simp only [Instruction.target, Instruction.shift, opcode] <;> omega
      rw [same]
      refine inside_multiply level early _ ?_ ?_ <;> simp only [low, high] <;> omega
    · have moved := inside_moveTo level (ih straight.1) around.2.2.1 around.2.2.2
      obtain ⟨lower, upper, less⟩ := moved
      rw [same]
      constructor <;> simp only [low, high, mass, Woven.shift_moveTo level] <;> omega
  | loop before body _ _ => exact straight.elim
  | region before fast body ihBefore ihBody =>
    obtain ⟨outer, -, -, inside, -, -⟩ := straight
    have around := before.between
    have within := body.between
    have level := shift_weave outer
    have ahead := inside_moveTo level (ihBefore outer) around.2.2.1 around.2.2.2
    have core := inside_moveTo (shift_weave inside) (ihBody inside) within.2.2.1 within.2.2.2
    obtain ⟨lower, upper, less⟩ := ahead
    obtain ⟨floor, ceiling, order⟩ := core
    constructor <;> simp only [weave, low, high, mass, Woven.shift_moveTo level] <;> omega

/-- What a counted loop is replaced by stays where its body did. -/
theorem inside_fuse {body : Code} (counted : body.Counted) : body.fuse.Inside body := by
  have around := body.between
  have woven : body.woven.Inside body :=
    inside_moveTo (shift_weave counted.straight) (inside_weave counted.straight) around.2.2.1
      around.2.2.2
  rcases body.fuse_cases with ⟨product, sole, opcode, same⟩ | ⟨-, same⟩
  · rw [same]
    obtain ⟨lower, upper, less⟩ := sole ▸ woven
    simp only [low, high, mass, shift, Instruction.shift, Instruction.target, Instruction.mass,
      opcode] at lower upper less
    constructor <;> simp only [low, high, mass, shift, Instruction.shift, Instruction.target,
      Instruction.mass] <;> omega
  · rw [same]
    obtain ⟨lower, upper, less⟩ := woven
    constructor <;> simp only [low, high, mass, shift] <;> omega

/-! ### Writing and closing -/

/-- A move or an addition by one extends the code by at most one. -/
theorem extent_extend {opcode : Opcode} {amount : Int} (written : opcode = .move ∨ opcode = .add)
    (one : amount = 1 ∨ amount = -1) (folding : Bool) (code : Code) :
    (code.extend folding opcode amount).extent ≤ code.extent + 1 := by
  have behind (code : Code) :
      (code.plain { opcode := opcode, value := amount }).extent ≤ code.extent + 1 := by
    have around := code.between
    rcases written with rfl | rfl <;>
      simp only [extent, low, high, mass, Instruction.shift, Instruction.target, Instruction.mass] <;>
      omega
  cases code with
  | plain before last =>
    have around := before.between
    have more := last.mass_nonneg
    rw [extend]
    split
    · next same =>
      split
      · simp only [extent, low, high, mass]
        omega
      · rcases written with rfl | rfl <;>
          simp only [extent, low, high, mass, Instruction.shift, Instruction.target,
            Instruction.mass, same] <;> omega
    · split
      · next set =>
        simp only [extent, low, high, mass, Instruction.shift, Instruction.target, Instruction.mass,
          set.2.2]
        omega
      · split
        · next reset =>
          simp only [extent, low, high, mass, Instruction.shift, Instruction.target,
            Instruction.mass, reset.2.2.1, reset.2.2.2]
          omega
        · exact behind (before.plain last)
  | empty | loop before body | region before fast body => exact behind _

end Code

/-- A reset that takes in a neighbour gets no further than the reset and the step. -/
theorem extent_wider (before : Code) {reset move : Instruction} (sound : reset.Sound)
    (opcode : reset.opcode = .reset) (moves : move.opcode = .move)
    (stride : reset.offset = 0 ∨ reset.offset = move.value) :
    (before.plain { reset with value := reset.value + 1, offset := move.value }).extent ≤
      ((before.plain reset).plain move).extent + 1 := by
  obtain ⟨one, operands⟩ := sound.clearing opcode
  have span : (reset.value + 1 - 1) * move.value = (reset.value - 1) * reset.offset + move.value := by
    rcases stride with none | same
    · have single : reset.value = 1 := by omega
      rw [single, none]
      omega
    · rw [← same, Int.add_sub_cancel, Int.sub_mul]
      omega
  have first := before.within_plain reset
  have second := (before.plain reset).within_plain move
  have ends := before.between
  have last := ((before.plain reset).plain move).between.2.2
  generalize wide : before.plain { reset with value := reset.value + 1, offset := move.value } = wider
  have behind : wider.low = min before.low (before.shift +
        min ((reset.value - 1) * reset.offset + move.value) 0) ∧
      wider.high = max before.high (before.shift +
        max ((reset.value - 1) * reset.offset + move.value) 0) ∧
      wider.mass ≤ ((before.plain reset).plain move).mass + 1 := by
    rw [← wide]
    simp only [Code.low, Code.high, Code.mass, Instruction.shift, Instruction.target,
      Instruction.mass, opcode, moves, span, true_and]
    omega
  obtain ⟨low, high, mass⟩ := behind
  simp only [Code.shift, Instruction.shift, opcode, moves] at last
  have left : ((before.plain reset).plain move).low ≤ wider.low := by
    rw [low]
    omega
  have right : wider.high ≤ ((before.plain reset).plain move).high := by
    rw [high]
    omega
  unfold Code.extent
  omega

theorem extent_of_closes {passes : Passes} {may : Code → Prop} {outermost : Bool}
    {outer body code : Code} (closes : Closes passes may outermost outer body code)
    (around : outer.Proper) : code.extent ≤ outer.extent + body.extent + 2 := by
  have nonneg := body.extent_nonneg
  cases closes with
  | kept | first | dead | again | emptied =>
    show outer.extent ≤ _
    omega
  | @wider before step reset move enabled sole odd behind opcode moves near stride =>
    subst behind
    have wider := extent_wider before around.1.2.2 opcode moves stride
    omega
  | cleared | sought =>
    have ends := outer.between
    unfold Code.extent at nonneg ⊢
    simp only [Code.low, Code.high, Code.mass, Instruction.shift, Instruction.target, Instruction.mass]
    omega
  | fused enabled counted =>
    have appended := Code.extent_append outer body.fuse
    have fused := (Code.inside_fuse counted).extent
    omega

/-- What the codes around the open loops extend together. -/
def extents : List Code → Int
  | [] => 0
  | outer :: outers => outer.extent + extents outers

theorem extents_nonneg (outers : List Code) : 0 ≤ extents outers := by
  induction outers with
  | nil => exact Int.le_refl 0
  | cons outer outers ih => exact Int.add_nonneg outer.extent_nonneg ih

/-- **The codes extend no further than the source.** -/
theorem Reached.extent_le {passes : Passes} {may : Code → Prop} {symbols : List Symbol}
    {outers : List Code} {code : Code} (reached : Reached passes may symbols outers code) :
    code.extent + extents outers + outers.length ≤ symbols.length := by
  induction reached with
  | start => simp [Code.extent, Code.low, Code.high, Code.mass, extents]
  | @step symbols symbol outers _ code _ before takes ih =>
    rw [List.length_append, List.length_singleton]
    cases takes with
    | fold folds =>
      obtain ⟨written, one⟩ := folds?_eq_some folds
      have extended := Code.extent_extend written one (passes .setFolding) code
      omega
    | write | read =>
      have around := code.between
      simp only [Code.extent, Code.low, Code.high, Code.mass, Instruction.shift, Instruction.target,
        Instruction.mass] at ih ⊢
      omega
    | opening =>
      simp only [extents, List.length_cons]
      simp only [Code.extent, Code.low, Code.high, Code.mass] at ih ⊢
      omega
    | closing closes =>
      have closed := extent_of_closes closes (before.proper.2 _ (List.mem_cons_self ..))
      simp only [extents, List.length_cons] at ih
      omega

end TapeMachine
