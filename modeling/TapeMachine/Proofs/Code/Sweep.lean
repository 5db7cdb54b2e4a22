/-
**What a straight code does to the cells.**

A straight code always comes to its end, unless an index leaves its range, and what it does depends on
the cells, the place of the head and the register only. `Code.sweep` computes it, and counts the
instructions and collects the cells where the head or a product gets to on the way.

* `Code.index_sweep`: the head moves by the shift of the code, whichever regions are entered;
* `Code.cells_sweep_cases`: what can have become of a cell behind the inside of a region.
-/

import TapeMachine.Proofs.Code.Reach

namespace TapeMachine

/-- The cells with the head on one of them, and how they came about. -/
structure Sight where
  cells : Int → UInt8
  index : Int
  /-- The number of instructions so far. -/
  cost : Nat := 0
  /-- Where the head or a product got to so far. -/
  visited : List Int := []

namespace Sight

/-- The cells with one of them written. -/
def put (cells : Int → UInt8) (index : Int) (value : UInt8) : Int → UInt8 :=
  fun cell => if cell = index then value else cells cell

@[simp] theorem put_self (cells : Int → UInt8) (index : Int) (value : UInt8) :
    put cells index value index = value := if_pos rfl

theorem put_of_ne {cells : Int → UInt8} {index cell : Int} (different : cell ≠ index)
    (value : UInt8) : put cells index value cell = cells cell := if_neg different

/-- One more instruction. -/
def tick (sight : Sight) : Sight :=
  { sight with cost := sight.cost + 1 }

/-- The cell under the head written. -/
def write (sight : Sight) (value : UInt8) : Sight :=
  { sight with cells := put sight.cells sight.index value }

/-- An amount added to the cell at a distance. -/
def addAt (sight : Sight) (distance : Int) (amount : UInt8) : Sight :=
  let target := sight.index + distance
  { sight with
    cells := put sight.cells target (sight.cells target + amount)
    visited := target :: sight.visited }

/-- The head moved by a distance. -/
def advance (sight : Sight) (distance : Int) : Sight :=
  let index := sight.index + distance
  { sight with
    index := index
    visited := index :: sight.visited }

/-- The cell under the head. -/
def cell (sight : Sight) : UInt8 := sight.cells sight.index

/-- Entering a region. -/
def enter (fast : Bool) (sight : Sight) : Sight :=
  (if fast then sight.write 0 else sight).tick

/-- Leaving a region. -/
def leave (keep fast : Bool) (sight : Sight) : Sight :=
  { if fast then sight else sight.write 0 with
    cost := sight.cost + (Code.regionEnd keep fast 0).length }

section Regions

variable (keep fast : Bool) (sight : Sight)

@[simp] theorem index_enter : (sight.enter fast).index = sight.index := by
  cases fast <;> rfl

@[simp] theorem cost_enter : (sight.enter fast).cost = sight.cost + 1 := by
  cases fast <;> rfl

@[simp] theorem visited_enter : (sight.enter fast).visited = sight.visited := by
  cases fast <;> rfl

@[simp] theorem index_leave : (sight.leave keep fast).index = sight.index := by
  cases fast <;> rfl

@[simp] theorem visited_leave : (sight.leave keep fast).visited = sight.visited := by
  cases fast <;> rfl

theorem cost_leave : (sight.leave true fast).cost = sight.cost + 1 := by
  cases fast <;> rfl

variable {sight} {cell : Int}

theorem cells_enter_of_ne (off : cell ≠ sight.index) :
    (sight.enter fast).cells cell = sight.cells cell := by
  cases fast with
  | false => rfl
  | true => exact put_of_ne off 0

theorem cells_leave_of_ne (off : cell ≠ sight.index) :
    (sight.leave keep fast).cells cell = sight.cells cell := by
  cases fast with
  | false => exact put_of_ne off 0
  | true => rfl

theorem cells_leave_zero (none : sight.cells cell = 0) : (sight.leave keep fast).cells cell = 0 := by
  cases fast with
  | false =>
    by_cases under : cell = sight.index
    · exact under ▸ put_self _ _ _
    · exact (put_of_ne under 0).trans none
  | true => exact none

/-- Behind a region the counter is zero: on the stack it is cleared at the end, and without the stack at
the beginning. -/
theorem cells_leave_counter {inside : Sight} (back : inside.index = sight.index)
    (alone : fast = true →
      inside.cells sight.index = (sight.enter fast).cells sight.index) :
    (inside.leave keep fast).cells sight.index = 0 := by
  cases fast with
  | false => exact back ▸ put_self _ _ _
  | true => exact (alone rfl).trans (put_self _ _ _)

end Regions

end Sight

/-- What an instruction does to the cells. -/
def Instruction.sweep (register : UInt8) (instruction : Instruction) (sight : Sight) : Sight :=
  let amount := UInt8.ofInt instruction.value
  match instruction.opcode with
  | .move => (sight.advance instruction.value).tick
  | .add => (sight.write (sight.cell + amount)).tick
  | .set => (sight.write amount).tick
  | .multiply => (sight.addAt instruction.offset (register * amount)).tick
  | .store =>
    if sight.cell = 0 then sight.tick
    else ((sight.addAt instruction.offset (sight.cell * amount)).write 0).tick
  | .reset =>
    { cells := fun cell => if cell - sight.index ∈ instruction.distances then 0 else sight.cells cell
      index := sight.index + instruction.shift
      cost := sight.cost + 1
      visited := instruction.distances.tail.map (sight.index + ·) ++ sight.visited }
  | _ => sight

/-- Where an instruction gets to. -/
def Instruction.visits (instruction : Instruction) (sight : Sight) : List Int :=
  match instruction.opcode with
  | .move => [sight.index + instruction.value]
  | .multiply => [sight.index + instruction.offset]
  | .store => if sight.cell = 0 then [] else [sight.index + instruction.offset]
  | .reset => instruction.distances.tail.map (sight.index + ·)
  | _ => []

theorem Instruction.visited_sweep (register : UInt8) (instruction : Instruction) (sight : Sight) :
    (instruction.sweep register sight).visited = instruction.visits sight ++ sight.visited := by
  unfold sweep visits
  cases instruction.opcode with
  | store =>
    by_cases zero : sight.cell = 0
    · simp only [if_pos zero]
      rfl
    · simp only [if_neg zero]
      rfl
  | _ => rfl

/-- What a straight code does to the cells. -/
def Code.sweep (keep : Bool) (register : UInt8) : Code → Sight → Sight
  | empty, sight => sight
  | plain before instruction, sight => instruction.sweep register (before.sweep keep register sight)
  | loop before _, sight => before.sweep keep register sight
  | region before fast body, sight =>
    let outer := before.sweep keep register sight
    if outer.cell = 0 then outer.tick
    else (body.sweep keep outer.cell (outer.enter fast)).leave keep fast

/-! ### Where the head gets to -/

theorem Instruction.index_sweep {inner : Bool} {instruction : Instruction}
    (straight : instruction.opcode.IsStraight inner) (register : UInt8) (sight : Sight) :
    (instruction.sweep register sight).index = sight.index + instruction.shift := by
  rcases instruction with ⟨opcode, value, offset, link⟩
  cases opcode with
  | move | reset => rfl
  | add | set | multiply => simp [sweep, shift, Sight.tick, Sight.write, Sight.addAt]
  | store =>
    simp only [sweep, shift]
    split <;> simp [Sight.tick, Sight.write, Sight.addAt]
  | _ => cases inner <;> simp [Opcode.IsStraight] at straight

namespace Code

theorem index_sweep {inner : Bool} {code : Code} (straight : code.Straight inner) (keep : Bool)
    (register : UInt8) (sight : Sight) :
    (code.sweep keep register sight).index = sight.index + code.shift := by
  induction code generalizing inner register sight with
  | empty => simp [sweep, shift]
  | plain before instruction ih =>
    rw [sweep, Instruction.index_sweep straight.2.1, ih straight.1, shift, Int.add_assoc]
  | loop before body _ _ => exact straight.elim
  | region before fast body ihBefore ihBody =>
    obtain ⟨early, -, -, inside, back, -⟩ := straight
    have here := ihBefore early register sight
    simp only [sweep]
    split
    · simp [Sight.tick, here, shift, back]
    · have there := ihBody inside (before.sweep keep register sight).cell
        ((before.sweep keep register sight).enter fast)
      simpa [shift, back, here] using there

end Code

/-! ### What becomes of a cell -/

theorem Instruction.cells_sweep_cases {instruction : Instruction}
    (straight : instruction.opcode.IsStraight true) (register : UInt8) (sight : Sight)
    (cell : Int) :
    (instruction.sweep register sight).cells cell = sight.cells cell ∨
      instruction.Targets (cell - sight.index) ∨
      (instruction.opcode = .store ∧ cell = sight.index ∧
        (instruction.sweep register sight).cells cell = 0) ∨
      instruction.Assigns (cell - sight.index) ((instruction.sweep register sight).cells cell) := by
  rcases instruction with ⟨opcode, value, offset, link⟩
  cases opcode with
  | move => exact .inl rfl
  | set =>
    by_cases here : cell = sight.index
    · subst here
      exact .inr (.inr (.inr (.inl ⟨rfl, Int.sub_self _, by simp [sweep, Sight.tick, Sight.write]⟩)))
    · exact .inl (Sight.put_of_ne here _)
  | multiply =>
    by_cases there : cell = sight.index + offset
    · have distance : cell - sight.index = offset := by omega
      exact .inr (.inl ⟨.inr rfl, distance⟩)
    · exact .inl (Sight.put_of_ne there _)
  | store =>
    by_cases zero : sight.cell = 0
    · left
      simp [sweep, zero, Sight.tick]
    · by_cases here : cell = sight.index
      · subst here
        exact .inr (.inr (.inl ⟨rfl, rfl, by simp [sweep, zero, Sight.tick, Sight.write, Sight.addAt]⟩))
      · by_cases there : cell = sight.index + offset
        · have distance : cell - sight.index = offset := by omega
          exact .inr (.inl ⟨.inl rfl, distance⟩)
        · left
          simp only [sweep, zero, if_false, Sight.tick, Sight.write]
          rw [Sight.put_of_ne (by exact here)]
          exact Sight.put_of_ne there _
  | reset =>
    by_cases cleared : cell - sight.index ∈ distances ⟨.reset, value, offset, link⟩
    · exact .inr (.inr (.inr (.inr ⟨rfl, cleared, if_pos cleared⟩)))
    · exact .inl (if_neg cleared)
  | _ => simp [Opcode.IsStraight] at straight

theorem Instruction.cells_sweep_of_idle {instruction : Instruction}
    (straight : instruction.opcode.IsStraight true) {register : UInt8} {sight : Sight} {cell : Int}
    (idle : ¬ instruction.Works (cell - sight.index)) :
    (instruction.sweep register sight).cells cell = sight.cells cell := by
  rcases cells_sweep_cases straight register sight cell with same | target | ⟨store, here, -⟩ |
    assigned
  · exact same
  · exact (idle (.inl target)).elim
  · exact (idle (.inr (.inl ⟨store, by omega⟩))).elim
  · exact (idle (.inr (.inr ⟨_, assigned⟩))).elim

/-- What a `store`, a constant or a reset does to a cell depends on that cell and the counter. -/
theorem Instruction.cells_sweep_congr {instruction : Instruction}
    (busy : instruction.opcode ∈ [.store, .set, .reset]) {sight other : Sight}
    (level : other.index = sight.index)
    (counter : instruction.opcode = .store → other.cell = sight.cell) (register factor : UInt8)
    {cell : Int} (same : other.cells cell = sight.cells cell) :
    (instruction.sweep factor other).cells cell = (instruction.sweep register sight).cells cell := by
  rcases instruction with ⟨opcode, value, offset, link⟩
  cases opcode with
  | set => simp [sweep, Sight.tick, Sight.write, Sight.put, level, same]
  | reset =>
    simp only [sweep, same]
    rw [level]
  | store =>
    have counted := counter rfl
    simp only [sweep, counted]
    split
    · exact same
    · simp only [Sight.tick, Sight.write, Sight.addAt, level]
      by_cases here : cell = sight.index
      · rw [here, Sight.put_self, Sight.put_self]
      · rw [Sight.put_of_ne here, Sight.put_of_ne here]
        by_cases there : cell = sight.index + offset
        · rw [← there, Sight.put_self, Sight.put_self, same]
        · rw [Sight.put_of_ne there, Sight.put_of_ne there, same]
  | _ => simp at busy

/-! ### Costs and visits -/

theorem Instruction.cost_sweep {inner : Bool} {instruction : Instruction}
    (straight : instruction.opcode.IsStraight inner) (register : UInt8) (sight : Sight) :
    (instruction.sweep register sight).cost = sight.cost + 1 := by
  rcases instruction with ⟨opcode, value, offset, link⟩
  cases opcode with
  | move | add | set | multiply | reset => rfl
  | store =>
    simp only [sweep]
    split <;> rfl
  | _ => cases inner <;> simp [Opcode.IsStraight] at straight

theorem Instruction.visited_subset_sweep {inner : Bool} {instruction : Instruction}
    (straight : instruction.opcode.IsStraight inner) (register : UInt8) (sight : Sight) (cell : Int)
    (member : cell ∈ sight.visited) : cell ∈ (instruction.sweep register sight).visited := by
  rcases instruction with ⟨opcode, value, offset, link⟩
  cases opcode with
  | add | set => exact member
  | move | multiply => exact List.mem_cons_of_mem _ member
  | reset => exact List.mem_append_right _ member
  | store =>
    simp only [sweep]
    split
    · exact member
    · exact List.mem_cons_of_mem _ member
  | _ => cases inner <;> simp [Opcode.IsStraight] at straight

theorem Instruction.visited_sweep_congr {instruction : Instruction}
    (busy : instruction.opcode ∈ [.store, .set, .reset]) {sight other : Sight}
    (level : other.index = sight.index)
    (counter : instruction.opcode = .store → other.cell = sight.cell) (register factor : UInt8)
    (subset : ∀ cell ∈ other.visited, cell ∈ sight.visited) :
    ∀ cell ∈ (instruction.sweep factor other).visited,
      cell ∈ (instruction.sweep register sight).visited := by
  rcases instruction with ⟨opcode, value, offset, link⟩
  intro cell member
  cases opcode with
  | set => exact subset cell member
  | reset =>
    simp only [sweep, List.mem_append, level] at member ⊢
    exact member.imp_right (subset cell)
  | store =>
    have counted := counter rfl
    simp only [sweep, counted] at member ⊢
    split
    · next zero =>
      rw [if_pos zero] at member
      exact subset cell member
    · next marked =>
      rw [if_neg marked] at member
      simp only [Sight.tick, Sight.write, Sight.addAt, List.mem_cons, level] at member ⊢
      exact member.imp_right (subset cell)
  | _ => simp at busy

/-- The last cell that a reset clears is the one where it leaves the head. -/
theorem Instruction.shift_mem_tail_distances {instruction : Instruction}
    (sound : instruction.Sound) (opcode : instruction.opcode = .reset) :
    instruction.shift = 0 ∨ instruction.shift ∈ instruction.distances.tail := by
  obtain ⟨one, stride⟩ := sound.clearing opcode
  have shift : instruction.shift = (instruction.value - 1) * instruction.offset := by
    simp [Instruction.shift, opcode]
  rcases stride with ⟨single, -⟩ | ⟨several, -⟩
  · left
    rw [shift, single, Int.sub_self, Int.zero_mul]
  · right
    obtain ⟨count, enough⟩ : ∃ count : Nat, instruction.value = count + 2 :=
      ⟨(instruction.value - 2).toNat, by omega⟩
    have last : instruction.value.toNat = count + 1 + 1 := by omega
    have value : instruction.value - 1 = ((count + 1 : Nat) : Int) := by omega
    rw [distances, last, List.range_succ_eq_map, List.map_cons, List.tail_cons, List.mem_map]
    exact ⟨count + 1, List.mem_map.mpr ⟨count, List.mem_range.mpr (Nat.lt_succ_self _), rfl⟩,
      by rw [shift, value]⟩

/-- An instruction that moves the head gets to the cell where it leaves the head. -/
theorem Instruction.mem_visited_sweep {inner : Bool} {instruction : Instruction}
    (sound : instruction.Sound) (straight : instruction.opcode.IsStraight inner) (register : UInt8)
    (sight : Sight) :
    instruction.shift = 0 ∨
      sight.index + instruction.shift ∈ (instruction.sweep register sight).visited := by
  have last := shift_mem_tail_distances sound
  rcases instruction with ⟨opcode, value, offset, link⟩
  cases opcode with
  | move => exact .inr (List.mem_cons_self ..)
  | reset =>
    exact (last rfl).imp_right fun member =>
      List.mem_append_left _ (List.mem_map.mpr ⟨_, member, rfl⟩)
  | add | set | multiply | store => exact .inl rfl
  | _ => cases inner <;> simp [Opcode.IsStraight] at straight

theorem Code.cost_le_sweep {inner : Bool} {code : Code} (straight : code.Straight inner)
    (keep : Bool) (register : UInt8) (sight : Sight) :
    sight.cost ≤ (code.sweep keep register sight).cost := by
  induction code generalizing inner register sight with
  | empty => exact Nat.le_refl _
  | plain before instruction ih =>
    rw [sweep, Instruction.cost_sweep straight.2.1]
    exact Nat.le_succ_of_le (ih straight.1 register sight)
  | loop before body _ _ => exact straight.elim
  | region before fast body ihBefore ihBody =>
    have early := ihBefore straight.1 register sight
    simp only [sweep]
    split
    · exact Nat.le_succ_of_le early
    · have late := ihBody straight.2.2.2.1 (before.sweep keep register sight).cell
        ((before.sweep keep register sight).enter fast)
      rw [Sight.cost_enter] at late
      simp only [Sight.leave]
      omega

theorem Code.visited_subset_sweep {inner : Bool} {code : Code} (straight : code.Straight inner)
    (keep : Bool) (register : UInt8) (sight : Sight) (cell : Int) (member : cell ∈ sight.visited) :
    cell ∈ (code.sweep keep register sight).visited := by
  induction code generalizing inner register sight with
  | empty => exact member
  | plain before instruction ih =>
    exact Instruction.visited_subset_sweep straight.2.1 _ _ _ (ih straight.1 _ _ member)
  | loop before body _ _ => exact straight.elim
  | region before fast body ihBefore ihBody =>
    have early := ihBefore straight.1 register sight member
    simp only [sweep]
    split
    · exact early
    · have late := ihBody straight.2.2.2.1 (before.sweep keep register sight).cell
        ((before.sweep keep register sight).enter fast) (by rwa [Sight.visited_enter])
      rwa [Sight.visited_leave]

/-- What can have become of a cell behind the inside of a region: it is as it was, unless a product
was added to it, or it is a counter and zero, or it was assigned. -/
def Code.Fates (code : Code) (keep : Bool) (register : UInt8) (sight : Sight) (cell : Int) : Prop :=
  (code.sweep keep register sight).cells cell = sight.cells cell ∨
    code.Targets (cell - sight.index) ∨
    (code.Counts (cell - sight.index) ∧ (code.sweep keep register sight).cells cell = 0) ∨
    code.Assigns (cell - sight.index) ((code.sweep keep register sight).cells cell)

section Region

variable {before body : Code} {inner fast keep : Bool} {register : UInt8} {sight : Sight}
  (straight : (before.region fast body).Straight inner)

include straight

/-- Behind a region its counter is zero. -/
theorem Code.cells_region_counter
    (inside : ∀ register sight cell, body.Fates keep register sight cell) :
    ((before.region fast body).sweep keep register sight).cells (sight.index + before.shift) = 0 := by
  obtain ⟨early, -, -, within, back, alone⟩ := straight
  have here := index_sweep early keep register sight
  simp only [sweep, ← here]
  generalize before.sweep keep register sight = outer
  by_cases zero : outer.cell = 0
  · rw [if_pos zero]
    exact zero
  · rw [if_neg zero]
    have index := index_sweep within keep outer.cell (outer.enter fast)
    have fates := inside outer.cell (outer.enter fast) outer.index
    rw [back, Int.add_zero, Sight.index_enter] at index
    rw [Fates, Sight.index_enter, Int.sub_self] at fates
    rcases fates with same | target | ⟨-, none⟩ | assigned
    · exact Sight.cells_leave_counter keep fast index fun _ => same
    · exact (alone (.inr (.inl target))).elim
    · exact Sight.cells_leave_zero keep fast none
    · exact (alone (.inr (.inr ⟨_, assigned⟩))).elim

/-- Behind a region every other cell is as it was, or the inside decides what it is. -/
theorem Code.cells_region_cases
    (inside : ∀ register sight cell, body.Fates keep register sight cell) {cell : Int}
    (off : cell ≠ sight.index + before.shift) :
    ((before.region fast body).sweep keep register sight).cells cell =
        (before.sweep keep register sight).cells cell ∨
      body.Targets (cell - sight.index - before.shift) ∨
      (body.Counts (cell - sight.index - before.shift) ∧
        ((before.region fast body).sweep keep register sight).cells cell = 0) ∨
      body.Assigns (cell - sight.index - before.shift)
        (((before.region fast body).sweep keep register sight).cells cell) := by
  obtain ⟨early, -, -, within, back, -⟩ := straight
  have here := index_sweep early keep register sight
  have place : cell - sight.index - before.shift =
      cell - (before.sweep keep register sight).index := by omega
  rw [place]
  rw [← here] at off
  simp only [sweep]
  generalize before.sweep keep register sight = outer at off ⊢
  by_cases zero : outer.cell = 0
  · rw [if_pos zero]
    exact .inl rfl
  · rw [if_neg zero]
    have index := index_sweep within keep outer.cell (outer.enter fast)
    have fates := inside outer.cell (outer.enter fast) cell
    rw [back, Int.add_zero, Sight.index_enter] at index
    rw [Fates, Sight.index_enter, Sight.cells_enter_of_ne fast off] at fates
    rw [Sight.cells_leave_of_ne keep fast (index ▸ off)]
    exact fates

end Region

theorem Code.cells_sweep_cases {code : Code} (straight : code.Straight true) (keep : Bool)
    (register : UInt8) (sight : Sight) (cell : Int) : code.Fates keep register sight cell := by
  induction code generalizing register sight cell with
  | empty => exact .inl rfl
  | plain before instruction ih =>
    have place : cell - sight.index - before.shift =
        cell - (before.sweep keep register sight).index := by
      rw [index_sweep straight.1]
      omega
    rcases Instruction.cells_sweep_cases straight.2.1 register (before.sweep keep register sight)
      cell with same | target | ⟨store, here, zero⟩ | assigned
    · rw [Fates, sweep, same]
      rcases ih straight.1 register sight cell with same | target | ⟨counted, zero⟩ | assigned
      · exact .inl same
      · exact .inr (.inl (.inl target))
      · exact .inr (.inr (.inl ⟨.inl counted, zero⟩))
      · exact .inr (.inr (.inr (.inl assigned)))
    · exact .inr (.inl (.inr (place ▸ target)))
    · refine .inr (.inr (.inl ⟨.inr ⟨store, ?_⟩, zero⟩))
      rw [index_sweep straight.1] at here
      omega
    · exact .inr (.inr (.inr (.inr (place ▸ assigned))))
  | loop before body _ _ => exact straight.elim
  | region before fast body ihBefore ihBody =>
    have inside := ihBody straight.2.2.2.1
    by_cases here : cell = sight.index + before.shift
    · subst here
      refine .inr (.inr (.inl ⟨.inr (.inl (by omega)), ?_⟩))
      exact cells_region_counter straight inside
    · rcases cells_region_cases straight inside here with same | target | ⟨counted, zero⟩ | assigned
      · rw [Fates, same]
        rcases ihBefore straight.1 register sight cell with same | target | ⟨counted, zero⟩ | assigned
        · exact .inl same
        · exact .inr (.inl (.inl target))
        · exact .inr (.inr (.inl ⟨.inl counted, zero⟩))
        · exact .inr (.inr (.inr (.inl assigned)))
      · exact .inr (.inl (.inr target))
      · exact .inr (.inr (.inl ⟨.inr (.inr counted), zero⟩))
      · exact .inr (.inr (.inr (.inr assigned)))

end TapeMachine
