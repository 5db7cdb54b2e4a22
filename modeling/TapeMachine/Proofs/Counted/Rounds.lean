/-
**All turns of a counted loop at once.**

A counted loop is done as many times as its counter says. The region that replaces it does the woven
body once, and comes to the same cells with the head in the same place, with no more instructions and
without getting to other cells.

* `Code.Counted`: what a loop body must be;
* `Code.rounds`: the turns of the loop;
* `Code.improves_region`: the region, and `Code.improves_store`: the single `store`, if the region has
  but one product in it.
-/

import TapeMachine.Proofs.Counted.Weave
import TapeMachine.Proofs.Counted.Settle

namespace TapeMachine

/-- The same cells and head come about with no more instructions and visits. -/
structure Sight.Improves (better worse : Sight) : Prop where
  cells : better.cells = worse.cells
  index : better.index = worse.index
  cost : better.cost ≤ worse.cost
  visited : ∀ cell ∈ better.visited, cell ∈ worse.visited

namespace Code

/-- The body of a counted loop: it comes back to the counter, takes one from it, works on other cells
and can be repeated. -/
structure Counted (body : Code) : Prop where
  straight : body.Straight false
  back : body.shift = 0
  total : UInt8.ofInt (body.gain 0) = -1
  apart : ¬ body.Touches 0
  repeats : body.Repeats

/-! ### Turns -/

/-- One turn: the body, and the end of the loop. -/
def turn (body : Code) (sight : Sight) : Sight := (body.sweep true 0 sight).tick

/-- A number of turns. -/
def rounds (body : Code) : Nat → Sight → Sight
  | 0, sight => sight
  | count + 1, sight => body.rounds count (body.turn sight)

section Turns

variable {body : Code} (counted : body.Counted)

include counted

theorem index_turn (sight : Sight) : (body.turn sight).index = sight.index := by
  have moved := index_sweep counted.straight true 0 sight
  rw [counted.back, Int.add_zero] at moved
  exact moved

theorem index_rounds (count : Nat) (sight : Sight) :
    (body.rounds count sight).index = sight.index := by
  induction count generalizing sight with
  | zero => rfl
  | succ count ih => rw [rounds, ih, index_turn counted]

/-- The first turn, beside the woven body. -/
theorem trails_turn {start other : Sight} (level : other.index = start.index)
    (same : ∀ cell, cell ≠ start.index → other.cells cell = start.cells cell)
    (cost : other.cost ≤ start.cost) (visited : ∀ cell ∈ other.visited, cell ∈ start.visited)
    (factor : UInt8) :
    Trails (fun cell => body.Touches (cell - start.index)) factor start other body body.shift
      (body.sweep true 0 start) ((body.weave.moveTo body.shift).code.sweep true factor other) := by
  have place (cell : Int) : start.index + cell - start.index = cell := by omega
  refine (trails_sweep counted.straight level ?_ cost visited ?_ ?_ ?_).moveTo
  · intro cell touches
    refine same cell ?_
    rintro rfl
    rw [Int.sub_self] at touches
    exact counted.apart touches
  · intro cell touches
    rwa [place]
  · intro cell adds touches
    rw [place] at touches
    exact counted.repeats.away cell touches adds
  · rintro ⟨⟩

theorem cells_turn_of_free {sight : Sight} {cell : Int}
    (free : ¬ body.Touches (cell - sight.index)) :
    (body.turn sight).cells cell =
      sight.cells cell + UInt8.ofInt (body.gain (cell - sight.index)) :=
  (trails_turn counted rfl (fun _ _ => rfl) (Nat.le_refl _) (fun _ => id) 0).free cell free

theorem cells_rounds_of_free (count : Nat) {sight : Sight} {cell : Int}
    (free : ¬ body.Touches (cell - sight.index)) :
    (body.rounds count sight).cells cell =
      sight.cells cell + UInt8.ofNat count * UInt8.ofInt (body.gain (cell - sight.index)) := by
  induction count generalizing sight with
  | zero =>
    have none : UInt8.ofNat 0 = 0 := rfl
    rw [none, UInt8.zero_mul, UInt8.add_zero]
    rfl
  | succ count ih =>
    have index := index_turn counted sight
    rw [rounds, ih (by rwa [index]), index, cells_turn_of_free counted free, UInt8.ofNat_add]
    have one : UInt8.ofNat 1 = 1 := rfl
    rw [one]
    grind

theorem cells_rounds_of_settled (lasts : ∀ cell, body.Lasts cell) (count : Nat) {sight : Sight}
    (settled : body.Settled sight.index sight.cells) {cell : Int}
    (touches : body.Touches (cell - sight.index)) :
    (body.rounds count sight).cells cell = sight.cells cell := by
  induction count generalizing sight with
  | zero => rfl
  | succ count ih =>
    have index := index_turn counted sight
    have again := settled_sweep counted.straight counted.repeats lasts true 0 sight
    have same := cells_sweep_of_settled counted.straight counted.repeats true 0 settled touches
    have place : sight.index + (cell - sight.index) = cell := by omega
    rw [place] at same
    rw [rounds, ih (by rwa [index]) (by rwa [index])]
    exact same

theorem cell_turn (sight : Sight) : (body.turn sight).cell = sight.cell - 1 := by
  have free : ¬ body.Touches (sight.index - sight.index) := by
    rw [Int.sub_self]
    exact counted.apart
  rw [Sight.cell, index_turn counted, cells_turn_of_free counted free, Int.sub_self, counted.total,
    UInt8.sub_eq_add_neg]
  rfl

/-- Turns cost something, and get to more and more cells. -/
theorem cost_le_rounds (count : Nat) (sight : Sight) :
    sight.cost ≤ (body.rounds count sight).cost := by
  induction count generalizing sight with
  | zero => exact Nat.le_refl _
  | succ count ih =>
    have once := cost_le_sweep counted.straight true 0 sight
    exact Nat.le_trans (Nat.le_succ_of_le once) (ih (body.turn sight))

theorem visited_subset_rounds (count : Nat) (sight : Sight) (cell : Int)
    (member : cell ∈ sight.visited) : cell ∈ (body.rounds count sight).visited := by
  induction count generalizing sight with
  | zero => exact member
  | succ count ih =>
    exact ih (body.turn sight) (visited_subset_sweep counted.straight true 0 sight cell member)

/-- Behind the last turn the counter is zero. -/
theorem cells_rounds_counter (sight : Sight) :
    (body.rounds sight.cell.toNat sight.tick).cells sight.index = 0 := by
  have free : ¬ body.Touches (sight.index - sight.tick.index) := by
    rw [show sight.index - sight.tick.index = 0 from Int.sub_self _]
    exact counted.apart
  rw [cells_rounds_of_free counted _ free, UInt8.ofNat_toNat,
    show sight.index - sight.tick.index = 0 from Int.sub_self _, counted.total]
  have spent : sight.cell + sight.cell * -1 = 0 := by grind
  exact spent

/-! ### The region -/

/-- The region does what all turns of the loop do. -/
theorem improves_region (lasts : ∀ cell, body.Lasts cell) (fast : Bool) {sight : Sight}
    (marked : sight.cell ≠ 0) :
    (((body.weave.moveTo body.shift).code.sweep true sight.cell (sight.enter fast)).leave true
        fast).Improves (body.rounds sight.cell.toNat sight.tick) := by
  have enterCells (cell : Int) (off : cell ≠ sight.index) :
      (sight.enter fast).cells cell = sight.cells cell := Sight.cells_enter_of_ne fast off
  have level : (sight.enter fast).index = sight.tick.index := Sight.index_enter fast sight
  have cost : (sight.enter fast).cost ≤ sight.tick.cost := Nat.le_of_eq (Sight.cost_enter fast sight)
  have visited : ∀ cell ∈ (sight.enter fast).visited, cell ∈ sight.tick.visited := by
    rw [Sight.visited_enter]
    exact fun _ => id
  have trails := trails_turn counted level enterCells cost visited sight.cell
  generalize (body.weave.moveTo body.shift).code.sweep true sight.cell (sight.enter fast) = trail
    at trails ⊢
  have index : trail.index = sight.index := by
    rw [trails.there, counted.back, Int.add_zero]
    rfl
  have enough : sight.cell.toNat ≠ 0 := fun zero => marked (UInt8.toNat_inj.mp zero)
  obtain ⟨count, turns⟩ : ∃ count, sight.cell.toNat = count + 1 :=
    ⟨sight.cell.toNat - 1, by omega⟩
  have counter : UInt8.ofNat (count + 1) = sight.cell := by rw [← turns, UInt8.ofNat_toNat]
  have first := index_turn counted sight.tick
  rw [turns]
  refine ⟨?_, ?_, ?_, ?_⟩
  · funext cell
    by_cases under : cell = sight.index
    · rw [under, ← turns, cells_rounds_counter counted]
      refine Sight.cells_leave_counter true fast index fun _ => ?_
      have free : ¬ body.Touches (sight.tick.index - sight.tick.index) := by
        rw [Int.sub_self]
        exact counted.apart
      have early := trails.product sight.tick.index free
      rwa [if_pos rfl, UInt8.add_zero] at early
    · rw [Sight.cells_leave_of_ne true fast (index ▸ under)]
      by_cases touches : body.Touches (cell - sight.index)
      · have settled := settled_sweep counted.straight counted.repeats lasts true 0 sight.tick
        rw [rounds, cells_rounds_of_settled counted lasts count (by rwa [first]) (by rwa [first]),
          trails.same cell touches]
        rfl
      · have free : ¬ body.Touches (cell - sight.tick.index) := touches
        have off : cell ≠ sight.tick.index := under
        rw [cells_rounds_of_free counted _ free, counter, trails.product cell free, if_neg off,
          enterCells cell under]
        rfl
  · rw [index_rounds counted, Sight.index_leave]
    exact index
  · have late := cost_le_rounds counted count (body.turn sight.tick)
    have early := trails.cost
    rw [if_pos rfl] at early
    have paid : (body.turn sight.tick).cost = (body.sweep true 0 sight.tick).cost + 1 := rfl
    rw [rounds, Sight.cost_leave]
    omega
  · intro cell member
    refine visited_subset_rounds counted count (body.turn sight.tick) cell ?_
    rw [Sight.visited_leave] at member
    exact trails.visited cell member

/-- Where the region has but one product in it, so does a single `store`. -/
theorem improves_store (lasts : ∀ cell, body.Lasts cell) {product : Instruction}
    (opcode : product.opcode = .multiply)
    (sole : (body.weave.moveTo body.shift).code = Code.empty.plain product) {sight : Sight}
    (marked : sight.cell ≠ 0) :
    (Instruction.sweep 0 { opcode := .store, value := product.value, offset := product.offset }
        sight).Improves (body.rounds sight.cell.toNat sight.tick) := by
  have region := improves_region counted lasts true marked
  rw [sole] at region
  have swept : (Code.empty.plain product).sweep true sight.cell (sight.enter true) =
      ((sight.enter true).addAt product.offset
        (sight.cell * UInt8.ofInt product.value)).tick := by
    simp [sweep, Instruction.sweep, opcode]
  rw [swept] at region
  have stored : Instruction.sweep 0
      { opcode := .store, value := product.value, offset := product.offset } sight =
        ((sight.addAt product.offset (sight.cell * UInt8.ofInt product.value)).write 0).tick := by
    simp [Instruction.sweep, marked]
  rw [stored]
  refine ⟨?_, region.index, ?_, region.visited⟩
  · funext cell
    by_cases under : cell = sight.index
    · rw [under, cells_rounds_counter counted]
      exact Sight.put_self _ _ _
    · rw [← region.cells]
      refine (Sight.put_of_ne under _).trans ?_
      by_cases target : cell = sight.index + product.offset
      · have off : sight.index + product.offset ≠ sight.index := target ▸ under
        rw [target]
        refine (Sight.put_self _ _ _).trans (.symm ((Sight.put_self _ _ _).trans ?_))
        exact congrArg (· + _) (Sight.put_of_ne off _)
      · refine (Sight.put_of_ne target _).trans (.symm ((Sight.put_of_ne target _).trans ?_))
        exact Sight.put_of_ne under _
  · exact cost_le_rounds counted _ sight.tick

end Turns

end Code

end TapeMachine
