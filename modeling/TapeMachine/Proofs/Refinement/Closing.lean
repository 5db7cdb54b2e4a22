/-
**What becomes of a loop does what the loop did.**

* `Code.cell_of_exec`: behind a code that ends at zero, the cell is zero;
* `improves_wider`: a reset that takes in a neighbouring cell;
* `improves_of_closes`: so every way to close a loop improves it, as long as what is fused lasts.
-/

import TapeMachine.Proofs.Behavior.Text
import TapeMachine.Proofs.Refinement.Loops

namespace TapeMachine

/-! ### Codes that end at zero -/

theorem Head.read_clearRun {stride : Int} {count : Nat} {head next : Head}
    (cleared : clearRun stride (count + 1) head = .ok next) : next.read = 0 := by
  induction count generalizing head with
  | zero =>
    cases cleared
    exact read_write head 0
  | succ count ih =>
    rw [clearRun] at cleared
    split at cleared
    · exact ih cleared
    · cases cleared

namespace Behavior

/-- Instructions that leave the cell zero. -/
theorem cell_of_act {instruction : Instruction} (sound : instruction.Sound)
    (zero : instruction.leavesZero = true) (unlinked : instruction.opcode.isBoundary = false)
    {left rest : Nat} {run next : Run}
    (completed : act instruction left run = .finished rest next) : next.cell = 0 := by
  have performed := (act_eq_finished completed).2
  rcases run with ⟨⟨head, position, register, stack⟩, terminal⟩
  rcases instruction with ⟨opcode, value, offset, link⟩
  cases opcode with
  | set =>
    cases performed
    exact (Head.read_write head _).trans (of_decide_eq_true zero)
  | reset =>
    obtain ⟨count, more⟩ : ∃ count, value.toNat = count + 1 := by
      have one := (sound.clearing rfl).1
      exact ⟨value.toNat - 1, by simp only at one; omega⟩
    simp only [Machine.step, more] at performed
    cases cleared : Head.clearRun offset (count + 1) head with
    | error last =>
      rw [cleared] at performed
      cases performed
    | ok last =>
      rw [cleared] at performed
      cases performed
      exact Head.read_clearRun cleared
  | store =>
    simp only [Machine.step] at performed
    split at performed
    · next none =>
      cases performed
      exact none
    · cases added : head.addAt offset (head.read * UInt8.ofInt value) with
      | error last =>
        rw [added] at performed
        cases performed
      | ok last =>
        rw [added] at performed
        cases performed
        exact Head.read_write last 0
  | seek =>
    simp only [Machine.step, Head.seek] at performed
    cases walked : head.tape.walk value head.index with
    | found index =>
      rw [walked] at performed
      cases performed
      obtain ⟨-, -, none, -⟩ := Tape.exists_of_walk_eq_found walked
      refine (head.moveTo index).read_eq_get.trans ?_
      exact (Head.get_moveTo head index index).trans none
    | lost index =>
      rw [walked] at performed
      cases performed
    | never =>
      rw [walked] at performed
      cases performed
  | loopEnd | pop | popFast => cases unlinked
  | _ => cases zero

theorem cell_of_again {start : Nat} {body : Behavior} (spends : body.Spends) {left rest : Nat}
    {run next : Run} (completed : again start body left run = .finished rest next) :
    next.cell = 0 := by
  induction left using Nat.strongRecOn generalizing run with
  | ind left ih =>
    cases left with
    | zero => cases completed
    | succ left =>
      rw [again_succ spends] at completed
      split at completed
      · next zero =>
        cases completed
        exact zero
      · simp only [Behavior.andThen] at completed
        cases outcome : body left (run.hop start) with
        | broken progress =>
          rw [outcome] at completed
          cases completed
        | finished between middle =>
          rw [outcome] at completed
          exact ih between (Nat.lt_succ_of_le (spends _ _ _ _ outcome)) completed

/-- Behind a loop the cell is zero. -/
theorem cell_of_loop {size : Nat} {body : Behavior} (spends : body.Spends) {left rest : Nat}
    {run next : Run} (completed : loop size body left run = .finished rest next) :
    next.cell = 0 := by
  by_cases zero : run.cell = 0
  · cases left with
    | zero => cases completed
    | succ left =>
      rw [loop_succ spends, if_pos zero] at completed
      cases completed
      exact zero
  · rw [loop_eq_again spends zero] at completed
    exact cell_of_again spends completed

end Behavior

/-- Where a behavior completes, it has come to what the sight says. -/
theorem Reaches.shows_of_finished {behavior : Behavior} {start : Run} {sight : Sight}
    {held : Machine → Prop} (reaches : Reaches behavior start sight held) {left rest : Nat}
    {next : Run} (completed : behavior left start = .finished rest next) : next.Shows sight := by
  by_cases possible : sight.InRange ∧ sight.cost ≤ left
  · obtain ⟨other, shows, -, -, -, done⟩ := reaches.completes possible.1
    obtain ⟨spare, rfl⟩ := Nat.exists_eq_add_of_le' possible.2
    rw [done] at completed
    cases completed
    exact shows
  · obtain ⟨last, -, ⟨-, broken⟩ | ⟨-, broken⟩⟩ := reaches.breaks left possible <;>
      rw [broken] at completed <;> cases completed

namespace Code

/-- Behind a code that ends at zero, the cell is zero. -/
theorem cell_of_exec {code : Code} (zero : code.EndsAtZero) (proper : code.Proper) {left rest : Nat}
    {run next : Run} (completed : code.exec true left run = .finished rest next) :
    next.cell = 0 := by
  have behind {first second : Behavior} (completed : first.andThen second left run =
      .finished rest next) : ∃ between middle, first left run = .finished between middle ∧
        second between middle = .finished rest next := by
    simp only [Behavior.andThen] at completed
    cases outcome : first left run with
    | broken progress =>
      rw [outcome] at completed
      cases completed
    | finished between middle =>
      rw [outcome] at completed
      exact ⟨between, middle, rfl, completed⟩
  cases code with
  | empty => exact zero.elim
  | plain before last =>
    obtain ⟨_, _, -, done⟩ := behind completed
    exact Behavior.cell_of_act proper.2.2 zero (unlinked_of_proper proper).2 done
  | loop before body =>
    obtain ⟨_, _, -, done⟩ := behind completed
    exact Behavior.cell_of_loop (body.spends_exec true) done
  | region before fast body =>
    obtain ⟨between, middle, -, done⟩ := behind completed
    obtain ⟨-, leaf, straight, back, alone⟩ := proper
    have level : (Code.empty.region fast body).Straight false :=
      ⟨trivial, by rintro ⟨⟩, leaf, straight, back, alone⟩
    have shows := (reaches_exec_self level true middle).shows_of_finished done
    have counter : ((Code.empty.region fast body).sweep true 0 middle.sight).cells
        (middle.sight.index + Code.empty.shift) = 0 :=
      cells_region_counter level fun register sight cell =>
        cells_sweep_cases straight true register sight cell
    have index := index_sweep level true 0 middle.sight
    have still : (Code.empty.region fast body).shift = 0 := by
      simp only [shift, back]
      rfl
    rw [still, Int.add_zero] at index
    rw [shows.cell, Sight.cell, index]
    exact (congrArg _ (Int.add_zero _).symm).trans counter

/-! ### Codes one behind another -/

theorem exec_append (keep : Bool) (first second : Code) :
    (first ++ second).exec keep = (first.exec keep).andThen (second.exec keep) := by
  induction second with
  | empty => exact (Behavior.andThen_skip _).symm
  | plain before instruction ih => rw [append_plain, exec, ih, Behavior.andThen_assoc, exec]
  | loop before body ihBefore _ => rw [append_loop, exec, ihBefore, Behavior.andThen_assoc, exec]
  | region before fast body ihBefore _ =>
    rw [append_region, exec, ihBefore, Behavior.andThen_assoc, exec]

/-- Straight codes are compared by their sweeps. -/
theorem refines_of_sweep {clear : Bool} {better worse : Code} (here : better.Straight false)
    (there : worse.Straight false)
    (improves : ∀ sight, (better.sweep true 0 sight).Improves (worse.sweep true 0 sight)) :
    Behavior.Refines clear (better.exec true) (worse.exec true) :=
  Behavior.refines_of_reaches _ _ 0 0 (reaches_exec_self here true) (reaches_exec_self there true)
    improves (better.extends_exec true)

end Code

/-! ### Resets that take in a neighbour -/

theorem sweep_wider {reset move : Instruction} (sound : reset.Sound) (opcode : reset.opcode = .reset)
    (moves : move.opcode = .move) (near : move.value.natAbs = 1)
    (stride : reset.offset = 0 ∨ reset.offset = move.value) (sight : Sight) :
    ((Code.empty.plain { reset with value := reset.value + 1, offset := move.value }).sweep true 0
        sight).Improves
      ((((Code.empty.plain reset).plain move).plain { opcode := .reset, value := 1 }).sweep true 0
        sight) := by
  obtain ⟨one, operands⟩ := sound.clearing opcode
  rcases reset with ⟨_, value, offset, link⟩
  rcases move with ⟨_, distance, _, _⟩
  obtain rfl : _ = Opcode.reset := opcode
  obtain rfl : _ = Opcode.move := moves
  simp only at one operands near stride
  obtain ⟨count, rfl⟩ : ∃ count : Nat, value = count + 1 := ⟨(value - 1).toNat, by omega⟩
  have same (turn : Nat) (small : turn ≤ count) : (turn : Int) * offset = turn * distance := by
    by_cases none : turn = 0
    · rw [none]
      simp
    · have several : offset = distance := by omega
      rw [several]
  have last : sight.index + ((count : Int) + 1 - 1) * offset + distance =
      sight.index + ((count + 1 : Nat) : Int) * distance := by
    have whole := same count (Nat.le_refl _)
    rw [Int.add_sub_cancel, whole, Int.natCast_add, Int.add_mul]
    omega
  have wider : ((count : Int) + 1 + 1) = ((count + 1 : Nat) : Int) + 1 := by omega
  have single (cell index : Int) :
      cell - index ∈ Instruction.distances ⟨.reset, 1, 0, 0⟩ ↔ cell = index := by
    simp [Instruction.distances]
    omega
  have passed (cell : Int) : cell ∈ Head.ahead sight.index distance (count + 1) ↔
      cell = sight.index + ((count + 1 : Nat) : Int) * distance ∨
        cell ∈ Head.ahead sight.index offset count := by
    rw [Head.mem_ahead, Head.mem_ahead]
    constructor
    · rintro ⟨turn, small, rfl⟩
      by_cases final : turn = count
      · exact .inl (by rw [final])
      · exact .inr ⟨turn, by omega, by rw [same (turn + 1) (by omega)]⟩
    · rintro (rfl | ⟨turn, small, rfl⟩)
      · exact ⟨count, Nat.lt_succ_self _, rfl⟩
      · exact ⟨turn, by omega, by rw [same (turn + 1) (by omega)]⟩
  simp only [Code.sweep, Instruction.sweep, Instruction.shift, Sight.advance, Sight.tick, wider, last]
  refine ⟨?_, ?_, ?_, ?_⟩
  · funext cell
    simp only [single, Instruction.mem_distances, passed]
    by_cases there : cell = sight.index + ((count + 1 : Nat) : Int) * distance
    · simp only [there, true_or, or_true, if_true]
    · simp only [there, false_or, if_false]
  · simp only [Int.add_sub_cancel, Int.sub_self, Int.zero_mul, Int.add_zero]
  · simp only
    omega
  · intro cell
    rw [Instruction.tail_distances, Instruction.tail_distances]
    simp only [List.mem_append, passed, List.mem_cons]
    intro member
    exact .inr (or_assoc.mp member)

/-! ### Closing loops -/

namespace Code

variable {outer body : Code} {clear : Bool}

/-- What stands behind a code may be improved. -/
theorem improves_append {one two : Code} (improves : Behavior.Improves false (one.exec true) (two.exec true)) :
    Behavior.Improves clear ((outer ++ one).exec true) ((outer ++ two).exec true) := by
  rw [exec_append, exec_append]
  exact improves.behind

/-- A loop behind a zero cell may be left out. -/
theorem improves_dead (zero : outer.EndsAtZero) (proper : outer.Proper) :
    Behavior.Improves clear (outer.exec true) ((outer.loop body).exec true) := by
  intro left run _
  simp only [exec, Behavior.andThen]
  cases outcome : outer.exec true left run with
  | broken progress => exact .refl _
  | finished rest next =>
    exact Behavior.refines_loop_of_zero (cell_of_exec zero proper outcome)

/-- A reset that takes in a neighbour does what the reset, the step and the loop do. -/
theorem improves_wider {before : Code} {step reset move : Instruction} (sound : reset.Sound)
    (sole : body = Code.empty.plain step) (adds : step.opcode = .add)
    (behind : outer = (before.plain reset).plain move) (opcode : reset.opcode = .reset)
    (moves : move.opcode = .move) (moving : move.Sound) (near : move.value.natAbs = 1)
    (stride : reset.offset = 0 ∨ reset.offset = move.value) :
    Behavior.Improves clear
      ((before.plain { reset with value := reset.value + 1, offset := move.value }).exec true)
      ((outer.loop body).exec true) := by
  have here : (Code.empty.plain { reset with value := reset.value + 1, offset := move.value }).Straight
      false := ⟨trivial, .inl (by simp [opcode]), sound.wider opcode near stride⟩
  have there : (((Code.empty.plain reset).plain move).plain { opcode := .reset, value := 1 }).Straight
      false :=
    ⟨⟨⟨trivial, .inl (by simp [opcode]), sound⟩, .inl (by simp [moves]), moving⟩, .inl (by simp),
      .single⟩
  have joined : Behavior.Refines false _ _ :=
    refines_of_sweep here there (sweep_wider sound opcode moves near stride)
  have cleared : Behavior.Improves false (Behavior.act { opcode := .reset, value := 1 })
      (Behavior.loop (body.size true) (body.exec true)) := by
    rw [sole]
    exact Behavior.improves_reset adds _
  have whole : Behavior.Improves false _
      ((((Code.empty.plain reset).plain move).loop body).exec true) :=
    joined.improves.trans cleared.behind
  have later : Behavior.Improves clear ((before ++ _).exec true) ((before ++ _).exec true) :=
    improves_append whole
  rw [behind]
  exact later

/-- **Every way to close a loop improves it**, if what is fused lasts. At the start of the program the
first loop may be left out, provided that runs begin on a zero cell. -/
theorem improves_of_closes {passes : Passes} {may : Code → Prop} {outermost : Bool} {code : Code}
    (closes : Closes passes may outermost outer body code) (around : outer.Proper)
    (inside : body.Proper) (lasts : may body → body.Straight false → ∀ cell, body.Lasts cell)
    (begins : outermost = true → passes .commentBlock = true → clear = true) :
    Behavior.Improves clear (code.exec true) ((outer.loop body).exec true) := by
  have adds {step : Instruction} (odd : Loop.addsOdd step = true) : step.opcode = .add := by
    simp only [Loop.addsOdd, Bool.and_eq_true, decide_eq_true_eq] at odd
    exact odd.1
  cases closes with
  | kept => exact .refl _
  | first enabled top start =>
    intro left run blank
    rw [start]
    exact Behavior.refines_loop_of_zero (blank (begins top enabled))
  | dead enabled zero => exact improves_dead zero around
  | @again before step reset enabled sole odd behind opcode single =>
    refine improves_dead ?_ around
    rw [behind]
    show reset.leavesZero = true
    unfold Instruction.leavesZero
    rw [opcode]
  | wider enabled sole odd behind opcode moves near stride =>
    have proper := behind ▸ around
    exact improves_wider proper.1.2.2 sole (adds odd) behind opcode moves proper.2.2 near stride
  | cleared enabled sole odd =>
    have cleared : Behavior.Improves false
        ((Code.empty.plain { opcode := .reset, value := 1 }).exec true)
        ((Code.empty.loop body).exec true) := by
      rw [sole]
      exact Behavior.improves_reset (adds odd) _
    exact improves_append cleared
  | @sought step enabled sole opcode =>
    have sound : step.Sound := (sole ▸ inside).2.2
    have sought : Behavior.Improves false
        ((Code.empty.plain { opcode := .seek, value := step.value }).exec true)
        ((Code.empty.loop body).exec true) := by
      rw [sole]
      exact Behavior.improves_seek opcode (sound.moving (by simp [opcode])) _
    exact improves_append sought
  | fused enabled counted fusible =>
    have fused : Behavior.Refines false (body.fuse.exec true) ((Code.empty.loop body).exec true) :=
      Behavior.refines_of_reaches (body.fuse.sweep true 0)
        (fun sight => body.rounds sight.cell.toNat sight.tick) 0 0
        (reaches_exec_self counted.straight_fuse true) (reaches_loop_self counted)
        (counted.improves_fuse (lasts fusible counted.straight)) (body.fuse.extends_exec true)
    exact improves_append fused.improves
  | emptied enabled nothing =>
    have emptied : Behavior.Improves false (Code.empty.exec true)
        ((Code.empty.loop body).exec true) := by
      rw [nothing]
      exact Behavior.improves_empty _
    exact improves_append emptied

end Code

end TapeMachine
