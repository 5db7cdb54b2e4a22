/-
**Coming to what a sight says.**

A straight code needs no terminal, and it breaks off only if it runs out of instructions or an index
leaves its range. Both can be told from its sweep: how many instructions it takes, and which cells it
gets to.

* `Instruction.perform_of_isIndex`, `Instruction.perform_of_not_isIndex`: a single instruction;
* `Reaches`: a behavior comes to what a sight says, if it can;
* `Reaches.step`: one step more.
-/

import TapeMachine.Proofs.Behavior.Basic
import TapeMachine.Proofs.Code.Sweep
import TapeMachine.Proofs.Tape.Growth

namespace TapeMachine

/-- The run has the cells and the head of the sight. -/
structure Run.Shows (run : Run) (sight : Sight) : Prop where
  cells : ∀ cell, run.machine.head.tape.get cell = sight.cells cell
  index : run.machine.head.index = sight.index

theorem Run.Shows.cell {run : Run} {sight : Sight} (shows : run.Shows sight) :
    run.cell = sight.cell := by
  rw [Run.cell_eq_get, shows.cells, shows.index, Sight.cell]

/-- Every cell that was visited has an index. -/
def Sight.InRange (sight : Sight) : Prop :=
  ∀ cell ∈ sight.visited, Tape.IsIndex cell

/-- Writing the cell under the head. -/
theorem Head.get_write {head : Head} {sight : Sight}
    (cells : ∀ cell, head.tape.get cell = sight.cells cell) (index : head.index = sight.index)
    (value : UInt8) (cell : Int) :
    (head.write value).tape.get cell = Sight.put sight.cells sight.index value cell := by
  by_cases here : cell = sight.index
  · rw [here, Sight.put_self, ← index]
    exact Head.get_write_self head value
  · rw [Sight.put_of_ne here, Head.get_write_of_ne (index ▸ here), cells]

/-- Adding to a cell that has an index. -/
theorem Head.exists_addAt {head : Head} {sight : Sight}
    (cells : ∀ cell, head.tape.get cell = sight.cells cell) (index : head.index = sight.index)
    {distance : Int} (target : Tape.IsIndex (sight.index + distance)) (amount : UInt8) :
    ∃ changed, head.addAt distance amount = .ok changed ∧ changed.index = sight.index ∧
      (∀ cell, changed.tape.get cell = Sight.put sight.cells (sight.index + distance)
        (sight.cells (sight.index + distance) + amount) cell) ∧
      Head.Grows [sight.index + distance] head changed := by
  rw [← index] at target ⊢
  obtain ⟨changed, done⟩ := Head.addAt_ok_iff.mpr target
  refine ⟨changed, done, Head.index_addAt done, fun cell => ?_, Head.grows_addAt done⟩
  rw [Head.get_addAt done, cells]
  by_cases there : cell = head.index + distance
  · rw [if_pos there, there, Sight.put_self]
  · rw [if_neg there, Sight.put_of_ne there]

/-! ### Single instructions -/

namespace Instruction

theorem tail_distances (index offset : Int) (count link : Nat) :
    (distances ⟨.reset, count + 1, offset, link⟩).tail.map (index + ·) =
      Head.ahead index offset count := by
  rw [distances, show (count + 1 : Int).toNat = count + 1 from rfl, List.range_succ_eq_map]
  simp [Head.ahead, Function.comp_def]

theorem mem_distances {index offset cell : Int} {count link : Nat} :
    cell - index ∈ distances ⟨.reset, count + 1, offset, link⟩ ↔
      cell = index ∨ cell ∈ Head.ahead index offset count := by
  rw [distances, show (count + 1 : Int).toNat = count + 1 from rfl, List.range_succ_eq_map,
    List.map_cons, List.mem_cons, Head.mem_ahead]
  simp only [List.mem_map, List.mem_range]
  constructor
  · rintro (zero | ⟨place, ⟨turn, small, rfl⟩, same⟩)
    · left
      simp at zero
      omega
    · exact .inr ⟨turn, small, by rw [show ((turn + 1 : Nat) : Int) * offset = _ from same]; omega⟩
  · rintro (rfl | ⟨turn, small, rfl⟩)
    · left
      simp
    · exact .inr ⟨turn + 1, ⟨turn, small, rfl⟩, by omega⟩

/-- The run has become what the sweep of the instruction says, its register, stack and streams are as
they were, and its tape has only grown where the instruction gets to. -/
structure Done (instruction : Instruction) (register : UInt8) (sight : Sight) (run next : Run) :
    Prop where
  shows : next.Shows (instruction.sweep register sight)
  terminal : next.terminal = run.terminal
  register : next.machine.register = run.machine.register
  stack : next.machine.stack = run.machine.stack
  grows : Head.Grows (instruction.visits sight) run.machine.head next.machine.head

variable {inner : Bool} {instruction : Instruction} {run : Run} {sight : Sight} {register : UInt8}

/-- A store that moves its cell elsewhere, if it is not zero. -/
theorem perform_store (opcode : instruction.opcode = .store) (shows : run.Shows sight)
    (inside : ∀ cell ∈ instruction.visits sight, Tape.IsIndex cell) :
    ∃ next, Run.perform run.terminal (run.machine.step instruction) = .running next ∧
      instruction.Done register sight run next := by
  rcases run with ⟨⟨head, position, counter, stack⟩, terminal⟩
  rcases instruction with ⟨kind, value, offset, link⟩
  obtain rfl : kind = .store := opcode
  obtain ⟨cells, index⟩ := shows
  have under : head.read = sight.cell := by
    rw [Head.read_eq_get, Sight.cell, cells, index]
  by_cases zero : sight.cell = 0
  · refine ⟨⟨⟨head, position + 1, counter, stack⟩, terminal⟩, ?_, ?_, rfl, rfl, rfl, ?_⟩
    · simp only [Machine.step, under, if_pos zero]
      rfl
    · simp only [sweep, if_pos zero]
      exact ⟨cells, index⟩
    · simp only [visits, if_pos zero]
      exact Head.Grows.refl head
  · have visited : visits ⟨.store, value, offset, link⟩ sight = [sight.index + offset] := by
      simp only [visits, if_neg zero]
    rw [visited] at inside
    obtain ⟨changed, done, place, added, grows⟩ :=
      Head.exists_addAt cells index (inside _ (List.mem_singleton.mpr rfl))
        (sight.cell * UInt8.ofInt value)
    refine ⟨⟨⟨changed.write 0, position + 1, counter, stack⟩, terminal⟩, ?_, ?_, rfl, rfl, rfl,
      visited ▸ grows.trans (Head.grows_write changed 0)⟩
    · simp only [Machine.step, under, if_neg zero, done]
      rfl
    · simp only [sweep, if_neg zero]
      refine ⟨fun cell => ?_, place⟩
      by_cases here : cell = sight.index
      · refine Eq.trans ?_ ((congrArg _ here).trans (Sight.put_self _ _ _)).symm
        rw [here, ← place]
        exact Head.get_write_self changed 0
      · refine (Head.get_write_of_ne (place ▸ here) 0).trans ?_
        exact (added cell).trans (Sight.put_of_ne here _).symm

/-- A reset that clears its cells one after the other. -/
theorem perform_reset (opcode : instruction.opcode = .reset) (sound : instruction.Sound)
    (shows : run.Shows sight) (inside : ∀ cell ∈ instruction.visits sight, Tape.IsIndex cell) :
    ∃ next, Run.perform run.terminal (run.machine.step instruction) = .running next ∧
      instruction.Done register sight run next := by
  have one : 1 ≤ instruction.value := (sound.clearing opcode).1
  rcases run with ⟨⟨head, position, counter, stack⟩, terminal⟩
  rcases instruction with ⟨kind, value, offset, link⟩
  obtain rfl : kind = .reset := opcode
  obtain ⟨cells, index⟩ := shows
  obtain ⟨count, rfl⟩ : ∃ count : Nat, value = count + 1 :=
    ⟨(value - 1).toNat, by simp only at one; omega⟩
  have number : (count + 1 : Int).toNat = count + 1 := rfl
  have visited : visits ⟨.reset, count + 1, offset, link⟩ sight = Head.ahead head.index offset count := by
    simp only [visits, tail_distances, ← index]
  rw [visited] at inside
  obtain ⟨last, cleared, place, zeros, others, grows⟩ := Head.clearRun_of_isIndex inside
  refine ⟨⟨⟨last, position + 1, counter, stack⟩, terminal⟩, ?_, ?_, rfl, rfl, rfl, visited ▸ grows⟩
  · simp only [Machine.step, number, cleared]
    rfl
  · refine ⟨fun cell => ?_, ?_⟩
    · simp only [sweep, ← index, mem_distances]
      split
      · next visited => exact zeros cell visited
      · next apart =>
        rw [not_or] at apart
        exact (others cell apart.1 apart.2).trans (cells cell)
    · simp only [sweep, ← index, place, shift]
      rw [Int.add_sub_cancel]

theorem perform_of_isIndex (straight : instruction.opcode.IsStraight inner)
    (sound : instruction.Sound) (shows : run.Shows sight)
    (held : inner = true → run.machine.register = register)
    (inside : ∀ cell ∈ instruction.visits sight, Tape.IsIndex cell) :
    ∃ next, Run.perform run.terminal (run.machine.step instruction) = .running next ∧
      instruction.Done register sight run next := by
  have shown := shows
  rcases run with ⟨⟨head, position, counter, stack⟩, terminal⟩
  rcases instruction with ⟨opcode, value, offset, link⟩
  obtain ⟨cells, index⟩ := shows
  cases opcode with
  | move =>
    have target : Tape.IsIndex (head.index + value) :=
      index ▸ inside _ (List.mem_singleton.mpr rfl)
    have moved : head.advance value = .ok (head.moveTo (head.index + value)) :=
      Head.advance_of_isIndex target
    refine ⟨⟨⟨head.moveTo (head.index + value), position + 1, counter, stack⟩, terminal⟩, ?_, ?_,
      rfl, rfl, rfl, ?_⟩
    · simp only [Machine.step, moved]
      rfl
    · exact ⟨fun cell => (Head.get_moveTo ..).trans (cells cell), congrArg (· + value) index⟩
    · exact index ▸ Head.grows_moveTo head (head.index + value)
  | add =>
    refine ⟨_, rfl, ⟨?_, index⟩, rfl, rfl, rfl, Head.grows_write head _⟩
    have under : head.read = sight.cell := by
      rw [Head.read_eq_get, Sight.cell, cells, index]
    rw [under]
    exact Head.get_write cells index _
  | set =>
    exact ⟨_, rfl, ⟨Head.get_write cells index _, index⟩, rfl, rfl, rfl, Head.grows_write head _⟩
  | multiply =>
    have product : inner = true := by
      cases inner with
      | true => rfl
      | false => simp [Opcode.IsStraight] at straight
    obtain rfl : counter = register := held product
    obtain ⟨changed, done, place, added, grows⟩ :=
      Head.exists_addAt cells index (inside _ (List.mem_singleton.mpr rfl))
        (counter * UInt8.ofInt value)
    refine ⟨⟨⟨changed, position + 1, counter, stack⟩, terminal⟩, ?_, ⟨added, place⟩, rfl, rfl, rfl,
      grows⟩
    simp only [Machine.step, done]
    rfl
  | store => exact perform_store rfl shown inside
  | reset => exact perform_reset rfl sound shown inside
  | _ => cases inner <;> simp [Opcode.IsStraight] at straight

theorem perform_of_not_isIndex (straight : instruction.opcode.IsStraight inner)
    (sound : instruction.Sound) (shows : run.Shows sight)
    (outside : ¬ ∀ cell ∈ instruction.visits sight, Tape.IsIndex cell) :
    ∃ last, Run.perform run.terminal (run.machine.step instruction) = .ended .overflow last ∧
      last.terminal = run.terminal := by
  rcases run with ⟨⟨head, position, counter, stack⟩, terminal⟩
  rcases instruction with ⟨opcode, value, offset, link⟩
  obtain ⟨cells, index⟩ := shows
  have under : head.read = sight.cell := by
    rw [Head.read_eq_get, Sight.cell, cells, index]
  have stopped {distance : Int} {amount : UInt8} (outside : ¬ Tape.IsIndex (head.index + distance)) :
      head.addAt distance amount = .error head := Head.addAt_of_not_isIndex amount outside
  cases opcode with
  | move =>
    have target : ¬ Tape.IsIndex (head.index + value) := by
      rw [show head.index = sight.index from index]
      simpa [visits] using outside
    have moved : head.advance value = .error head := Head.advance_of_not_isIndex target
    refine ⟨_, ?_, rfl⟩
    simp only [Machine.step, moved]
    rfl
  | multiply =>
    have target : ¬ Tape.IsIndex (head.index + offset) := by
      rw [show head.index = sight.index from index]
      simpa [visits] using outside
    refine ⟨_, ?_, rfl⟩
    simp only [Machine.step, stopped target]
    rfl
  | store =>
    by_cases zero : sight.cell = 0
    · simp [visits, zero] at outside
    · have target : ¬ Tape.IsIndex (head.index + offset) := by
        rw [show head.index = sight.index from index]
        simpa [visits, zero] using outside
      refine ⟨_, ?_, rfl⟩
      simp only [Machine.step, under, if_neg zero, stopped target]
      rfl
  | reset =>
    have one : 1 ≤ value := (sound.clearing rfl).1
    obtain ⟨count, rfl⟩ : ∃ count : Nat, value = count + 1 := ⟨(value - 1).toNat, by omega⟩
    have number : (count + 1 : Int).toNat = count + 1 := rfl
    simp only [visits, tail_distances, ← index] at outside
    obtain ⟨last, lost⟩ := Head.clearRun_of_not_isIndex outside
    refine ⟨⟨⟨last, position, counter, stack⟩, terminal⟩, ?_, rfl⟩
    simp only [Machine.step, number, lost]
    rfl
  | add | set => exact (outside fun cell member => absurd member List.not_mem_nil).elim
  | _ => cases inner <;> simp [Opcode.IsStraight] at straight

end Instruction

/-! ### Coming to what a sight says -/

/-- From the start, the behavior comes to what the sight says, with its cost and to a machine that
holds, unless a cell that it gets to has no index or there are not enough instructions. -/
structure Reaches (behavior : Behavior) (start : Run) (sight : Sight) (held : Machine → Prop) :
    Prop where
  completes : sight.InRange → ∃ next : Run, next.Shows sight ∧ next.terminal = start.terminal ∧
    held next.machine ∧ Head.Grows sight.visited start.machine.head next.machine.head ∧
    ∀ left, behavior (left + sight.cost) start = .finished left next
  breaks : ∀ left, ¬ (sight.InRange ∧ sight.cost ≤ left) → ∃ last : Run,
    last.terminal = start.terminal ∧
      (left < sight.cost ∧ behavior left start = .broken (.running last) ∨
        ¬ sight.InRange ∧ behavior left start = .broken (.ended .overflow last))

/-- The cells of a run, before anything happened. -/
def Run.sight (run : Run) : Sight :=
  { cells := run.machine.head.tape.get, index := run.machine.head.index }

theorem reaches_skip {start : Run} {held : Machine → Prop} (holds : held start.machine) :
    Reaches Behavior.skip start start.sight held where
  completes _ := ⟨start, ⟨fun _ => rfl, rfl⟩, rfl, holds, Head.Grows.refl _, fun _ => rfl⟩
  breaks left stopped :=
    (stopped ⟨fun _ member => absurd member List.not_mem_nil, Nat.zero_le left⟩).elim

namespace Reaches

variable {behavior : Behavior} {start : Run} {sight : Sight} {held : Machine → Prop}

theorem imp (reaches : Reaches behavior start sight held) {holds : Machine → Prop}
    (weaker : ∀ machine, held machine → holds machine) : Reaches behavior start sight holds where
  completes inside := by
    obtain ⟨next, shows, terminal, meets, rest⟩ := reaches.completes inside
    exact ⟨next, shows, terminal, weaker _ meets, rest⟩
  breaks := reaches.breaks

/-- For what comes behind, only the run matters to which the behavior comes. -/
theorem congr (reaches : Reaches behavior start sight held) {one two : Behavior} {next : Sight}
    {holds : Machine → Prop}
    (agree : ∀ run, run.Shows sight → (∀ left, behavior (left + sight.cost) start = .finished left run) →
      ∀ left, one left run = two left run)
    (goes : Reaches (behavior.andThen two) start next holds) :
    Reaches (behavior.andThen one) start next holds := by
  have same (left : Nat) : behavior.andThen one left start = behavior.andThen two left start := by
    simp only [Behavior.andThen]
    by_cases completed : sight.InRange ∧ sight.cost ≤ left
    · obtain ⟨next, shows, -, -, -, done⟩ := reaches.completes completed.1
      obtain ⟨rest, rfl⟩ := Nat.exists_eq_add_of_le' completed.2
      rw [done]
      exact agree next shows done rest
    · obtain ⟨last, -, ⟨-, broken⟩ | ⟨-, broken⟩⟩ := reaches.breaks left completed <;> rw [broken] <;>
        rfl
  constructor
  · intro inside
    obtain ⟨after, shows, terminal, meets, grows, done⟩ := goes.completes inside
    exact ⟨after, shows, terminal, meets, grows, fun left => (same _).trans (done left)⟩
  · intro left stopped
    rw [same]
    exact goes.breaks left stopped

/-- One step more. It takes an instruction, gets to some cells, and overflows if it cannot. -/
theorem step (reaches : Reaches behavior start sight held) {next : Sight} {holds : Machine → Prop}
    {visits : List Int} {last : Behavior} (cost : next.cost = sight.cost + 1)
    (visited : next.visited = visits ++ sight.visited)
    (waits : ∀ run, last 0 run = .broken (.running run))
    (moves : ∀ run : Run, run.Shows sight → held run.machine →
      (∀ cell ∈ visits, Tape.IsIndex cell) → ∃ after : Run, after.Shows next ∧
        after.terminal = run.terminal ∧ holds after.machine ∧
        Head.Grows visits run.machine.head after.machine.head ∧
        ∀ left, last (left + 1) run = .finished left after)
    (leaves : ∀ run : Run, run.Shows sight → held run.machine →
      (¬ ∀ cell ∈ visits, Tape.IsIndex cell) → ∃ after : Run, after.terminal = run.terminal ∧
        ∀ left, last (left + 1) run = .broken (.ended .overflow after)) :
    Reaches (behavior.andThen last) start next holds where
  completes inside := by
    have early : sight.InRange := fun cell member =>
      inside cell (visited ▸ List.mem_append_right _ member)
    have late : ∀ cell ∈ visits, Tape.IsIndex cell := fun cell member =>
      inside cell (visited ▸ List.mem_append_left _ member)
    obtain ⟨between, shows, terminal, meets, grows, done⟩ := reaches.completes early
    obtain ⟨after, shown, still, keeps, grown, finished⟩ := moves between shows meets late
    refine ⟨after, shown, still.trans terminal, keeps, visited ▸ grows.trans grown, fun left => ?_⟩
    rw [Behavior.andThen, cost, show left + (sight.cost + 1) = left + 1 + sight.cost by omega, done]
    exact finished left
  breaks left stopped := by
    simp only [Behavior.andThen]
    by_cases completed : sight.InRange ∧ sight.cost ≤ left
    · obtain ⟨between, shows, terminal, meets, -, done⟩ := reaches.completes completed.1
      obtain ⟨rest, rfl⟩ := Nat.exists_eq_add_of_le' completed.2
      rw [done, Outcome.andThen_finished]
      cases rest with
      | zero => exact ⟨between, terminal, .inl ⟨by omega, waits between⟩⟩
      | succ rest =>
        have outside : ¬ next.InRange := fun inside => stopped ⟨inside, by omega⟩
        have late : ¬ ∀ cell ∈ visits, Tape.IsIndex cell := fun late => outside fun cell member => by
          rcases List.mem_append.mp (visited ▸ member) with new | old
          · exact late cell new
          · exact completed.1 cell old
        obtain ⟨after, still, broken⟩ := leaves between shows meets late
        exact ⟨after, still.trans terminal, .inr ⟨outside, broken rest⟩⟩
    · obtain ⟨final, terminal, ⟨less, broken⟩ | ⟨outside, broken⟩⟩ := reaches.breaks left completed
      · exact ⟨final, terminal, .inl ⟨by omega, by rw [broken]; rfl⟩⟩
      · refine ⟨final, terminal, .inr ⟨fun inside => outside fun cell member => ?_, by rw [broken]; rfl⟩⟩
        exact inside cell (visited ▸ List.mem_append_right _ member)

/-- A step that gets nowhere new always completes. -/
theorem stay (reaches : Reaches behavior start sight held) {next : Sight} {holds : Machine → Prop}
    {last : Behavior} (cost : next.cost = sight.cost + 1) (visited : next.visited = sight.visited)
    (waits : ∀ run, last 0 run = .broken (.running run))
    (moves : ∀ run : Run, run.Shows sight → held run.machine → ∃ after : Run, after.Shows next ∧
      after.terminal = run.terminal ∧ holds after.machine ∧
      Head.Grows [] run.machine.head after.machine.head ∧
      ∀ left, last (left + 1) run = .finished left after) :
    Reaches (behavior.andThen last) start next holds :=
  reaches.step cost (visited.trans (List.nil_append _).symm) waits (fun run shows meets _ => moves run shows meets)
    fun _ _ _ outside => (outside fun _ member => absurd member List.not_mem_nil).elim

end Reaches

end TapeMachine
