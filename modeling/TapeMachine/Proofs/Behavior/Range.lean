/-
**The range of indexes.**

A head that begins on an index stays on indexes: where an instruction would lead it out of their range,
the run is given up.

* `Instruction.distance?`: how far the head goes in one move of an instruction;
* `Head.Kept`: the head is on an index, and if an operation was given up, its next move leads out;
* `Step.Ranges`, `ranges_step`: so it is behind every instruction;
* `isIndex_of_advance`: so it is all along a run;
* `Run.Escapes`, `escapes_of_advance`: what an overflow is, unless a link leads behind all positions.
-/

import TapeMachine.Program
import TapeMachine.Proofs.Behavior.Advance
import TapeMachine.Proofs.Tape.Seeking

namespace TapeMachine

/-- How far the head goes in one move of an instruction, if there is one. -/
def Instruction.distance? (instruction : Instruction) : Option Int :=
  match instruction.opcode with
  | .move | .seek => some instruction.value
  | .reset | .multiply | .store => some instruction.offset
  | _ => none

/-! ### Heads -/

namespace Head

variable {head : Head} {distance : Int}

/-- The head is on an index, and if it was given up, the next move leads out of their range. -/
def Kept (distance : Int) : Except Head Head → Prop
  | .ok head => Tape.IsIndex head.index
  | .error head => Tape.IsIndex head.index ∧ ¬ Tape.IsIndex (head.index + distance)

section Operations

variable (inside : Tape.IsIndex head.index)

include inside

theorem kept_advance (distance : Int) : Kept distance (head.advance distance) := by
  by_cases next : Tape.IsIndex (head.index + distance)
  · rw [advance_of_isIndex next]
    exact next
  · rw [advance_of_not_isIndex next]
    exact ⟨inside, next⟩

theorem kept_addAt (distance : Int) (amount : UInt8) : Kept distance (head.addAt distance amount) := by
  by_cases next : Tape.IsIndex (head.index + distance)
  · rw [addAt_of_isIndex amount next]
    exact inside
  · rw [addAt_of_not_isIndex amount next]
    exact ⟨inside, next⟩

theorem kept_clearRun (stride : Int) (count : Nat) : Kept stride (clearRun stride count head) := by
  induction count generalizing head with
  | zero => exact inside
  | succ count ih =>
    cases count with
    | zero => exact inside
    | succ count =>
      have moved := @kept_advance (head.write 0) inside stride
      rw [clearRun]
      cases outcome : (head.write 0).advance stride with
      | ok next =>
        rw [outcome] at moved
        exact ih moved
      | error last =>
        rw [outcome] at moved
        exact moved

theorem kept_seek {outcome : Except Head Head} {stride : Int}
    (sought : head.seek stride = some outcome) : Kept stride outcome := by
  unfold seek at sought
  cases walked : head.tape.walk stride head.index with
  | found index =>
    rw [walked] at sought
    obtain rfl := Option.some.inj sought
    exact (Tape.isIndex_of_walk inside).1 walked
  | lost index =>
    rw [walked] at sought
    obtain rfl := Option.some.inj sought
    exact (Tape.isIndex_of_walk inside).2 walked
  | never =>
    rw [walked] at sought
    cases sought

end Operations

/-- Writing makes no difference. -/
theorem Kept.write {outcome : Except Head Head} (kept : Kept distance outcome) (value : UInt8) :
    Kept distance (outcome.map (·.write value)) := by
  cases outcome <;> exact kept

end Head

/-! ### Single instructions -/

/-- Behind an instruction at the position the head is on an index, and if the run is given up, it is
because a link leads behind all positions, or a move of the head behind all indexes. -/
def Step.Ranges (instruction : Instruction) (position : Nat) : Step → Prop
  | .next machine | .write _ machine | .read machine | .stop machine | .endless machine =>
    Tape.IsIndex machine.head.index
  | .overflow machine => Tape.IsIndex machine.head.index ∧ machine.position = position ∧
    (instruction.opcode ∈ [.loopStart, .loopEnd, .push, .pushFast] ∧
        positionLimit ≤ instruction.link + 1 ∨
      ∃ distance, instruction.distance? = some distance ∧
        ¬ Tape.IsIndex (machine.head.index + distance))

theorem ranges_step {machine : Machine} (inside : Tape.IsIndex machine.head.index)
    (instruction : Instruction) :
    (machine.step instruction).Ranges instruction machine.position := by
  rcases machine with ⟨head, position, register, stack⟩
  rcases instruction with ⟨opcode, value, offset, link⟩
  have proceeds {distance : Int} {outcome : Except Head Head} (kept : Head.Kept distance outcome)
      (moves : Instruction.distance? ⟨opcode, value, offset, link⟩ = some distance) :
      (Machine.proceed position register stack outcome).Ranges ⟨opcode, value, offset, link⟩
        position := by
    cases outcome with
    | ok next => exact kept
    | error last => exact ⟨kept.1, rfl, .inr ⟨distance, moves, kept.2⟩⟩
  have jumps (jumping : opcode ∈ [.loopStart, .loopEnd, .push, .pushFast]) :
      (Machine.jump ⟨head, position, register, stack⟩ link).Ranges ⟨opcode, value, offset, link⟩
        position := by
    unfold Machine.jump
    split
    · exact inside
    · next beyond => exact ⟨inside, rfl, .inl ⟨jumping, Nat.le_of_not_lt beyond⟩⟩
  cases opcode with
  | nop | popFast | add | set | pop | input | output | stop => exact inside
  | move => exact proceeds (Head.kept_advance inside value) rfl
  | reset => exact proceeds (Head.kept_clearRun inside offset value.toNat) rfl
  | multiply => exact proceeds (Head.kept_addAt inside offset _) rfl
  | loopStart | loopEnd | push | pushFast =>
    simp only [Machine.step]
    split
    · exact jumps (by simp)
    · exact inside
  | store =>
    simp only [Machine.step]
    split
    · exact inside
    · exact proceeds ((Head.kept_addAt inside offset _).write 0) rfl
  | seek =>
    simp only [Machine.step]
    split
    · next outcome sought => exact proceeds (Head.kept_seek inside sought) rfl
    · exact inside

/-! ### Runs -/

namespace Run

variable {text : Text} {run now last : Run} {instruction : Instruction} {count : Nat}

/-- The next move of the instruction leads the head out of the range of indexes. -/
def Escapes (text : Text) (last : Run) : Prop :=
  ∃ instruction distance, text[last.machine.position]? = some instruction ∧
    instruction.distance? = some distance ∧
      ¬ Tape.IsIndex (last.machine.head.index + distance)

theorem isIndex_of_perform {step : Step} {position : Nat} (terminal : Terminal)
    (ranges : step.Ranges instruction position) :
    Tape.IsIndex (perform terminal step).run.machine.head.index := by
  cases step with
  | next machine | endless machine => exact ranges
  | overflow machine => exact ranges.1
  | write byte machine =>
    simp only [perform]
    split <;> exact ranges
  | read machine =>
    simp only [perform]
    split <;> exact ranges
  | stop machine =>
    simp only [perform, close]
    split <;> exact ranges

/-- All along a run the head is on an index. -/
theorem isIndex_of_advance (inside : Tape.IsIndex run.machine.head.index)
    (reached : advance text count run = .running now) : Tape.IsIndex now.machine.head.index := by
  have kept := advance_induction (motive := fun between => Tape.IsIndex between.machine.head.index) text
    (fun between instruction _ ranged =>
      isIndex_of_perform between.terminal (ranges_step ranged instruction)) count inside
  rwa [reached] at kept

/-- **A run is given up only where its head would escape**, if its links lead to positions. -/
theorem escapes_of_advance (inside : Tape.IsIndex run.machine.head.index)
    (links : ∀ (position : Nat) (instruction : Instruction), text[position]? = some instruction →
      instruction.opcode ∈ [.loopStart, .loopEnd, .push, .pushFast] →
        instruction.link + 1 < positionLimit)
    (ended : advance text count run = .ended .overflow last) : last.Escapes text := by
  obtain ⟨early, -, now, instruction, reached, found, performed⟩ :=
    (exists_last ended).resolve_left fun outside => nomatch outside.1
  have ranges := ranges_step (isIndex_of_advance inside reached) instruction
  have given : now.machine.step instruction = .overflow last.machine := by
    rcases perform_ended_cases performed with other | ⟨other, -⟩ | ⟨-, given⟩
    · cases other
    · cases other
    · exact given
  rw [given] at ranges
  obtain ⟨-, position, ⟨jumping, beyond⟩ | ⟨distance, moves, outside⟩⟩ := ranges
  · exact absurd (links _ _ found jumping) (Nat.not_lt_of_le beyond)
  · exact ⟨instruction, distance, position ▸ found, moves, outside⟩

end Run

end TapeMachine
