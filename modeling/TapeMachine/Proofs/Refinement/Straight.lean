/-
**Refining what is straight.**

Straight codes come to what their sweeps say, so they are compared by comparing the sweeps.

* `resembles_of_reaches`: where both come to their ends;
* `Behavior.refines_of_reaches`: wherever they break off;
* `Behavior.refines_plain`: every instruction that is written outside of regions refines itself.
-/

import TapeMachine.Proofs.Counted.Region
import TapeMachine.Proofs.Refinement.Basic
import TapeMachine.Proofs.Tape.Seeking

namespace TapeMachine

/-- Runs that resemble each other show the same. -/
theorem Run.Resembles.sight {run model : Run} (resembles : run.Resembles model) :
    run.sight = model.sight := by
  have cells : run.machine.head.tape.get = model.machine.head.tape.get := funext resembles.cells
  unfold Run.sight
  rw [cells, resembles.index]

section Reaching

variable {better worse : Behavior} {run other : Run} {fine coarse : Sight} {one two : UInt8}

/-- From runs that resemble each other, the better behavior completes if the other does, and the runs
resemble each other again. -/
theorem resembles_of_reaches (resembles : other.Resembles run)
    (here : Reaches better other fine (Machine.Holds false other.machine.stack one))
    (there : Reaches worse run coarse (Machine.Holds false run.machine.stack two))
    (improves : fine.Improves coarse) (inside : coarse.InRange) :
    ∃ next last, (∀ left, worse (left + coarse.cost) run = .finished left next) ∧
      (∀ left, better (left + fine.cost) other = .finished left last) ∧ last.Resembles next ∧
        next.machine.stack = run.machine.stack ∧ next.terminal = run.terminal := by
  have within : fine.InRange := fun cell member => inside cell (improves.visited cell member)
  obtain ⟨next, shows, terminal, holds, grows, done⟩ := there.completes inside
  obtain ⟨last, shown, still, held, grown, finished⟩ := here.completes within
  refine ⟨next, last, done, finished, ⟨?_, ?_, ?_, ?_, ?_⟩, holds.1, terminal⟩
  · intro cell
    rw [shown.cells, shows.cells, improves.cells]
  · rw [shown.index, shows.index, improves.index]
  · rw [held.1, holds.1, resembles.stack]
  · exact grown.within _ (resembles.within.trans grows.stays) fun cell member =>
      grows.visited cell (improves.visited cell member)
  · rw [still, terminal, resembles.terminal]

namespace Behavior

/-- Behaviors that always come to what sights say are compared by the sights. -/
theorem refines_of_reaches {clear : Bool} (fine coarse : Sight → Sight) (one two : UInt8)
    (here : ∀ run : Run,
      Reaches better run (fine run.sight) (Machine.Holds false run.machine.stack one))
    (there : ∀ run : Run,
      Reaches worse run (coarse run.sight) (Machine.Holds false run.machine.stack two))
    (improves : ∀ sight, (fine sight).Improves (coarse sight)) (extending : better.Extends) :
    Refines clear better worse := by
  intro left more run other _ enough resembles
  have begun : run.calls <+: (better more other).calls := by
    rw [← resembles.calls]
    exact extending more other
  have improved := resembles.sight ▸ here other
  by_cases completed : (coarse run.sight).InRange ∧ (coarse run.sight).cost ≤ left
  · obtain ⟨next, last, done, finished, resembled, -⟩ :=
      resembles_of_reaches resembles improved (there run) (improves run.sight) completed.1
    have fewer := (improves run.sight).cost
    obtain ⟨rest, rfl⟩ := Nat.exists_eq_add_of_le' completed.2
    obtain ⟨most, rfl⟩ : ∃ most, more = most + (fine run.sight).cost :=
      ⟨more - (fine run.sight).cost, by omega⟩
    rw [done, finished]
    exact Outcome.refines_finished (by omega) resembled
  · obtain ⟨last, terminal, ⟨-, broken⟩ | ⟨-, broken⟩⟩ := (there run).breaks left completed
    all_goals
      have still : last.calls = run.calls := congrArg (·.history.toList) terminal
      rw [broken]
      rw [← still] at begun
    · exact Outcome.refines_running begun
    · exact Outcome.refines_overflow begun

end Behavior

end Reaching

/-- A sight is no worse than itself. -/
theorem Sight.Improves.refl (sight : Sight) : sight.Improves sight :=
  ⟨rfl, rfl, Nat.le_refl _, fun _ => id⟩

/-! ### Straight codes from any run -/

/-- A straight code, from any run. -/
theorem Code.reaches_exec_self {code : Code} (straight : code.Straight false) (keep : Bool)
    (run : Run) : Reaches (code.exec keep) run (code.sweep keep 0 run.sight)
      (Machine.Holds false run.machine.stack 0) := by
  have begun : Reaches Behavior.skip run run.sight (Machine.Holds false run.machine.stack 0) :=
    reaches_skip ⟨rfl, by rintro ⟨⟩⟩
  exact Code.reaches_exec straight keep (by rintro ⟨⟩) begun

/-- A counted loop, from any run. -/
theorem Code.reaches_loop_self {body : Code} (counted : body.Counted) (run : Run) :
    Reaches (Behavior.loop (body.size true) (body.exec true)) run
      (body.rounds run.sight.cell.toNat run.sight.tick)
      (Machine.Holds false run.machine.stack 0) := by
  have begun : Reaches Behavior.skip run run.sight (Machine.Holds false run.machine.stack 0) :=
    reaches_skip ⟨rfl, by rintro ⟨⟩⟩
  exact Code.reaches_loop counted begun

/-! ### Single instructions -/

namespace Behavior

variable {clear : Bool}

/-- Without an instruction left, only the calls so far matter. -/
theorem refines_of_succ {better worse : Behavior} (extending : better.Extends)
    (waits : ∀ run, worse 0 run = .broken (.running run))
    (goes : ∀ left more run other, left ≤ more → other.Resembles run →
      (better (more + 1) other).Refines (worse (left + 1) run)) : Refines clear better worse := by
  intro left more run other _ enough resembles
  cases left with
  | zero =>
    rw [waits]
    refine Outcome.refines_running ?_
    rw [← resembles.calls]
    exact extending more other
  | succ left =>
    obtain ⟨rest, rfl⟩ : ∃ rest, more = rest + 1 := ⟨more - 1, by omega⟩
    exact goes left rest run other (Nat.le_of_succ_le_succ enough) resembles

theorem refines_output : Refines clear (act { opcode := .output }) (act { opcode := .output }) := by
  refine refines_of_succ (extends_act _) (fun _ => rfl) ?_
  rintro left more ⟨⟨head, position, register, stack⟩, terminal⟩
    ⟨⟨twin, place, counter, rest⟩, screen⟩ enough resembles
  obtain rfl : screen = terminal := resembles.terminal
  have under : twin.read = head.read := resembles.cell
  simp only [act, Machine.step, Run.perform, under]
  rcases screen.emit head.read with ⟨terminal, _ | _⟩
  · exact Outcome.refines_ended
      ⟨resembles.cells, resembles.index, resembles.stack, resembles.within, rfl⟩
  · exact Outcome.refines_finished enough
      ⟨resembles.cells, resembles.index, resembles.stack, resembles.within, rfl⟩

theorem refines_stop : Refines clear (act { opcode := .stop }) (act { opcode := .stop }) := by
  refine refines_of_succ (extends_act _) (fun _ => rfl) ?_
  rintro left more ⟨⟨head, position, register, stack⟩, terminal⟩
    ⟨⟨twin, place, counter, rest⟩, screen⟩ enough resembles
  obtain rfl : screen = terminal := resembles.terminal
  simp only [act, Machine.step, Run.perform, Run.close]
  rcases screen.flush with ⟨terminal, _ | _⟩
  all_goals
    exact Outcome.refines_ended
      ⟨resembles.cells, resembles.index, resembles.stack, resembles.within, rfl⟩

/-- Writing the same byte keeps heads alike. -/
theorem resembles_write {run other : Run} (resembles : other.Resembles run) (value : UInt8)
    (one two : Nat) (first second : UInt8) (stack : List UInt8) (terminal : Terminal) :
    Run.Resembles ⟨⟨other.machine.head.write value, one, first, stack⟩, terminal⟩
      ⟨⟨run.machine.head.write value, two, second, stack⟩, terminal⟩ where
  cells cell := by
    by_cases here : cell = run.machine.head.index
    · have there : cell = other.machine.head.index := here.trans resembles.index.symm
      refine Eq.trans (b := value) ?_ ?_
      · rw [there]
        exact Head.get_write_self other.machine.head value
      · rw [here]
        exact (Head.get_write_self run.machine.head value).symm
    · have off : cell ≠ other.machine.head.index := fun there => here (there.trans resembles.index)
      rw [Head.get_write_of_ne off, Head.get_write_of_ne here, resembles.cells]
  index := resembles.index
  stack := rfl
  within index covered :=
    Head.covers_write_iff.mpr (resembles.within index (Head.covers_write_iff.mp covered))
  terminal := rfl

theorem refines_input : Refines clear (act { opcode := .input }) (act { opcode := .input }) := by
  refine refines_of_succ (extends_act _) (fun _ => rfl) ?_
  intro left more run other enough resembles
  have written := resembles_write resembles
  rcases run with ⟨⟨head, position, register, stack⟩, terminal⟩
  rcases other with ⟨⟨twin, place, counter, rest⟩, screen⟩
  obtain rfl : screen = terminal := resembles.terminal
  obtain rfl : rest = stack := resembles.stack
  simp only [act, Machine.step, Run.perform]
  rcases screen.read with ⟨terminal, byte | _ | _⟩
  · exact Outcome.refines_finished enough (written byte _ _ _ _ _ _)
  · exact Outcome.refines_finished enough
      ⟨resembles.cells, resembles.index, resembles.stack, resembles.within, rfl⟩
  · exact Outcome.refines_ended
      ⟨resembles.cells, resembles.index, resembles.stack, resembles.within, rfl⟩

theorem refines_seek {instruction : Instruction} (opcode : instruction.opcode = .seek) :
    Refines clear (act instruction) (act instruction) := by
  refine refines_of_succ (extends_act _) (fun _ => rfl) ?_
  rintro left more ⟨⟨head, position, register, stack⟩, terminal⟩
    ⟨⟨twin, place, counter, rest⟩, screen⟩ enough resembles
  obtain rfl : screen = terminal := resembles.terminal
  have walked : twin.tape.walk instruction.value twin.index =
      head.tape.walk instruction.value head.index := by
    rw [show twin.index = head.index from resembles.index]
    exact Tape.walk_congr resembles.cells _ _
  simp only [act, Machine.step, opcode, Head.seek, walked]
  cases head.tape.walk instruction.value head.index with
  | found index =>
    refine Outcome.refines_finished enough ⟨fun cell => ?_, rfl, resembles.stack, ?_, rfl⟩
    · exact (Head.get_moveTo ..).trans ((resembles.cells cell).trans (Head.get_moveTo ..).symm)
    · exact Tape.within_reserve (resembles.within.trans (Tape.within_reserve_self _ _))
        (Tape.covers_reserve_self _ _)
  | lost index => exact Outcome.refines_overflow (List.prefix_refl _)
  | never => exact Outcome.refines_stuck (List.prefix_refl _)

theorem refines_straight {instruction : Instruction} (straight : instruction.opcode.IsStraight false)
    (sound : instruction.Sound) : Refines clear (act instruction) (act instruction) := by
  have whole : (Code.empty.plain instruction).Straight false := ⟨trivial, straight, sound⟩
  have reaches := Code.reaches_exec_self whole true
  exact refines_of_reaches (Code.sweep true 0 (Code.empty.plain instruction))
    (Code.sweep true 0 (Code.empty.plain instruction)) 0 0 reaches reaches (fun _ => .refl _)
    (extends_act instruction)

/-- Every instruction that is written outside of regions refines itself. -/
theorem refines_plain {instruction : Instruction}
    (opcode : instruction.opcode ∈ [.move, .add, .input, .output, .reset, .store, .seek, .set])
    (sound : instruction.Sound) : Refines clear (act instruction) (act instruction) := by
  have alone {kind : Opcode} (same : instruction.opcode = kind) (idle : kind = .input ∨ kind = .output) :
      act instruction = act { opcode := kind } := by
    funext left run
    cases left with
    | zero => rfl
    | succ left =>
      rcases run with ⟨⟨head, position, register, stack⟩, terminal⟩
      rcases idle with rfl | rfl <;> simp only [act, Machine.step, same]
  have swept {kind : Opcode} (same : instruction.opcode = kind) (kept : kind.IsStraight false) :
      Refines clear (act instruction) (act instruction) :=
    refines_straight (same ▸ kept) sound
  simp only [List.mem_cons, List.not_mem_nil, or_false] at opcode
  rcases opcode with same | same | same | same | same | same | same | same
  · exact swept same (by decide)
  · exact swept same (by decide)
  · rw [alone same (.inl rfl)]
    exact refines_input
  · rw [alone same (.inr rfl)]
    exact refines_output
  · exact swept same (by decide)
  · exact swept same (by decide)
  · exact refines_seek same
  · exact swept same (by decide)

end Behavior

end TapeMachine
