/-
**Loops that single instructions improve.**

A loop that adds to its cell leaves that cell zero, if it ends, and one that moves the head leaves it on
the first zero cell; a loop without a body does nothing, if it ends, and neither does one that begins on
a zero cell.

* `refines_loop_of_zero`, `improves_empty`, `improves_reset`, `improves_seek`: the four kinds;
* `cell_of_exec`: behind a code that ends at zero the cell is zero.
-/

import TapeMachine.Proofs.Assembly.Closing
import TapeMachine.Proofs.Refinement.Straight

namespace TapeMachine

namespace Outcome

/-- The loop is still under way, at the same terminal, or an index has left its range. -/
def Pending (run : Run) (outcome : Outcome) : Prop :=
  ∃ last : Run, last.terminal = run.terminal ∧
    (outcome = broken (.running last) ∨ outcome = broken (.ended .overflow last))

/-- As long as the loop is under way, whatever makes no fewer calls will do. -/
theorem Pending.refines {run : Run} {better worse : Outcome} (pending : Pending run worse)
    (calls : run.calls <+: better.calls) : better.Refines worse := by
  obtain ⟨last, terminal, rfl | rfl⟩ := pending
  all_goals
    rw [show run.calls = last.calls from congrArg (·.history.toList) terminal.symm] at calls
  · exact refines_running calls
  · exact refines_overflow calls

theorem Pending.of_terminal {run other : Run} {outcome : Outcome} (pending : Pending run outcome)
    (same : run.terminal = other.terminal) : Pending other outcome :=
  pending.imp fun _ => And.imp_left fun terminal => terminal.trans same

end Outcome

namespace Behavior

open Outcome (Pending)

/-! ### Loops that are not entered -/

/-- A loop on a zero cell is passed over. -/
theorem refines_loop_of_zero {size : Nat} {body : Behavior} {left : Nat} {run : Run}
    (zero : run.cell = 0) : (Outcome.finished left run).Refines (loop size body left run) := by
  cases left with
  | zero => exact Outcome.refines_running (List.prefix_refl _)
  | succ left =>
    simp only [loop, if_pos zero]
    exact Outcome.refines_finished (Nat.le_succ _) ((Run.Resembles.refl run).hop _ _)

/-- A loop on another cell is as a loop at the end of its body. -/
theorem loop_eq_again {size : Nat} {body : Behavior} (spends : body.Spends) {run : Run}
    (marked : run.cell ≠ 0) (left : Nat) :
    loop size body left run = again (run.machine.position + 1) body left run := by
  cases left with
  | zero => rfl
  | succ left => rw [loop_succ spends, again_succ spends, if_neg marked, if_neg marked]

/-! ### Loops without a body -/

theorem again_skip {start left : Nat} {run : Run} (marked : run.cell ≠ 0) :
    Pending run (again start skip left run) := by
  induction left generalizing run with
  | zero => exact ⟨run, rfl, .inl rfl⟩
  | succ left ih =>
    rw [again_succ spends_skip, if_neg marked]
    have later : Pending (run.hop start) (again start skip left (run.hop start)) := ih marked
    exact later

/-- A loop without a body does nothing, if it ends. -/
theorem improves_empty {clear : Bool} (size : Nat) : Improves clear skip (loop size skip) := by
  intro left run _
  by_cases zero : run.cell = 0
  · exact refines_loop_of_zero zero
  · rw [loop_eq_again spends_skip zero]
    exact Pending.refines (again_skip zero) (List.prefix_refl run.calls)

end Behavior

/-! ### Loops that clear their cell, or look for a zero cell -/

/-- The run with its cell cleared. -/
def Run.cleared (run : Run) : Run :=
  ⟨{ run.machine with head := run.machine.head.write 0 }, run.terminal⟩

/-- The run with its head on another cell. -/
def Run.movedTo (run : Run) (index : Int) : Run :=
  ⟨{ run.machine with head := run.machine.head.moveTo index }, run.terminal⟩

namespace Run

theorem resembles_cleared {run : Run} (zero : run.cell = 0) : run.cleared.Resembles run where
  cells cell := by
    by_cases here : cell = run.machine.head.index
    · rw [here]
      exact (Head.get_write_self run.machine.head 0).trans (zero.symm.trans run.cell_eq_get)
    · exact Head.get_write_of_ne here 0
  index := rfl
  stack := rfl
  within _ covered := Head.covers_write_iff.mp covered
  terminal := rfl

/-- What was written before does not show. -/
theorem cleared_resembles_cleared {run next : Run} {value : UInt8}
    (head : next.machine.head = run.machine.head.write value)
    (stack : next.machine.stack = run.machine.stack) (terminal : next.terminal = run.terminal) :
    run.cleared.Resembles next.cleared where
  cells cell := by
    unfold cleared
    simp only [head]
    by_cases here : cell = run.machine.head.index
    · rw [here]
      exact (Head.get_write_self run.machine.head 0).trans
        (Head.get_write_self (run.machine.head.write value) 0).symm
    · have elsewhere : cell ≠ (run.machine.head.write value).index := here
      rw [Head.get_write_of_ne here, Head.get_write_of_ne elsewhere, Head.get_write_of_ne here]
  index := congrArg Head.index head |>.symm
  stack := stack.symm
  within index covered := by
    unfold cleared
    rw [head]
    exact Head.covers_write_iff.mpr (Head.covers_write_iff.mpr (Head.covers_write_iff.mp covered))
  terminal := terminal.symm

theorem resembles_movedTo_self (run : Run) : (run.movedTo run.machine.head.index).Resembles run where
  cells _ := Head.get_moveTo ..
  index := rfl
  stack := rfl
  within := Tape.within_reserve (Tape.Within.refl _) run.machine.head.covered
  terminal := rfl

/-- A walk that begins on a zero cell ends there. -/
theorem walk_of_zero {run : Run} (zero : run.cell = 0) (stride : Int) :
    run.machine.head.tape.walk stride run.machine.head.index = .found run.machine.head.index := by
  have under : run.machine.head.tape.get run.machine.head.index = 0 :=
    run.cell_eq_get.symm.trans zero
  rw [Tape.walk, if_pos under]

/-- Where the head was before does not show, except that it is stored. -/
theorem movedTo_resembles_movedTo {run next : Run} {between : Int}
    (head : next.machine.head = run.machine.head.moveTo between)
    (stack : next.machine.stack = run.machine.stack) (terminal : next.terminal = run.terminal)
    (index : Int) : (run.movedTo index).Resembles (next.movedTo index) where
  cells cell := by
    unfold movedTo
    rw [head, Head.get_moveTo, Head.get_moveTo, Head.get_moveTo]
  index := rfl
  stack := stack.symm
  within := by
    unfold movedTo
    rw [head]
    have grown := Tape.within_reserve_self run.machine.head.tape between
    exact Tape.within_reserve (grown.trans (Tape.within_reserve_self _ index))
      (Tape.covers_reserve_self _ index)
  terminal := terminal.symm

end Run

namespace Behavior

open Outcome (Pending)

variable {step : Instruction}

/-- A loop that adds to its cell is under way, or has cleared the cell. -/
theorem again_add (opcode : step.opcode = .add) (start left : Nat) (run : Run) :
    Pending run (again start (act step) left run) ∨
      ∃ rest next, again start (act step) left run = .finished rest next ∧ rest < left ∧
        run.cleared.Resembles next := by
  induction left using Nat.strongRecOn generalizing run with
  | ind left ih =>
    cases left with
    | zero => exact .inl ⟨run, rfl, .inl rfl⟩
    | succ left =>
      rw [again_succ (spends_act step)]
      by_cases zero : run.cell = 0
      · rw [if_pos zero]
        refine .inr ⟨left, _, rfl, Nat.lt_succ_self _, ?_⟩
        exact (Run.resembles_cleared zero).trans ((Run.Resembles.refl run).hop run.machine.position _)
      · rw [if_neg zero]
        cases left with
        | zero => exact .inl ⟨run.hop start, rfl, .inl rfl⟩
        | succ left =>
          have acted : ∃ next : Run, act step (left + 1) (run.hop start) = .finished left next ∧
              next.machine.head = run.machine.head.write (run.cell + UInt8.ofInt step.value) ∧
              next.machine.stack = run.machine.stack ∧ next.terminal = run.terminal := by
            rcases run with ⟨⟨head, position, register, stack⟩, terminal⟩
            refine ⟨⟨⟨head.write (head.read + UInt8.ofInt step.value), start + 1, register, stack⟩,
              terminal⟩, ?_, rfl, rfl, rfl⟩
            simp only [act, Run.hop, Machine.step, opcode, Run.perform]
          obtain ⟨next, done, head, stack, terminal⟩ := acted
          simp only [Behavior.andThen, done, Outcome.andThen_finished]
          rcases ih left (by omega) next with pending | ⟨rest, last, finished, fewer, resembles⟩
          · exact .inl (pending.of_terminal terminal)
          · exact .inr ⟨rest, last, finished, by omega,
              (Run.cleared_resembles_cleared head stack terminal).trans resembles⟩

/-- A reset improves a loop that adds to its cell. -/
theorem improves_reset {clear : Bool} (opcode : step.opcode = .add) (size : Nat) :
    Improves clear (act { opcode := .reset, value := 1 }) (loop size (act step)) := by
  intro left run _
  cases left with
  | zero => exact Outcome.refines_running (List.prefix_refl _)
  | succ left =>
    have acted : act { opcode := .reset, value := 1 } (left + 1) run =
        .finished left (run.cleared.hop (run.machine.position + 1)) := rfl
    have resembles : (run.cleared.hop (run.machine.position + 1)).Resembles run.cleared :=
      (Run.Resembles.refl run.cleared).hop _ run.machine.position
    rw [acted]
    by_cases zero : run.cell = 0
    · rw [loop_succ (spends_act step), if_pos zero]
      exact Outcome.refines_finished (Nat.le_refl _)
        ((resembles.trans (Run.resembles_cleared zero)).hop _ _)
    · rw [loop_eq_again (spends_act step) zero]
      rcases again_add opcode (run.machine.position + 1) (left + 1) run with pending |
        ⟨rest, next, done, fewer, cleared⟩
      · exact pending.refines (List.prefix_refl _)
      · rw [done]
        exact Outcome.refines_finished (Nat.le_of_lt_succ fewer) (resembles.trans cleared)

/-- A loop that moves the head is under way, or has found a zero cell. -/
theorem again_move (opcode : step.opcode = .move) (marked : step.value ≠ 0) (start left : Nat)
    (run : Run) : Pending run (again start (act step) left run) ∨
      ∃ index rest next, run.machine.head.tape.walk step.value run.machine.head.index = .found index ∧
        again start (act step) left run = .finished rest next ∧ rest < left ∧
          (run.movedTo index).Resembles next := by
  induction left using Nat.strongRecOn generalizing run with
  | ind left ih =>
    cases left with
    | zero => exact .inl ⟨run, rfl, .inl rfl⟩
    | succ left =>
      rw [again_succ (spends_act step)]
      by_cases zero : run.cell = 0
      · rw [if_pos zero]
        refine .inr ⟨run.machine.head.index, left, _, ?_, rfl, Nat.lt_succ_self _, ?_⟩
        · exact Run.walk_of_zero zero step.value
        · exact (Run.resembles_movedTo_self run).trans
            ((Run.Resembles.refl run).hop run.machine.position _)
      · rw [if_neg zero]
        have walked : run.machine.head.tape.walk step.value run.machine.head.index =
            if Tape.IsIndex (run.machine.head.index + step.value) then
              run.machine.head.tape.walk step.value (run.machine.head.index + step.value)
            else .lost run.machine.head.index := by
          have under : run.machine.head.tape.get run.machine.head.index ≠ 0 :=
            run.cell_eq_get ▸ zero
          rw [Tape.walk, if_neg under, if_neg marked]
        cases left with
        | zero => exact .inl ⟨run.hop start, rfl, .inl rfl⟩
        | succ left =>
          by_cases inside : Tape.IsIndex (run.machine.head.index + step.value)
          · have acted : ∃ next : Run, act step (left + 1) (run.hop start) = .finished left next ∧
                next.machine.head = run.machine.head.moveTo (run.machine.head.index + step.value) ∧
                next.machine.stack = run.machine.stack ∧ next.terminal = run.terminal := by
              rcases run with ⟨⟨head, position, register, stack⟩, terminal⟩
              refine ⟨⟨⟨head.moveTo (head.index + step.value), start + 1, register, stack⟩, terminal⟩,
                ?_, rfl, rfl, rfl⟩
              have moved : head.advance step.value = .ok (head.moveTo (head.index + step.value)) :=
                Head.advance_of_isIndex inside
              simp only [act, Run.hop, Machine.step, opcode, moved]
              rfl
            obtain ⟨next, done, head, stack, terminal⟩ := acted
            simp only [Behavior.andThen, done, Outcome.andThen_finished]
            rcases ih left (by omega) next with pending |
              ⟨index, rest, last, found, finished, fewer, resembles⟩
            · exact .inl (pending.of_terminal terminal)
            · refine .inr ⟨index, rest, last, ?_, finished, by omega,
                (Run.movedTo_resembles_movedTo head stack terminal index).trans resembles⟩
              rw [walked, if_pos inside, ← found, head]
              exact (Tape.walk_congr (fun cell => Head.get_moveTo ..) _ _).symm
          · refine .inl ?_
            rcases run with ⟨⟨head, position, register, stack⟩, terminal⟩
            have stopped : head.advance step.value = .error head :=
              Head.advance_of_not_isIndex inside
            refine ⟨⟨⟨head, start, register, stack⟩, terminal⟩, rfl, .inr ?_⟩
            simp only [Behavior.andThen, act, Run.hop, Machine.step, opcode, stopped]
            rfl

/-- A search improves a loop that moves the head. -/
theorem improves_seek {clear : Bool} (opcode : step.opcode = .move) (marked : step.value ≠ 0)
    (size : Nat) :
    Improves clear (act { opcode := .seek, value := step.value }) (loop size (act step)) := by
  intro left run _
  cases left with
  | zero => exact Outcome.refines_running (List.prefix_refl _)
  | succ left =>
    have acted {index : Int}
        (found : run.machine.head.tape.walk step.value run.machine.head.index = .found index) :
        act { opcode := .seek, value := step.value } (left + 1) run =
          .finished left ((run.movedTo index).hop (run.machine.position + 1)) := by
      rcases run with ⟨⟨head, position, register, stack⟩, terminal⟩
      replace found : head.tape.walk step.value head.index = .found index := found
      simp only [act, Machine.step, Head.seek, found]
      rfl
    by_cases zero : run.cell = 0
    · rw [loop_succ (spends_act step), if_pos zero, acted (Run.walk_of_zero zero step.value)]
      exact Outcome.refines_finished (Nat.le_refl _) ((Run.resembles_movedTo_self run).hop _ _)
    · rw [loop_eq_again (spends_act step) zero]
      rcases again_move opcode marked (run.machine.position + 1) (left + 1) run with pending |
        ⟨index, rest, next, found, done, fewer, resembles⟩
      · exact pending.refines (extends_act _ _ run)
      · rw [done, acted found]
        exact Outcome.refines_finished (Nat.le_of_lt_succ fewer)
          (((Run.Resembles.refl (run.movedTo index)).hop _ run.machine.position).trans resembles)

end Behavior

end TapeMachine
