/-
**Programs.**

A program is a finished text with the tape it runs on. It can be run again and again: the tape is
kept, every run begins on the starting cell with a fresh machine, and the data pointer is where the
head was when a run last came to its `stop`.

* `tape_after`: whatever becomes of a run, the program keeps its tape;
* `dataPointer_after_ended`: only a run that comes to its `stop` moves the data pointer.
-/

import TapeMachine.Assembly
import TapeMachine.Run

namespace TapeMachine

/-- The run as it was when it could last be looked at. -/
def Progress.run : Progress → Run
  | running run => run
  | ended _ run => run
  | stuck run => run

/-- A finished text and its tape. -/
structure Program where
  text : Text
  tape : Tape
  dataPointer : Int

namespace Program

/-- A program on a fresh tape. -/
def ofText (text : Text) : Program := ⟨text, Tape.blank, 0⟩

/-- The program of a source. -/
def ofSource (passes : Passes) (source : Source) : Except AssemblyError Program :=
  match assemble passes source with
  | .ok assembly => .ok (ofText assembly.text)
  | .error rejection => .error rejection.error

/-- A run that is about to begin. -/
def start (program : Program) (terminal : Terminal) : Run :=
  ⟨Machine.onTape program.tape, terminal⟩

/-- The program behind a run. -/
def after (program : Program) (progress : Progress) : Program :=
  let head := progress.run.machine.head
  { program with
    tape := head.tape
    dataPointer := match progress with
      | .ended .stopped _ => head.index
      | _ => program.dataPointer }

/-- Runs a program, with a limit on the number of instructions or else with some patience. -/
def run (program : Program) (limit : Option Nat) (patience : Nat) (terminal : Terminal) :
    Program × Progress :=
  let progress := (program.start terminal).complete program.text limit patience
  (program.after progress, progress)

theorem text_after (program : Program) (progress : Progress) :
    (program.after progress).text = program.text := rfl

theorem tape_after (program : Program) (progress : Progress) :
    (program.after progress).tape = progress.run.machine.head.tape := rfl

theorem dataPointer_after_ended (program : Program) (ending : Ending) (last : Run) :
    (program.after (.ended ending last)).dataPointer =
      if ending = .stopped then last.machine.head.index else program.dataPointer := by
  cases ending <;> rfl

end Program

end TapeMachine
