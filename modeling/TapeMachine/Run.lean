/-
**Runs.**

A run is a machine at its terminal. `Run.advance` makes it do a number of instructions, unless it
ends before; a run without a limit ends if some number of instructions is enough.

* `advance_add`: doing some instructions and then some more is doing all of them;
* `advance_of_ended`: once a run has ended, more instructions change nothing;
* `within`: a run that may do a limited number of instructions flushes its output and gives up
  when it would begin one more;
* `giveUp`: instructions are counted in a word, so under the largest limit there is no count that is
  over it, and the count overflows instead.
-/

import TapeMachine.Machine
import TapeMachine.Terminal

namespace TapeMachine

/-- How a run ends. -/
inductive Ending where
  /-- At a `stop`, with everything flushed. -/
  | stopped
  /-- A stream failed. -/
  | streamFailure
  /-- There is no instruction at the position. -/
  | overrun (position : Nat)
  /-- The limit of instructions was reached. -/
  | exhausted (limit : Nat)
  /-- An index, a position or the count of instructions left its range. -/
  | overflow
  deriving DecidableEq

/-- The text of an ending that is reported as an error. -/
def Ending.message? : Ending → Option String
  | stopped | overflow => none
  | streamFailure => some "IO Error"
  | overrun position =>
    some ("Instruction pointer (" ++ String.ofList (Decimal.natural position) ++
      ") ran past the end of the program without a Stop")
  | exhausted limit =>
    some ("Gave up after " ++ String.ofList (Decimal.natural limit) ++ " instructions")

/-- A machine at its terminal. -/
structure Run where
  machine : Machine
  terminal : Terminal

/-- What has become of a run. -/
inductive Progress where
  /-- It can go on. -/
  | running (run : Run)
  /-- It has ended. -/
  | ended (ending : Ending) (run : Run)
  /-- It is in an instruction that never ends. -/
  | stuck (run : Run)

namespace Run

/-- Flushes the output and ends the run. -/
def close (ending : Ending) (run : Run) : Progress :=
  match run with
  | ⟨machine, terminal⟩ =>
    match terminal.flush with
    | (terminal, true) => .ended ending ⟨machine, terminal⟩
    | (terminal, false) => .ended .streamFailure ⟨machine, terminal⟩

/-- Does at the terminal what a step of the machine asks for. -/
def perform (terminal : Terminal) : Step → Progress
  | .next machine => .running ⟨machine, terminal⟩
  | .write byte machine =>
    match terminal.emit byte with
    | (terminal, true) => .running ⟨machine, terminal⟩
    | (terminal, false) => .ended .streamFailure ⟨machine, terminal⟩
  | .read machine =>
    match terminal.read with
    | (terminal, .byte byte) => .running ⟨machine.receive (some byte), terminal⟩
    | (terminal, .keep) => .running ⟨machine.receive none, terminal⟩
    | (terminal, .failed) => .ended .streamFailure ⟨machine, terminal⟩
  | .stop machine => close .stopped ⟨machine, terminal⟩
  | .overflow machine => .ended .overflow ⟨machine, terminal⟩
  | .endless machine => .stuck ⟨machine, terminal⟩

/-- Does the instructions of a text, a given number of them or until the run ends. -/
def advance (text : Text) : Nat → Run → Progress
  | 0, ⟨machine, terminal⟩ =>
    match text[machine.position]? with
    | none =>
      let position := machine.position
      .ended (.overrun position) ⟨machine, terminal⟩
    | some _ => .running ⟨machine, terminal⟩
  | count + 1, ⟨machine, terminal⟩ =>
    match text[machine.position]? with
    | none =>
      let position := machine.position
      .ended (.overrun position) ⟨machine, terminal⟩
    | some instruction =>
      match perform terminal (machine.step instruction) with
      | .running run => advance text count run
      | finished => finished

/-- The largest count of instructions. -/
def countLimit : UInt64 := 0xffffffffffffffff

/-- Counts one instruction more than the limit: the run is closed, unless that cannot be counted. -/
def giveUp (limit : UInt64) (run : Run) : Progress :=
  if limit = countLimit then .ended .overflow run else close (.exhausted limit.toNat) run

/-- Does at most `limit` instructions, and gives up when it would begin one more. -/
def within (text : Text) (limit : UInt64) (run : Run) : Progress :=
  match advance text limit.toNat run with
  | .running run => giveUp limit run
  | finished => finished

/-- Does the instructions of a text until the run ends. With a limit, which is a word, at most that many
are done, and without one `patience` many. -/
def complete (text : Text) (limit : Option Nat) (patience : Nat) (run : Run) : Progress :=
  match limit with
  | some limit => within text (.ofNat limit) run
  | none => advance text patience run

/-- The run has ended after some number of instructions. -/
def Ends (text : Text) (run : Run) (ending : Ending) (last : Run) : Prop :=
  ∃ count, advance text count run = .ended ending last

end Run

/-- Goes on with a run that can go on. -/
def Progress.andThen (progress : Progress) (goOn : Run → Progress) : Progress :=
  match progress with
  | .running run => goOn run
  | finished => finished

namespace Run

theorem advance_zero (text : Text) (run : Run) :
    advance text 0 run =
      match text[run.machine.position]? with
      | none => .ended (.overrun run.machine.position) run
      | some _ => .running run :=
  rfl

theorem advance_succ (text : Text) (count : Nat) (run : Run) :
    advance text (count + 1) run =
      match text[run.machine.position]? with
      | none => .ended (.overrun run.machine.position) run
      | some instruction =>
        (perform run.terminal (run.machine.step instruction)).andThen (advance text count) := by
  rw [advance]
  cases text[run.machine.position]? with
  | none => rfl
  | some instruction => cases perform run.terminal (run.machine.step instruction) <;> rfl

theorem advance_of_overrun {text : Text} {run : Run}
    (outside : text[run.machine.position]? = none) (count : Nat) :
    advance text count run = .ended (.overrun run.machine.position) run := by
  cases count <;> simp [advance_zero, advance_succ, outside]

theorem advance_add (text : Text) (first second : Nat) (run : Run) :
    advance text (first + second) run = (advance text first run).andThen (advance text second) := by
  induction first generalizing run with
  | zero =>
    cases found : text[run.machine.position]? with
    | some instruction => simp [advance_zero, found, Progress.andThen]
    | none => simp [advance_of_overrun found, Progress.andThen]
  | succ first ih =>
    cases found : text[run.machine.position]? with
    | none => simp [advance_of_overrun found, Progress.andThen]
    | some instruction =>
      simp only [Nat.add_right_comm, advance_succ, found]
      cases perform run.terminal (run.machine.step instruction) with
      | running next => exact ih next
      | ended ending last => rfl
      | stuck last => rfl

theorem advance_of_ended {text : Text} {count : Nat} {run last : Run} {ending : Ending}
    (ended : advance text count run = .ended ending last) (more : Nat) :
    advance text (count + more) run = .ended ending last := by
  rw [advance_add, ended]
  rfl

theorem giveUp_of_ne {limit : UInt64} (countable : limit ≠ countLimit) (run : Run) :
    giveUp limit run = close (.exhausted limit.toNat) run :=
  if_neg countable

theorem ends_unique {text : Text} {run first second : Run} {one two : Ending}
    (here : Ends text run one first) (there : Ends text run two second) :
    one = two ∧ first = second := by
  obtain ⟨count, here⟩ := here
  obtain ⟨other, there⟩ := there
  have same := (advance_of_ended here other).symm.trans
    (Nat.add_comm other count ▸ advance_of_ended there count)
  cases same
  exact ⟨rfl, rfl⟩

end Run

end TapeMachine
