/-
**Reports.**

What a command line prints and how it ends. The output belongs to the program: the symbols, the
listing and the output of the run, in this order. Everything else is told in `Notice`s: the phases of
the work, unless they are not wanted, and the error that ended it.

* `prepare` does all that comes before the run;
* `report` does the run too, on a terminal with a given feed.
-/

import TapeMachine.CommandLine.Arguments
import TapeMachine.Listing
import TapeMachine.Program

namespace TapeMachine.CommandLine

/-- A phase of the work. -/
inductive Phase where
  | parsing
  | program
  deriving DecidableEq

/-- The printed name of a phase. -/
def Phase.name : Phase → String
  | parsing => "parsing"
  | program => "program"

/-- A line beside the output. -/
inductive Notice where
  | starting (phase : Phase)
  | finished (phase : Phase)
  | error (message : String)
  deriving DecidableEq

/-- The line of a notice, without the time that a finished phase took. -/
def Notice.line : Notice → String
  | starting phase => "Starting " ++ phase.name
  | finished phase => "Finished " ++ phase.name ++ " in"
  | error message => "Error: " ++ message

/-- The symbols of a source. -/
def symbols (source : Source) : String :=
  String.ofList ((scan source).tokens.toList.map fun token => token.symbol.char)

/-- The exit code of a failure that is told. -/
def failureCode : Nat := 1

/-- The exit code of an abandoned command line. -/
def faultCode : Nat := 101

/-- The exit code of a command line that is not understood. -/
def usageCode : Nat := 2

/-- What has come of a command line before the run. -/
structure Preparation where
  output : String
  notices : List Notice
  /-- The program, or the exit code. -/
  program : Except Nat Program

/-- What has come of a command line. -/
structure Report where
  code : Nat
  output : List UInt8
  notices : List Notice

namespace Arguments

/-- Notices on the phases of the work, unless they are not wanted. -/
def progress (arguments : Arguments) (notices : List Notice) : List Notice :=
  if arguments.quiet then [] else notices

/-- Does all that comes before the run with the contents of the file, if it could be read. -/
def prepare (arguments : Arguments) : Option Source → Preparation
  | none => ⟨"", [.error "Couldn't read source"], .error failureCode⟩
  | some source =>
    let tokens := if arguments.wants .tokens then symbols source ++ "\n" else ""
    let begun := arguments.progress [.starting .parsing]
    match Program.ofSource arguments.passes source with
    | .error (.unmatched bracket) =>
      ⟨tokens, begun ++ [.error (AssemblyError.unmatchedMessage bracket)], .error failureCode⟩
    | .error (.fault _) => ⟨tokens, begun, .error faultCode⟩
    | .ok program =>
      let shown := if arguments.wants .bytecode then listing program.text else ""
      ⟨tokens ++ shown, begun ++ arguments.progress [.finished .parsing], .ok program⟩

/-- The terminal of a command line. -/
def terminal (arguments : Arguments) (feed : List Arrival) : Terminal :=
  let terminal : Terminal := { policy := arguments.policy, feed := feed }
  match arguments.input with
  | some text => terminal.typeAhead text.toUTF8.toList
  | none => terminal

/-- How a run ends the work: the exit code, and the notices on it. -/
def conclude (arguments : Arguments) : Progress → Nat × List Notice
  | .ended .stopped _ => (0, arguments.progress [.finished .program])
  | .ended ending _ =>
    match ending.message? with
    | some message => (failureCode, [.error message])
    | none => (faultCode, [])
  | .running _ | .stuck _ => (faultCode, [])

/-- Does the work of a command line. -/
def report (arguments : Arguments) (source : Option Source) (feed : List Arrival)
    (patience : Nat) : Report :=
  let prepared := arguments.prepare source
  let output := prepared.output.toUTF8.toList
  match prepared.program with
  | .error code => ⟨code, output, prepared.notices⟩
  | .ok program =>
    if arguments.wants .run then
      let (_, progress) := program.run arguments.maxSteps patience (arguments.terminal feed)
      let (code, notices) := arguments.conclude progress
      ⟨code, output ++ progress.run.terminal.output,
        prepared.notices ++ arguments.progress [.starting .program] ++ notices⟩
    else
      ⟨0, output, prepared.notices⟩

end Arguments

end TapeMachine.CommandLine
