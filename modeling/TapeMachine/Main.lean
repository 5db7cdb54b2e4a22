/-
**The command.**

The outer layer of the command line: it reads the file, prints what `Arguments.prepare` and the run
say, and supplies the run with the bytes of the standard input as it asks for them. Output is held
back until the buffer is full, the program flushes it, or the run ends.
-/

import TapeMachine.CommandLine.Report

namespace TapeMachine.CommandLine

/-- A time in the largest unit that it fills, with two places. -/
def elapsed (nanoseconds : Nat) : String :=
  let (unit, name) :=
    if nanoseconds ≥ 1000000000 then (1000000000, "s")
    else if nanoseconds ≥ 1000000 then (1000000, "ms")
    else if nanoseconds ≥ 1000 then (1000, "µs")
    else (1, "ns")
  let hundredths := (nanoseconds * 100 + unit / 2) / unit
  let places := Decimal.natural (hundredths % 100)
  String.ofList (Decimal.natural (hundredths / 100)) ++ "." ++
    (if places.length < 2 then "0" else "") ++ String.ofList places ++ name

/-- Prints a notice, with the time that the finished phase took. -/
def tell (started : Nat) (notice : Notice) : IO Unit := do
  match notice with
  | .finished _ => IO.eprintln (notice.line ++ " " ++ elapsed ((← IO.monoNanosNow) - started))
  | _ => IO.eprintln notice.line

/-- Output that is held back. -/
structure Outlet where
  stream : IO.FS.Stream
  size : Nat
  pending : ByteArray := ByteArray.empty

namespace Outlet

/-- Lets everything out. -/
def release (outlet : Outlet) : IO Outlet := do
  outlet.stream.write outlet.pending
  outlet.stream.flush
  return { outlet with pending := ByteArray.empty }

/-- Does what a call of the program on its output stream asks for. -/
def serve (outlet : Outlet) : Call → IO Outlet
  | .write byte true => do
    let outlet := { outlet with pending := outlet.pending.push byte }
    if outlet.pending.size ≥ outlet.size then outlet.release else return outlet
  | .flush true => outlet.release
  | _ => return outlet

end Outlet

/-- The next instruction of the run needs a byte of the standard input. -/
def awaitsInput (text : Text) (run : Run) : Bool :=
  run.terminal.typeahead.isEmpty &&
    text[run.machine.position]?.any fun instruction => instruction.opcode = .input

/-- A byte of the standard input, read when everything is let out. -/
def arrival (input : IO.FS.Stream) : IO Arrival := do
  match (← input.read 1).toList with
  | byte :: _ => return .byte byte
  | [] => return .endOfInput

/-- Plays a run to its end at the standard streams, where `count` instructions are done. -/
partial def play (text : Text) (limit : Option Nat) (input : IO.FS.Stream) (outlet : Outlet)
    (count : Nat) (run : Run) : IO Progress := do
  let mut outlet := outlet
  let mut feed : List Arrival := []
  let exhausted := limit.any (· ≤ count)
  if awaitsInput text run && !exhausted then
    outlet ← outlet.release
    feed := [← arrival input]
  let run := { run with terminal := { run.terminal with feed := feed, history := #[] } }
  let progress :=
    match limit, exhausted with
    | some limit, true => (run.advance text 0).andThen (Run.giveUp (.ofNat limit))
    | _, _ => run.advance text 1
  for call in progress.run.terminal.history do
    outlet ← outlet.serve call
  match progress with
  | .running run => play text limit input outlet (count + 1) run
  | finished =>
    let _ ← outlet.release
    return finished

/-- Does the work of a command line at the standard streams. -/
def perform (arguments : Arguments) : IO Nat := do
  let output ← IO.getStdout
  let contents ← (some <$> IO.FS.readBinFile arguments.file).catchExceptions fun _ => pure none
  let started ← IO.monoNanosNow
  let prepared := arguments.prepare (contents.map ByteArray.toList)
  output.putStr prepared.output
  output.flush
  prepared.notices.forM (tell started)
  match prepared.program with
  | .error code => return code
  | .ok program =>
    if arguments.wants .run then
      let started ← IO.monoNanosNow
      (arguments.progress [.starting .program]).forM (tell started)
      let run := program.start (arguments.terminal [])
      let progress ← play program.text arguments.maxSteps (← IO.getStdin)
        { stream := output, size := arguments.bufferSize } 0 run
      let (code, notices) := arguments.conclude progress
      notices.forM (tell started)
      return code
    else
      return 0

end TapeMachine.CommandLine

open TapeMachine.CommandLine in
/-- Runs a command line. -/
def main (words : List String) : IO UInt32 := do
  match Arguments.read? words with
  | none =>
    IO.eprintln "usage: FILE [tokens] [bytecode] [run] [OPTIONS]"
    return usageCode.toUInt32
  | some arguments =>
    try
      return (← perform arguments).toUInt32
    catch _ =>
      IO.eprintln (Notice.error "IO Error").line
      return failureCode.toUInt32
