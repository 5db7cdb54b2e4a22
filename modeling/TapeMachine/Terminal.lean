/-
**The terminal.**

What a running program talks to: an input stream, an output stream, and text that was typed ahead.
Text typed ahead is read first, and echoed to the output as if it were typed now. Every call on a
stream is kept in the `history` together with its result, so what a run can be seen to do is the
history of its terminal; a call may fail, and later calls work again.

* `output`, `flushMarks`: the bytes that reached the output, and how many had when it was flushed;
* `output_emit`, `output_flush`: a byte that is accepted is added at the end, a flush adds nothing;
* `read`: a byte typed ahead, or else a flush and one arrival behind the interruptions.
-/

namespace TapeMachine

/-- What one call on the input stream yields. -/
inductive Arrival where
  | byte (byte : UInt8)
  /-- The stream has nothing to give. -/
  | endOfInput
  /-- The call is to be made again. -/
  | interrupted
  /-- The call failed. -/
  | failure
  deriving DecidableEq

/-- What a program reads at the end of the input. -/
inductive EndPolicy where
  /-- The byte 255. -/
  | minusOne
  /-- The byte 0. -/
  | zero
  /-- Nothing: the cell stays as it is. -/
  | unchanged
  deriving DecidableEq

namespace EndPolicy

/-- All policies. -/
def all : List EndPolicy := [minusOne, zero, unchanged]

/-- The name by which a policy is asked for. -/
def name : EndPolicy → String
  | minusOne => "minus-one"
  | zero => "zero"
  | unchanged => "unchanged"

/-- The policy of a name. -/
def ofName? (name : String) : Option EndPolicy :=
  all.find? fun policy => policy.name = name

theorem ofName?_name (policy : EndPolicy) : ofName? policy.name = some policy := by
  cases policy <;> decide

end EndPolicy

/-- The answer to a request for a byte. -/
inductive Reply where
  | byte (byte : UInt8)
  /-- The cell stays as it is. -/
  | keep
  /-- A stream failed. -/
  | failed
  deriving DecidableEq

/-- What is read at the end of the input. -/
def EndPolicy.reply : EndPolicy → Reply
  | minusOne => .byte 255
  | zero => .byte 0
  | unchanged => .keep

/-- A call on a stream and its result. -/
inductive Call where
  | write (byte : UInt8) (accepted : Bool)
  | flush (accepted : Bool)
  | read (arrival : Arrival)
  deriving DecidableEq

/-- The streams of a running program. -/
structure Terminal where
  policy : EndPolicy := .minusOne
  /-- What was typed ahead and has not been read. -/
  typeahead : List UInt8 := []
  /-- What the input stream will yield, call by call; then it is at its end. -/
  feed : List Arrival := []
  /-- Which writes fail, counting calls from zero. -/
  writeFails : Nat → Bool := fun _ => false
  /-- Which flushes fail, counting calls from zero. -/
  flushFails : Nat → Bool := fun _ => false
  /-- The number of writes so far. -/
  writes : Nat := 0
  /-- The number of flushes so far. -/
  flushes : Nat := 0
  /-- All calls so far. -/
  history : Array Call := #[]

namespace Terminal

/-- Types text ahead, and a newline behind it, in place of what was typed ahead before. -/
def typeAhead (terminal : Terminal) (text : List UInt8) : Terminal :=
  { terminal with typeahead := text ++ [10] }

/-! ### Calls -/

/-- Writes a byte, and says whether it was accepted. -/
def emit (terminal : Terminal) (byte : UInt8) : Terminal × Bool :=
  let accepted := !terminal.writeFails terminal.writes
  ({ terminal with
      writes := terminal.writes + 1
      history := terminal.history.push (.write byte accepted) }, accepted)

/-- Flushes the output, and says whether that worked. -/
def flush (terminal : Terminal) : Terminal × Bool :=
  let accepted := !terminal.flushFails terminal.flushes
  ({ terminal with
      flushes := terminal.flushes + 1
      history := terminal.history.push (.flush accepted) }, accepted)

/-- The answer that an arrival stands for. -/
def reply (policy : EndPolicy) : Arrival → Reply
  | .byte byte => .byte byte
  | .endOfInput => policy.reply
  | .interrupted | .failure => .failed

/-- Calls on the input stream until it is not interrupted. -/
def poll (terminal : Terminal) : Terminal × Reply :=
  let interruptions := terminal.feed.takeWhile (· = .interrupted)
  let pending := terminal.feed.dropWhile (· = .interrupted)
  let arrival := pending.headD .endOfInput
  ({ terminal with
      feed := pending.tail
      history := (terminal.history ++ interruptions.map Call.read).push (.read arrival) },
    reply terminal.policy arrival)

/-- Reads a byte: the next one typed ahead, which is echoed and flushed, or else, behind a flush, one
from the input stream. -/
def read (terminal : Terminal) : Terminal × Reply :=
  match terminal.typeahead with
  | byte :: rest =>
    match { terminal with typeahead := rest }.emit byte with
    | (terminal, false) => (terminal, .failed)
    | (terminal, true) =>
      match terminal.flush with
      | (terminal, false) => (terminal, .failed)
      | (terminal, true) => (terminal, .byte byte)
  | [] =>
    match terminal.flush with
    | (terminal, false) => (terminal, .failed)
    | (terminal, true) => terminal.poll

/-! ### What can be seen -/

/-- The byte that a call put out. -/
def emitted : Call → Option UInt8
  | .write byte true => some byte
  | _ => none

/-- The bytes that reached the output. -/
def output (terminal : Terminal) : List UInt8 :=
  terminal.history.toList.filterMap emitted

/-- For each flush that worked in some calls, how many bytes had reached the output, if there were
`count` before. -/
def marks (count : Nat) : List Call → List Nat
  | [] => []
  | .write _ true :: rest => marks (count + 1) rest
  | .flush true :: rest => count :: marks count rest
  | _ :: rest => marks count rest

/-- For each flush that worked, how many bytes had reached the output. -/
def flushMarks (terminal : Terminal) : List Nat :=
  marks 0 terminal.history.toList

@[simp] theorem output_emit (terminal : Terminal) (byte : UInt8) :
    (terminal.emit byte).1.output =
      terminal.output ++ if (terminal.emit byte).2 then [byte] else [] := by
  cases fails : terminal.writeFails terminal.writes <;> simp [emit, output, emitted, fails]

@[simp] theorem output_flush (terminal : Terminal) : terminal.flush.1.output = terminal.output := by
  simp [flush, output, emitted]

theorem output_poll (terminal : Terminal) : terminal.poll.1.output = terminal.output := by
  simp [poll, output, emitted, List.filterMap_map, Function.comp_def]

end Terminal

end TapeMachine
