/-
**Diagnostics.**

What is reported while a program is built: every loop that was looked at as a counted loop and
refused, every loop that was rewritten, and the finished program.
-/

import TapeMachine.Pass

namespace TapeMachine

/-- How much a report matters. -/
inductive Level where
  | trace
  | debug
  | info
  deriving DecidableEq

/-- The printed name of a level. -/
def Level.name : Level → String
  | trace => "TRACE"
  | debug => "DEBUG"
  | info => "INFO"

/-- A report. -/
inductive Diagnostic where
  /-- A loop is not a counted loop. -/
  | refused (refusal : Loop.Refusal)
  /-- A pass replaced the loop at `start`, which left a text of `size` instructions. -/
  | rewrote (pass : Pass) (start size : Nat)
  /-- A program of `size` instructions is finished. -/
  | finished (size : Nat) (passes : List Pass)

namespace Diagnostic

/-- How much a report matters. -/
def level : Diagnostic → Level
  | refused _ => .trace
  | rewrote _ _ _ => .debug
  | finished _ _ => .info

/-- The headline of a report. -/
def message : Diagnostic → String
  | refused (.unsupported _) => "multiplication: unsupported instruction"
  | refused (.uncounted _ _) => "multiplication: not a counted loop"
  | refused .unrepeatable => "multiplication: body isn't repeatable"
  | rewrote _ _ _ => "rewrote loop"
  | finished _ _ => "parsed program"

end Diagnostic

/-- An instruction with all of its operands, as it stands in a report. -/
def Instruction.record (instruction : Instruction) : String :=
  "Instruction \x7b opcode: " ++ instruction.opcode.name ++
    ", value: " ++ String.ofList (Decimal.integer instruction.value) ++
    ", offset: " ++ String.ofList (Decimal.integer instruction.offset) ++
    ", link: " ++ String.ofList (Decimal.natural instruction.link) ++ " \x7d"

/-- The name of a pass in the report of a finished program. -/
def Pass.flag : Pass → String
  | commentBlock => "COMMENT_BLOCK"
  | reset => "RESET"
  | seek => "SEEK"
  | multiplication => "MULTIPLICATION"
  | emptyLoop => "EMPTY_LOOP"
  | setFolding => "SET_FOLDING"

/-- The passes in the report of a finished program. -/
def Pass.record (passes : List Pass) : String :=
  if passes.isEmpty then "Optimizations(0x0)"
  else "Optimizations(" ++ String.intercalate " | " (passes.map Pass.flag) ++ ")"

end TapeMachine
