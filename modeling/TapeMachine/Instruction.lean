/-
**Instructions.**

An instruction is an opcode with three operands: a value, an offset and a link to another
instruction. Which of them an opcode uses, and so shows, is `Opcode.operands`; the others are
carried along. A program is a `Text`, an array of instructions, and a link is a position in it.

* `Opcode.ofName?_name`: the printed name of an opcode determines the opcode;
* `Opcode.isBoundary_iff`: the opcodes that use their link are the boundaries of loops and regions.
-/

import TapeMachine.Decimal

namespace TapeMachine

/-- What an instruction does. -/
inductive Opcode where
  /-- Nothing. -/
  | nop
  /-- Move the head by the value. -/
  | move
  /-- Add the value to the cell. -/
  | add
  /-- Read a byte into the cell. -/
  | input
  /-- Write the cell. -/
  | output
  /-- Continue behind the linked `loopEnd` if the cell is zero. -/
  | loopStart
  /-- Continue behind the linked `loopStart` if the cell is not zero. -/
  | loopEnd
  /-- Clear as many cells as the value says, moving by the offset between two of them. -/
  | reset
  /-- Add the register times the value to the cell at the offset. -/
  | multiply
  /-- Add the cell times the value to the cell at the offset, and clear the cell. -/
  | store
  /-- Move the head by the value until it is on a zero cell. -/
  | seek
  /-- Make the cell the value. -/
  | set
  /-- End the run. -/
  | stop
  /-- Begin a region: put the cell on the stack and into the register, or skip the region if the
  cell is zero. -/
  | push
  /-- Begin a region without the stack: move the cell into the register, or skip the region if the
  cell is zero. -/
  | pushFast
  /-- End a region: clear the cell and restore the register of the region around. -/
  | pop
  /-- End a region that was begun without the stack. -/
  | popFast
  deriving DecidableEq

/-- Which operands an opcode uses. -/
inductive Operands where
  | none
  | value
  | valueAndOffset
  | link
  deriving DecidableEq

namespace Opcode

/-- All opcodes. -/
def all : List Opcode :=
  [nop, move, add, input, output, loopStart, loopEnd, reset, multiply, store, seek, set, stop, push,
    pushFast, pop, popFast]

theorem mem_all (opcode : Opcode) : opcode ∈ all := by
  cases opcode <;> decide

/-- The printed name. -/
def name : Opcode → String
  | nop => "Nop"
  | move => "MovePointer"
  | add => "Addition"
  | input => "Input"
  | output => "Output"
  | loopStart => "LoopStart"
  | loopEnd => "LoopEnd"
  | reset => "Reset"
  | multiply => "Multiplication"
  | store => "Store"
  | seek => "Seek"
  | set => "Set"
  | stop => "Stop"
  | push => "Push"
  | pushFast => "PushFast"
  | pop => "Pop"
  | popFast => "PopFast"

/-- The opcode of a printed name. -/
def ofName? (name : String) : Option Opcode :=
  all.find? fun opcode => opcode.name = name

theorem ofName?_name (opcode : Opcode) : ofName? opcode.name = some opcode := by
  cases opcode <;> decide

/-- The operands that an opcode uses. -/
def operands : Opcode → Operands
  | nop | input | output | stop => .none
  | move | add | seek | set => .value
  | reset | multiply | store => .valueAndOffset
  | loopStart | loopEnd | push | pushFast | pop | popFast => .link

/-- An opcode that begins or ends a loop or a region. -/
def isBoundary (opcode : Opcode) : Bool :=
  opcode.operands = .link

theorem isBoundary_iff {opcode : Opcode} :
    opcode.isBoundary = true ↔
      opcode ∈ [loopStart, loopEnd, push, pushFast, pop, popFast] := by
  cases opcode <;> decide

end Opcode

/-- An opcode with its operands. -/
structure Instruction where
  opcode : Opcode
  value : Int := 0
  offset : Int := 0
  link : Nat := 0
  deriving DecidableEq

namespace Instruction

/-- The operands as they are printed. -/
def operandChars (instruction : Instruction) : List Char :=
  match instruction.opcode.operands with
  | .none => []
  | .value => '(' :: Decimal.integer instruction.value ++ [')']
  | .valueAndOffset =>
    '(' :: Decimal.integer instruction.value ++ [',', ' '] ++
      Decimal.integer instruction.offset ++ [')']
  | .link => [' ', '-', '>', ' '] ++ Decimal.natural instruction.link

/-- An instruction as it is printed. -/
def chars (instruction : Instruction) : List Char :=
  instruction.opcode.name.toList ++ instruction.operandChars

/-- An instruction as it is printed. -/
def display (instruction : Instruction) : String :=
  String.ofList instruction.chars

end Instruction

/-- A program, finished or not. -/
abbrev Text := Array Instruction

end TapeMachine
