/-
**Listings.**

A listing has one line for each instruction of a text: its position, flush right, and the
instruction, two blanks deeper inside of every loop and of every region that uses the stack.

* `Outline.instructions_ofText`: the lines show the instructions of the text in order;
* `Outline.positions_ofText`: they are numbered from zero.
-/

import TapeMachine.Instruction

namespace TapeMachine

/-- One line of a listing. -/
structure Line where
  position : Nat
  depth : Nat
  instruction : Instruction
  deriving DecidableEq

namespace Line

/-- The characters of a line whose position takes a given width. -/
def chars (width : Nat) (line : Line) : List Char :=
  let number := Decimal.natural line.position
  List.replicate (width - number.length) ' ' ++ number ++ [' ', ' '] ++
    List.replicate (2 * line.depth) ' ' ++ line.instruction.chars ++ ['\n']

end Line

/-- The lines of the text so far, and the depth of the next line. -/
structure Outline where
  lines : Array Line
  depth : Nat

namespace Outline

/-- No line, at depth zero. -/
def empty : Outline := ⟨#[], 0⟩

/-- An opcode that moves its own line back out. -/
def closes (opcode : Opcode) : Bool :=
  opcode = .loopEnd || opcode = .pop

/-- An opcode that moves the lines behind it in. -/
def opens (opcode : Opcode) : Bool :=
  opcode = .loopStart || opcode = .push

/-- One more instruction. The depth of a line never falls below zero. -/
def add (outline : Outline) (instruction : Instruction) : Outline :=
  match outline with
  | ⟨lines, depth⟩ =>
    let depth := if closes instruction.opcode then depth - 1 else depth
    ⟨lines.push ⟨lines.size, depth, instruction⟩,
      if opens instruction.opcode then depth + 1 else depth⟩

/-- The outline of a text. -/
def ofText (text : Text) : Outline :=
  text.foldl add empty

theorem instructions_foldl_add (rest : List Instruction) (outline : Outline) :
    (rest.foldl add outline).lines.toList.map Line.instruction =
      outline.lines.toList.map Line.instruction ++ rest := by
  induction rest generalizing outline with
  | nil => simp
  | cons instruction rest ih => simp [ih, add]

theorem instructions_ofText (text : Text) :
    (ofText text).lines.toList.map Line.instruction = text.toList := by
  rw [ofText, ← Array.foldl_toList, instructions_foldl_add]
  rfl

theorem positions_foldl_add (rest : List Instruction) (outline : Outline)
    (numbered : outline.lines.toList.map Line.position = List.range outline.lines.size) :
    (rest.foldl add outline).lines.toList.map Line.position =
      List.range (outline.lines.size + rest.length) := by
  induction rest generalizing outline with
  | nil => simpa using numbered
  | cons instruction rest ih =>
    rw [List.foldl_cons, ih]
    · simp [add, Nat.add_assoc, Nat.add_comm 1]
    · simp [add, numbered, List.range_succ]

theorem positions_ofText (text : Text) :
    (ofText text).lines.toList.map Line.position = List.range text.size := by
  rw [ofText, ← Array.foldl_toList, positions_foldl_add _ _ rfl]
  simp [empty]

end Outline

/-- The listing of a text. -/
def listing (text : Text) : String :=
  let width := (Decimal.natural text.size).length
  String.join ((Outline.ofText text).lines.toList.map fun line => String.ofList (line.chars width))

end TapeMachine
