/-
**The alphabet.**

A Brainfuck source is a string of bytes, of which eight have a meaning and all others are comment.
`Symbol` names the eight by what they do; `Symbol.byte` is their spelling and `Symbol.ofByte?` reads
it back:

* `ofByte?_eq_some_iff`: a byte is read as a symbol exactly when it is that symbol's spelling, so
  no two symbols share a byte and every other byte is comment.
-/

namespace TapeMachine

/-- A source, as the bytes of its file. -/
abbrev Source := List UInt8

/-- The eight symbols. -/
inductive Symbol where
  /-- Move the head one cell to the right. -/
  | right
  /-- Move the head one cell to the left. -/
  | left
  /-- Add one to the cell under the head. -/
  | increment
  /-- Take one from the cell under the head. -/
  | decrement
  /-- Write the cell under the head to the output. -/
  | write
  /-- Read a byte of the input into the cell under the head. -/
  | read
  /-- Begin a loop, which is passed over while the cell under the head is zero. -/
  | opening
  /-- End a loop, which is repeated while the cell under the head is not zero. -/
  | closing
  deriving DecidableEq

namespace Symbol

/-- The spelling of a symbol. -/
def char : Symbol → Char
  | right => '>'
  | left => '<'
  | increment => '+'
  | decrement => '-'
  | write => '.'
  | read => ','
  | opening => '['
  | closing => ']'

/-- The byte that spells a symbol. -/
def byte (symbol : Symbol) : UInt8 :=
  symbol.char.toUInt8

/-- The symbol that a byte spells, if any. -/
def ofByte? : UInt8 → Option Symbol
  | 62 => some right
  | 60 => some left
  | 43 => some increment
  | 45 => some decrement
  | 46 => some write
  | 44 => some read
  | 91 => some opening
  | 93 => some closing
  | _ => none

theorem ofByte?_byte (symbol : Symbol) : ofByte? symbol.byte = some symbol := by
  cases symbol <;> rfl

theorem ofByte?_eq_some_iff {byte : UInt8} {symbol : Symbol} :
    ofByte? byte = some symbol ↔ byte = symbol.byte := by
  refine ⟨fun known => ?_, fun same => same ▸ ofByte?_byte symbol⟩
  revert known
  unfold ofByte?
  split <;> intro known <;> cases known <;> rfl

end Symbol

end TapeMachine
