/-
**Tokens and their places.**

A token is a symbol of the source together with the place where it stands. Lines and columns count
from one, offsets from zero, and all three count bytes; only the newline byte ends a line.

* `scan` reads a whole source, keeping its tokens in order and the place after its last byte;
* `scan_append`: scanning can be resumed, so what follows a token never changes its place;
* `scan_place_offset`: the final offset is the length of the source.
-/

import TapeMachine.Symbol

namespace TapeMachine

/-- A place between two bytes of a source. -/
structure Place where
  line : Nat
  column : Nat
  offset : Nat
  deriving DecidableEq

namespace Place

/-- The place before the first byte. -/
def start : Place := ⟨1, 1, 0⟩

/-- The place on the other side of a byte. -/
def after (place : Place) (byte : UInt8) : Place :=
  if byte = 10 then ⟨place.line + 1, 1, place.offset + 1⟩
  else ⟨place.line, place.column + 1, place.offset + 1⟩

@[simp] theorem offset_after (place : Place) (byte : UInt8) :
    (place.after byte).offset = place.offset + 1 := by
  unfold after
  split <;> rfl

end Place

/-- A symbol of the source and the place before it. -/
structure Token where
  symbol : Symbol
  place : Place
  deriving DecidableEq

/-- The place after a token. -/
def Token.stop (token : Token) : Place :=
  token.place.after token.symbol.byte

/-- What has been read of a source: the tokens in order, and the place reached. -/
structure Scan where
  tokens : Array Token
  place : Place

namespace Scan

/-- Nothing has been read. -/
def start : Scan := ⟨#[], Place.start⟩

/-- One more byte is read; a byte that is no symbol only moves the place. -/
def next : Scan → UInt8 → Scan
  | ⟨tokens, place⟩, byte =>
    match Symbol.ofByte? byte with
    | some symbol => ⟨tokens.push ⟨symbol, place⟩, place.after byte⟩
    | none => ⟨tokens, place.after byte⟩

@[simp] theorem place_next (scan : Scan) (byte : UInt8) :
    (scan.next byte).place = scan.place.after byte := by
  simp only [next]
  split <;> rfl

end Scan

/-- The tokens of a source and the place after its last byte. -/
def scan (source : Source) : Scan :=
  source.foldl Scan.next Scan.start

theorem scan_append (first second : Source) :
    scan (first ++ second) = second.foldl Scan.next (scan first) := by
  simp [scan]

theorem foldl_next_offset (source : Source) (before : Scan) :
    (source.foldl Scan.next before).place.offset = before.place.offset + source.length := by
  induction source generalizing before with
  | nil => rfl
  | cons byte rest ih => simp [ih, Nat.add_assoc, Nat.add_comm 1]

theorem scan_place_offset (source : Source) : (scan source).place.offset = source.length := by
  simp [scan, foldl_next_offset, Scan.start, Place.start]

end TapeMachine
