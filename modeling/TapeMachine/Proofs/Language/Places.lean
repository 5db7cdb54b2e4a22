/-
**Lines and columns.**

* `Source.place`: the place behind a source, by its newlines and by the bytes behind the last of them;
* `Source.placeAt`: the place of a position in a source;
* `scan_place`: scanning a source gets to the place behind it;
* `tokens_concat`: so one more byte adds its symbol, if it has one, with the place behind the others;
* `symbols_eq_filterMap`: the symbols of a source are those that its bytes spell.
-/

import Mathlib.Data.List.Induction
import TapeMachine.Proofs.Assembly.Finished

namespace TapeMachine

/-- The byte that ends a line. -/
def newline : UInt8 := 10

namespace Source

/-- The place behind a source: one line further for every newline, and one column for every byte
behind the last newline. -/
def place (source : Source) : Place where
  line := 1 + source.count newline
  column := 1 + (source.reverse.takeWhile (· ≠ newline)).length
  offset := source.length

/-- The place before the byte at a position. -/
def placeAt (source : Source) (position : Nat) : Place :=
  place (source.take position)

theorem placeAt_append {first : Source} {position : Nat} (within : position ≤ first.length)
    (second : Source) : placeAt (first ++ second) position = first.placeAt position := by
  rw [placeAt, placeAt, List.take_append_of_le_length within]

theorem placeAt_length (first second : Source) :
    placeAt (first ++ second) first.length = first.place := by
  rw [placeAt, List.take_left]

theorem place_concat (source : Source) (byte : UInt8) :
    place (source ++ [byte]) = source.place.after byte := by
  by_cases ended : byte = newline
  · subst ended
    simp [place, Place.after, newline, Nat.add_assoc]
  · have same : byte ≠ 10 := ended
    simp [place, Place.after, newline, same, Nat.add_assoc]

end Source

theorem scan_concat (source : Source) (byte : UInt8) :
    scan (source ++ [byte]) = (scan source).next byte :=
  scan_append source [byte]

/-- Scanning gets to the place behind the source. -/
theorem scan_place (source : Source) : (scan source).place = source.place := by
  induction source using List.reverseRecOn with
  | nil => rfl
  | append_singleton source byte ih =>
    rw [scan_concat, Scan.place_next, ih, Source.place_concat]

/-- What one more byte adds to the tokens. -/
theorem tokens_concat (source : Source) (byte : UInt8) :
    (scan (source ++ [byte])).tokens.toList = (scan source).tokens.toList ++
      ((Symbol.ofByte? byte).map fun symbol => ⟨symbol, source.place⟩).toList := by
  rw [scan_concat, ← scan_place]
  generalize scan source = before
  rcases before with ⟨tokens, place⟩
  simp only [Scan.next]
  cases Symbol.ofByte? byte with
  | none => exact (List.append_nil _).symm
  | some symbol => exact Array.toList_push ..

theorem symbols_concat (source : Source) (byte : UInt8) :
    Source.symbols (source ++ [byte]) = source.symbols ++ (Symbol.ofByte? byte).toList := by
  rw [Source.symbols, tokens_concat, List.map_append]
  cases Symbol.ofByte? byte <;> rfl

/-- The symbols of a source are those its bytes spell; all other bytes are passed over. -/
theorem symbols_eq_filterMap (source : Source) : source.symbols = source.filterMap Symbol.ofByte? := by
  suffices general : ∀ before : Scan, (source.foldl Scan.next before).tokens.toList.map Token.symbol =
      before.tokens.toList.map Token.symbol ++ source.filterMap Symbol.ofByte? from general Scan.start
  induction source with
  | nil => exact fun before => (List.append_nil _).symm
  | cons byte rest ih =>
    rintro ⟨tokens, place⟩
    rw [List.foldl_cons, ih, Scan.next]
    cases spelled : Symbol.ofByte? byte with
    | none => rw [List.filterMap_cons_none spelled]
    | some symbol => simp [List.filterMap_cons_some spelled]

end TapeMachine
