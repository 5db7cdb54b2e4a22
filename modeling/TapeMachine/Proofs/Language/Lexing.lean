/-
**Tokens and where they stand.**

* `Source.positions`, `Source.tokenAt?`: where the symbols of a source are, and the token at each, read
  off the byte there and the bytes before it;
* `tokens_scan`: scanning a source finds these tokens, in the order of their positions;
* `Lexer.next`, `Lexer.call`: reading on demand, one token for each call;
* `call_of_rest`: which does the same, and is always right behind the token that it answered;
* `take_unplaced`, `assemble_unplaced`: no place has a say in what becomes of a source;
* `scanned`: the tokens of every source, and that only their symbols matter.
-/

import TapeMachine.Proofs.Language.Places

namespace TapeMachine

/-! ### Tokens by position -/

namespace Source

/-- The symbol at a position, if there is one. -/
def symbolAt? (source : Source) (position : Nat) : Option Symbol :=
  source[position]?.bind Symbol.ofByte?

/-- The token at a position, if there is a symbol. -/
def tokenAt? (source : Source) (position : Nat) : Option Token :=
  (source.symbolAt? position).map fun symbol => ⟨symbol, source.placeAt position⟩

/-- The positions of the symbols, in increasing order. -/
def positions (source : Source) : List Nat :=
  (List.range source.length).filter fun position => (source.symbolAt? position).isSome

theorem symbolAt?_append {first : Source} {position : Nat} (within : position < first.length)
    (second : Source) : symbolAt? (first ++ second) position = first.symbolAt? position := by
  rw [symbolAt?, symbolAt?, List.getElem?_append_left within]

theorem symbolAt?_length (first second : Source) (byte : UInt8) :
    symbolAt? (first ++ byte :: second) first.length = Symbol.ofByte? byte := by
  rw [symbolAt?, List.getElem?_append_right (Nat.le_refl _), Nat.sub_self]
  rfl

theorem tokenAt?_append {first : Source} {position : Nat} (within : position < first.length)
    (second : Source) : tokenAt? (first ++ second) position = first.tokenAt? position := by
  rw [tokenAt?, tokenAt?, symbolAt?_append within, placeAt_append (Nat.le_of_lt within)]

theorem tokenAt?_length (first second : Source) (byte : UInt8) :
    tokenAt? (first ++ byte :: second) first.length =
      (Symbol.ofByte? byte).map fun symbol => ⟨symbol, first.place⟩ := by
  rw [tokenAt?, symbolAt?_length, placeAt_length]

/-- One more byte adds its position, if it is a symbol. -/
theorem positions_concat (source : Source) (byte : UInt8) :
    positions (source ++ [byte]) =
      source.positions ++ if (Symbol.ofByte? byte).isSome then [source.length] else [] := by
  have early : (List.range source.length).filter
      (fun position => (symbolAt? (source ++ [byte]) position).isSome) = source.positions :=
    List.filter_congr fun position member => by
      rw [symbolAt?_append (List.mem_range.mp member)]
  rw [positions, List.length_append, List.length_singleton, List.range_succ, List.filter_append, early,
    List.filter_cons, symbolAt?_length]
  rfl

/-- The place behind a position is one byte further. -/
theorem placeAt_succ {source : Source} {position : Nat} {byte : UInt8}
    (found : source[position]? = some byte) :
    source.placeAt (position + 1) = (source.placeAt position).after byte := by
  rw [placeAt, List.take_add_one, found]
  exact place_concat _ byte

/-- A token ends at the place of the byte behind it. -/
theorem stop_of_tokenAt? {source : Source} {position : Nat} {token : Token}
    (found : source.tokenAt? position = some token) :
    token.stop = source.placeAt (position + 1) := by
  obtain ⟨symbol, spelled, rfl⟩ := Option.map_eq_some_iff.mp found
  obtain ⟨byte, here, named⟩ := Option.bind_eq_some_iff.mp spelled
  obtain rfl := Symbol.ofByte?_eq_some_iff.mp named
  exact (placeAt_succ here).symm

end Source

/-- Scanning finds the tokens at the positions of the symbols. -/
theorem tokens_scan (source : Source) :
    (scan source).tokens.toList.map some = source.positions.map source.tokenAt? := by
  induction source using List.reverseRecOn with
  | nil => rfl
  | append_singleton source byte ih =>
    have early : (Source.positions source).map (Source.tokenAt? (source ++ [byte])) =
        (Source.positions source).map (Source.tokenAt? source) :=
      List.map_congr_left fun position member =>
        Source.tokenAt?_append (List.mem_range.mp (List.mem_of_mem_filter member)) [byte]
    rw [tokens_concat, Source.positions_concat, List.map_append, List.map_append, ih, early]
    congr 1
    cases spelled : Symbol.ofByte? byte with
    | none => rfl
    | some symbol => simp [Source.tokenAt?_length, spelled]

/-! ### Reading on demand -/

/-- A source that is being read: the place reached, and the bytes that are left. -/
structure Lexer where
  place : Place
  rest : Source
  deriving DecidableEq

namespace Lexer

/-- Nothing has been read. -/
def start (source : Source) : Lexer := ⟨Place.start, source⟩

/-- Reads up to the next symbol and over it, or else to the end. -/
def nextFrom (place : Place) : Source → Option Token × Lexer
  | [] => (none, ⟨place, []⟩)
  | byte :: rest =>
    match Symbol.ofByte? byte with
    | some symbol => (some ⟨symbol, place⟩, ⟨place.after byte, rest⟩)
    | none => nextFrom (place.after byte) rest

/-- The next token, if there is one, and how far was read for it. -/
def next (lexer : Lexer) : Option Token × Lexer :=
  nextFrom lexer.place lexer.rest

/-- What a call answers after so many others, and how far was read until then. -/
def call : Nat → Lexer → Option Token × Lexer
  | 0, lexer => lexer.next
  | count + 1, lexer => lexer.next.2.call count

theorem next_symbol {byte : UInt8} {symbol : Symbol} (spelled : Symbol.ofByte? byte = some symbol)
    (place : Place) (rest : Source) :
    next ⟨place, byte :: rest⟩ = (some ⟨symbol, place⟩, ⟨place.after byte, rest⟩) := by
  simp only [next, nextFrom, spelled]

theorem next_comment {byte : UInt8} (comment : Symbol.ofByte? byte = none) (place : Place)
    (rest : Source) : next ⟨place, byte :: rest⟩ = next ⟨place.after byte, rest⟩ := by
  simp only [next, nextFrom, comment]

/-- A comment byte is passed over by whichever call comes next. -/
theorem call_comment {byte : UInt8} (comment : Symbol.ofByte? byte = none) (place : Place)
    (rest : Source) (count : Nat) :
    call count ⟨place, byte :: rest⟩ = call count ⟨place.after byte, rest⟩ := by
  cases count <;> simp only [call, next_comment comment]

/-- Behind the end there is nothing to read. -/
theorem call_end (place : Place) (count : Nat) : call count ⟨place, []⟩ = (none, ⟨place, []⟩) := by
  induction count with
  | zero => rfl
  | succ count ih => exact ih

end Lexer

namespace Source

/-- What a call answers and how far it reads, if it is to find the symbol at the position, or none. -/
def answer (source : Source) : Option Nat → Option Token × Lexer
  | some position =>
    (source.tokenAt? position, ⟨source.placeAt (position + 1), source.drop (position + 1)⟩)
  | none => (none, ⟨source.placeAt source.length, []⟩)

end Source

/-- Where some bytes have been read, the calls find the symbols among those that are left. -/
theorem call_of_rest (first rest : Source) (count : Nat) :
    Lexer.call count ⟨first.place, rest⟩ =
      Source.answer (first ++ rest)
        ((List.range' first.length rest.length).filter fun position =>
          (Source.symbolAt? (first ++ rest) position).isSome)[count]? := by
  induction rest generalizing first count with
  | nil =>
    rw [Lexer.call_end, List.append_nil]
    exact congrArg (fun place => (none, Lexer.mk place []))
      (congrArg Source.place (List.take_length (l := first)).symm)
  | cons byte rest ih =>
    -- The byte goes from those that are left to those that have been read.
    have behind := ih (first ++ [byte])
    rw [Source.place_concat, List.append_assoc, List.length_append, List.length_singleton,
      List.singleton_append] at behind
    rw [List.length_cons, List.range'_succ, List.filter_cons, Source.symbolAt?_length]
    cases spelled : Symbol.ofByte? byte with
    | none =>
      rw [Lexer.call_comment spelled]
      exact behind count
    | some symbol =>
      cases count with
      | zero =>
        have here : (first ++ byte :: rest)[first.length]? = some byte := by simp
        have place : Source.placeAt (first ++ byte :: rest) (first.length + 1) =
            first.place.after byte := by
          rw [Source.placeAt_succ here, Source.placeAt_length]
        have left : (first ++ byte :: rest).drop (first.length + 1) = rest := by
          rw [← List.drop_drop, List.drop_left]
          rfl
        simp only [Lexer.call, Lexer.next_symbol spelled, Option.isSome_some, if_true,
          List.getElem?_cons_zero, Source.answer, Source.tokenAt?_length, spelled, place, left]
        rfl
      | succ count =>
        rw [Lexer.call, Lexer.next_symbol spelled]
        exact behind count

/-! ### Programs without places -/

/-- The token without its place. -/
def Token.unplaced (token : Token) : Token := ⟨token.symbol, Place.start⟩

/-- The error without the place of its bracket. -/
def AssemblyError.unplaced : AssemblyError → AssemblyError
  | .unmatched bracket => .unmatched bracket.unplaced
  | .fault cause => .fault cause

/-- The rejection without the place of its bracket. -/
def Rejection.unplaced (rejection : Rejection) : Rejection :=
  ⟨rejection.error.unplaced, rejection.diagnostics⟩

/-- The draft without the places of the brackets that it waits for. -/
def Draft.unplaced : Draft → Draft
  | ⟨text, waiting, diagnostics⟩ =>
    ⟨text, waiting.map fun opened => ⟨opened.start, opened.bracket.unplaced⟩, diagnostics⟩

section Unplaced

variable (passes : Passes)

theorem fold_unplaced (draft : Draft) (opcode : Opcode) (amount : Int) :
    draft.unplaced.fold passes opcode amount =
      ((draft.fold passes opcode amount).map Draft.unplaced).mapError Rejection.unplaced := by
  rcases draft with ⟨text, waiting, diagnostics⟩
  simp only [Draft.unplaced, Draft.fold]
  cases text.accumulate (passes .setFolding) opcode amount <;> rfl

theorem closeLoop_unplaced (draft : Draft) (bracket : Token) :
    draft.unplaced.closeLoop passes bracket.unplaced =
      ((draft.closeLoop passes bracket).map Draft.unplaced).mapError Rejection.unplaced := by
  rcases draft with ⟨text, _ | ⟨⟨start, opened⟩, waiting⟩, diagnostics⟩
  · rfl
  · simp only [Draft.unplaced, Draft.closeLoop, List.map_cons]
    cases text.close start with
    | error fault => rfl
    | ok closed =>
      simp only
      cases improve passes closed start with
      | error fault => rfl
      | ok improvement => rcases improvement with ⟨_ | _, refusals⟩ <;> rfl

/-- A token is taken in without looking at places. -/
theorem take_unplaced (draft : Draft) (token : Token) :
    draft.unplaced.take passes token.unplaced =
      ((draft.take passes token).map Draft.unplaced).mapError Rejection.unplaced := by
  rcases token with ⟨symbol, place⟩
  cases symbol with
  | right | left | increment | decrement => exact fold_unplaced passes draft _ _
  | write | read | opening => rfl
  | closing => exact closeLoop_unplaced passes draft _

theorem foldlM_unplaced (tokens : List Token) (draft : Draft) :
    (tokens.map Token.unplaced).foldlM (Draft.take passes) draft.unplaced =
      ((tokens.foldlM (Draft.take passes) draft).map Draft.unplaced).mapError Rejection.unplaced := by
  induction tokens generalizing draft with
  | nil => rfl
  | cons token tokens ih =>
    rw [List.map_cons, List.foldlM_cons, List.foldlM_cons, take_unplaced]
    cases draft.take passes token with
    | error rejection => rfl
    | ok next => exact ih next

theorem finish_unplaced (draft : Draft) :
    draft.unplaced.finish passes = (draft.finish passes).mapError Rejection.unplaced := by
  rcases draft with ⟨text, _ | ⟨⟨start, opened⟩, waiting⟩, diagnostics⟩
  · simp only [Draft.unplaced, Draft.finish, List.map_nil]
    cases Region.dropFastEnds (text.push { opcode := .stop }) <;> rfl
  · rfl

/-- What becomes of a source, but for the place of a bracket that is to blame, is what becomes of its
symbols. -/
theorem assemble_unplaced (source : Source) :
    (assemble passes source).mapError Rejection.unplaced =
      ((source.symbols.map (Token.mk · Place.start)).foldlM (Draft.take passes) Draft.empty).bind
        (·.finish passes) := by
  have tokens : source.symbols.map (Token.mk · Place.start) =
      (scan source).tokens.toList.map Token.unplaced := by
    rw [Source.symbols, List.map_map]
    rfl
  rw [tokens, show Draft.empty = Draft.empty.unplaced from rfl, foldlM_unplaced, assemble,
    ← Array.foldlM_toList]
  cases (scan source).tokens.toList.foldlM (Draft.take passes) Draft.empty with
  | error rejection => rfl
  | ok draft => exact (finish_unplaced passes draft).symm

end Unplaced

/-- What differs in places only is the same program, or rejected alike. -/
theorem cases_of_unplaced {first second : Except Rejection Assembly}
    (same : first.mapError Rejection.unplaced = second.mapError Rejection.unplaced) :
    (∃ assembly, first = .ok assembly ∧ second = .ok assembly) ∨
      ∃ rejection rejected, first = .error rejection ∧ second = .error rejected ∧
        rejection.unplaced = rejected.unplaced := by
  cases first with
  | ok assembly =>
    cases second with
    | ok assembled => exact .inl ⟨assembly, rfl, same.symm⟩
    | error rejected => cases same
  | error rejection =>
    cases second with
    | ok assembled => cases same
    | error rejected => exact .inr ⟨rejection, rejected, rfl, rfl, Except.error.inj same⟩

/-! ### The tokens of a source -/

/-- What is read of a source. -/
structure Source.Scanned (source : Source) : Prop where
  /-- The tokens are those at the positions of symbols, in increasing order. -/
  tokens : (scan source).tokens.toList.map some = source.positions.map source.tokenAt?
  /-- Behind each, the place is that of the next byte. -/
  stops : ∀ position token, source.tokenAt? position = some token →
    token.stop = source.placeAt (position + 1)
  /-- Behind all of them, it is the end of the source. -/
  finish : (scan source).place = source.placeAt source.length
  /-- On demand the same tokens are read one by one, each no further than to its last byte, and the end
  of the source is reached where there is none left. -/
  calls : ∀ count, (Lexer.start source).call count = source.answer source.positions[count]?
  /-- Another source with these symbols is the same program, or is rejected as this one is. -/
  alike : ∀ (other : Source) (passes : Passes),
    source.filterMap Symbol.ofByte? = other.filterMap Symbol.ofByte? →
      (∃ assembly, assemble passes source = .ok assembly ∧ assemble passes other = .ok assembly) ∨
        ∃ rejection rejected, assemble passes source = .error rejection ∧
          assemble passes other = .error rejected ∧ rejection.unplaced = rejected.unplaced

/-- **The tokens of a source** are the symbols at their places, whether they are read at once or on
demand, and what stands between them makes no difference to the program. -/
theorem scanned (source : Source) : source.Scanned where
  tokens := tokens_scan source
  stops _ _ := Source.stop_of_tokenAt?
  finish := by
    rw [scan_place, Source.placeAt, List.take_length]
  calls count := by
    have called := call_of_rest [] source count
    rwa [List.nil_append, List.length_nil, ← List.range_eq_range'] at called
  alike other passes same := by
    have unplaced : (assemble passes source).mapError Rejection.unplaced =
        (assemble passes other).mapError Rejection.unplaced := by
      rw [assemble_unplaced, assemble_unplaced, symbols_eq_filterMap, symbols_eq_filterMap, same]
    exact cases_of_unplaced unplaced

/-- Comments, a second line and a byte above the others change nothing but places. -/
theorem commented_source_scanned :
    let source : Source := ['+', '\n', ' ', 'a', '[', 'ÿ', ']'].map Char.toUInt8
    let other : Source := ['+', '[', ']'].map Char.toUInt8
    source.positions = [0, 4, 6] ∧
      (Lexer.start source).call 1 = (some ⟨.opening, ⟨2, 3, 4⟩⟩, ⟨⟨2, 4, 5⟩, [0xff, 0x5d]⟩) ∧
        source.Scanned ∧
        source.filterMap Symbol.ofByte? = other.filterMap Symbol.ofByte? ∧
        ((∃ assembly, assemble Passes.all source = .ok assembly ∧
          assemble Passes.all other = .ok assembly) ∨
            ∃ rejection rejected, assemble Passes.all source = .error rejection ∧
              assemble Passes.all other = .error rejected ∧ rejection.unplaced = rejected.unplaced) :=
  ⟨by decide, by decide, scanned _, by decide, (scanned _).alike _ _ (by decide)⟩

end TapeMachine
