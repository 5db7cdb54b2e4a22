/-
**What a source means.**

The language read literally: one symbol after the other is carried out, on a tape without ends whose
cells are bytes. Nothing is prepared; where a bracket jumps, its partner is looked for there and then,
by counting the brackets in between.

* `Reading.step`: carries out one symbol, and at the end of the source flushes the output;
* `Reading.advance`, `Reading.Ends`: so many symbols, and how a reading ends;
* `Paired`, `cross_of_paired`, `cross_back_of_paired`: a bracket's partner is found behind whatever is
  paired in itself.
-/

import TapeMachine.Run
import TapeMachine.Symbol

namespace TapeMachine

/-- A source that is being carried out. -/
structure Reading where
  /-- The symbols before the next one, last first. -/
  passed : List Symbol
  /-- The next symbol and those behind it. -/
  ahead : List Symbol
  cells : Int → UInt8
  /-- The cell under the head. -/
  index : Int
  terminal : Terminal

/-- What has become of a reading. -/
inductive Reading.Progress where
  | running (reading : Reading)
  | ended (ending : Ending) (reading : Reading)

/-! ### Partners of brackets -/

/-- Goes over symbols, from those ahead to those behind, until the next is the one that leaves as many
pairs of brackets as were entered, and one more. -/
def cross (entering leaving : Symbol) : (depth : Nat) → (behind ahead : List Symbol) →
    List Symbol × List Symbol
  | _, behind, [] => (behind, [])
  | depth, behind, symbol :: ahead =>
    if symbol = leaving then
      match depth with
      | 0 => (behind, symbol :: ahead)
      | depth + 1 => cross entering leaving depth (symbol :: behind) ahead
    else if symbol = entering then cross entering leaving (depth + 1) (symbol :: behind) ahead
    else cross entering leaving depth (symbol :: behind) ahead

section Crossing

variable {entering leaving symbol : Symbol} {depth : Nat} {behind ahead : List Symbol}

theorem cross_of_ne (enters : symbol ≠ entering) (leaves : symbol ≠ leaving) :
    cross entering leaving depth behind (symbol :: ahead) =
      cross entering leaving depth (symbol :: behind) ahead := by
  cases depth <;> rw [cross, if_neg leaves, if_neg enters]

theorem cross_entering (apart : entering ≠ leaving) :
    cross entering leaving depth behind (entering :: ahead) =
      cross entering leaving (depth + 1) (entering :: behind) ahead := by
  cases depth <;> rw [cross, if_neg apart, if_pos rfl]

theorem cross_leaving : cross entering leaving (depth + 1) behind (leaving :: ahead) =
    cross entering leaving depth (leaving :: behind) ahead := by
  rw [cross, if_pos rfl]

theorem cross_partner : cross entering leaving 0 behind (leaving :: ahead) =
    (behind, leaving :: ahead) := by
  rw [cross, if_pos rfl]

end Crossing

/-- Every bracket in the symbols has its partner there. -/
inductive Paired : List Symbol → Prop where
  | nil : Paired []
  | symbol {symbols : List Symbol} {symbol : Symbol} (before : Paired symbols)
      (opening : symbol ≠ .opening) (closing : symbol ≠ .closing) : Paired (symbols ++ [symbol])
  | loop {symbols inner : List Symbol} (before : Paired symbols) (inside : Paired inner) :
      Paired (symbols ++ (.opening :: inner ++ [.closing]))

section Partners

variable {symbols : List Symbol} (paired : Paired symbols) (depth : Nat) (behind ahead : List Symbol)

include paired

theorem cross_of_paired : cross .opening .closing depth behind (symbols ++ ahead) =
    cross .opening .closing depth (symbols.reverse ++ behind) ahead := by
  induction paired generalizing depth behind ahead with
  | nil => rfl
  | symbol before opening closing ih =>
    rw [List.append_assoc, ih, List.singleton_append, cross_of_ne opening closing,
      List.reverse_concat, List.cons_append]
  | loop before inside ihBefore ihInside =>
    simp only [List.append_assoc, List.cons_append, List.nil_append, List.reverse_append,
      List.reverse_cons, List.reverse_nil]
    rw [ihBefore, cross_entering (by decide), ihInside, cross_leaving]

/-- The same from the other side. -/
theorem cross_back_of_paired : cross .closing .opening depth ahead (symbols.reverse ++ behind) =
    cross .closing .opening depth (symbols ++ ahead) behind := by
  induction paired generalizing depth behind ahead with
  | nil => rfl
  | symbol before opening closing ih =>
    rw [List.reverse_concat, List.cons_append, cross_of_ne closing opening, ih, List.append_assoc,
      List.singleton_append]
  | loop before inside ihBefore ihInside =>
    simp only [List.append_assoc, List.cons_append, List.nil_append, List.reverse_append,
      List.reverse_cons, List.reverse_nil]
    rw [cross_entering (by decide), ihInside, cross_leaving, ihBefore]

end Partners

/-! ### Carrying out symbols -/

namespace Reading

/-- The symbols of a source before anything is carried out. -/
def start (source : Source) (cells : Int → UInt8) (terminal : Terminal) : Reading :=
  ⟨[], source.filterMap Symbol.ofByte?, cells, 0, terminal⟩

/-- Writes the cell under the head. -/
def write (cells : Int → UInt8) (index : Int) (value : UInt8) : Int → UInt8 :=
  fun cell => if cell = index then value else cells cell

/-- Carries out the next symbol. -/
def step : Reading → Progress
  | ⟨passed, [], cells, index, terminal⟩ =>
    match terminal.flush with
    | (terminal, true) => .ended .stopped ⟨passed, [], cells, index, terminal⟩
    | (terminal, false) => .ended .streamFailure ⟨passed, [], cells, index, terminal⟩
  | ⟨passed, symbol :: ahead, cells, index, terminal⟩ =>
    match symbol with
    | .right => .running ⟨symbol :: passed, ahead, cells, index + 1, terminal⟩
    | .left => .running ⟨symbol :: passed, ahead, cells, index - 1, terminal⟩
    | .increment =>
      .running ⟨symbol :: passed, ahead, write cells index (cells index + 1), index, terminal⟩
    | .decrement =>
      .running ⟨symbol :: passed, ahead, write cells index (cells index - 1), index, terminal⟩
    | .write =>
      match terminal.emit (cells index) with
      | (terminal, true) => .running ⟨symbol :: passed, ahead, cells, index, terminal⟩
      | (terminal, false) => .ended .streamFailure ⟨passed, symbol :: ahead, cells, index, terminal⟩
    | .read =>
      match terminal.read with
      | (terminal, .byte byte) =>
        .running ⟨symbol :: passed, ahead, write cells index byte, index, terminal⟩
      | (terminal, .keep) => .running ⟨symbol :: passed, ahead, cells, index, terminal⟩
      | (terminal, .failed) => .ended .streamFailure ⟨passed, symbol :: ahead, cells, index, terminal⟩
    | .opening =>
      if cells index = 0 then
        match cross .opening .closing 0 (symbol :: passed) ahead with
        | (passed, partner :: ahead) => .running ⟨partner :: passed, ahead, cells, index, terminal⟩
        | (passed, []) => .running ⟨passed, [], cells, index, terminal⟩
      else .running ⟨symbol :: passed, ahead, cells, index, terminal⟩
    | .closing =>
      if cells index = 0 then .running ⟨symbol :: passed, ahead, cells, index, terminal⟩
      else
        match cross .closing .opening 0 (symbol :: ahead) passed with
        | (ahead, passed) => .running ⟨passed, ahead, cells, index, terminal⟩

/-- Carries out a number of symbols, unless the reading ends before. -/
def advance : Nat → Reading → Progress
  | 0, reading => .running reading
  | count + 1, reading =>
    match reading.step with
    | .running next => advance count next
    | .ended ending last => .ended ending last

/-- The reading ends after some number of symbols. -/
def Ends (reading : Reading) (ending : Ending) (last : Reading) : Prop :=
  ∃ count, reading.advance count = .ended ending last

theorem advance_one {reading next : Reading} (stepped : reading.step = .running next) :
    reading.advance 1 = .running next := by
  simp only [advance, stepped]

theorem ends_of_step {reading last : Reading} {ending : Ending}
    (stepped : reading.step = .ended ending last) : reading.Ends ending last :=
  ⟨1, by rw [advance, stepped]⟩

theorem advance_add {first : Nat} {reading next : Reading}
    (reached : reading.advance first = .running next) (second : Nat) :
    reading.advance (first + second) = next.advance second := by
  induction first generalizing reading with
  | zero =>
    cases reached
    rw [Nat.zero_add]
  | succ first ih =>
    rw [Nat.add_right_comm, advance]
    rw [advance] at reached
    split at reached
    · exact ih reached
    · cases reached

theorem advance_of_ended {count : Nat} {reading last : Reading} {ending : Ending}
    (ended : reading.advance count = .ended ending last) (more : Nat) :
    reading.advance (count + more) = .ended ending last := by
  induction count generalizing reading with
  | zero => cases ended
  | succ count ih =>
    rw [Nat.add_right_comm, advance]
    rw [advance] at ended
    split at ended
    · exact ih ended
    · exact ended

theorem ends_unique {reading first second : Reading} {one two : Ending}
    (here : reading.Ends one first) (there : reading.Ends two second) : one = two ∧ first = second := by
  obtain ⟨count, here⟩ := here
  obtain ⟨other, there⟩ := there
  have same := (advance_of_ended here other).symm.trans
    (Nat.add_comm other count ▸ advance_of_ended there count)
  cases same
  exact ⟨rfl, rfl⟩

/-- What has not ended after some symbols did not end before. -/
theorem lt_of_running {reading last next : Reading} {ending : Ending} {count other : Nat}
    (ended : reading.advance count = .ended ending last)
    (reached : reading.advance other = .running next) : other < count := by
  refine Nat.lt_of_not_le fun late => ?_
  have still := advance_of_ended ended (other - count)
  rw [Nat.add_sub_cancel' late, reached] at still
  cases still

end Reading

end TapeMachine
