/-
**The tape has no ends.**

Neither the pages of the tape show, nor what the head remembers of the one it is on: whatever is done
with a head, it answers like a memory that has a byte for every integer, with a position that is nothing
but an integer.

* `Operation`, `Answer`: what can be done with a head, and what comes of it;
* `Memory`: a byte for every integer, and a position;
* `Head.Realizes`: a head on a tape is at the position of the memory and finds the same bytes;
* `reply_realizes`: every operation answers the same on both, and they stay alike;
* `unbounded_of_blank`: so do all operations from a blank tape on.
-/

import Mathlib.Logic.Function.Basic
import TapeMachine.Tape.Head

namespace TapeMachine

/-! ### Operations -/

/-- What can be done with a head. -/
inductive Operation where
  /-- Reading the cell. -/
  | read
  /-- Writing the cell. -/
  | write (value : UInt8)
  /-- Moving by a distance. -/
  | advance (distance : Int)
  /-- Adding to the cell at a distance. -/
  | addAt (distance : Int) (amount : UInt8)
  /-- Going to some cell with a new head. -/
  | cursorAt (index : Int)
  /-- Asking where the head is. -/
  | index
  /-- Asking for some cell of the tape. -/
  | get (index : Int)

/-- What comes of an operation. -/
inductive Answer where
  | done
  | byte (value : UInt8)
  | index (index : Int)
  /-- The operation was given up, since it would have left the range of indexes. -/
  | overflow
  deriving DecidableEq

/-- The cell that an operation goes to, if it counts from where the head is. -/
def Operation.target? (operation : Operation) (index : Int) : Option Int :=
  match operation with
  | advance distance => some (index + distance)
  | addAt distance _ => some (index + distance)
  | _ => none

namespace Head

/-- The head behind an operation that may be given up. -/
def settle : Except Head Head → Head × Answer
  | .ok head => (head, .done)
  | .error head => (head, .overflow)

/-- Does an operation. -/
def reply (head : Head) : Operation → Head × Answer
  | .read => (head, .byte head.read)
  | .write value => (head.write value, .done)
  | .advance distance => settle (head.advance distance)
  | .addAt distance amount => settle (head.addAt distance amount)
  | .cursorAt index => (head.moveTo index, .done)
  | .index => (head, .index head.index)
  | .get index => (head, .byte (head.tape.get index))

/-- Does one operation after the other. -/
def replies (head : Head) : List Operation → Head × List Answer
  | [] => (head, [])
  | operation :: rest =>
    let (next, answer) := head.reply operation
    let (last, answers) := next.replies rest
    (last, answer :: answers)

end Head

/-! ### Memories without ends -/

/-- A byte for every integer, and a position. -/
structure Memory where
  cells : Int → UInt8
  index : Int

namespace Memory

/-- All bytes are zero. -/
def blank : Memory := ⟨fun _ => 0, 0⟩

/-- Does an operation. -/
def reply (memory : Memory) (operation : Operation) : Memory × Answer :=
  match memory, operation with
  | ⟨cells, index⟩, .read => (⟨cells, index⟩, .byte (cells index))
  | ⟨cells, index⟩, .write value => (⟨Function.update cells index value, index⟩, .done)
  | ⟨cells, index⟩, .advance distance =>
    if Tape.IsIndex (index + distance) then (⟨cells, index + distance⟩, .done)
    else (⟨cells, index⟩, .overflow)
  | ⟨cells, index⟩, .addAt distance amount =>
    let target := index + distance
    if Tape.IsIndex target then
      (⟨Function.update cells target (cells target + amount), index⟩, .done)
    else (⟨cells, index⟩, .overflow)
  | ⟨cells, _⟩, .cursorAt index => (⟨cells, index⟩, .done)
  | ⟨cells, index⟩, .index => (⟨cells, index⟩, .index index)
  | ⟨cells, index⟩, .get other => (⟨cells, index⟩, .byte (cells other))

/-- Does one operation after the other. -/
def replies (memory : Memory) : List Operation → Memory × List Answer
  | [] => (memory, [])
  | operation :: rest =>
    let (next, answer) := memory.reply operation
    let (last, answers) := next.replies rest
    (last, answer :: answers)

end Memory

/-! ### Heads as memories -/

/-- The head is at the position of the memory, on a tape with the same bytes. -/
structure Head.Realizes (head : Head) (memory : Memory) : Prop where
  cells : ∀ index, head.tape.get index = memory.cells index
  index : head.index = memory.index

namespace Head

variable {head : Head} {memory : Memory}

theorem realizes_blank : (onTape Tape.blank 0).Realizes Memory.blank where
  cells index := (Tape.get_reserve ..).trans (Tape.get_blank index)
  index := rfl

theorem Realizes.read (realizes : head.Realizes memory) : head.read = memory.cells memory.index := by
  rw [read_eq_get, realizes.cells, realizes.index]

theorem Realizes.write (realizes : head.Realizes memory) (value : UInt8) :
    (head.write value).Realizes ⟨Function.update memory.cells memory.index value, memory.index⟩ where
  cells index := by
    rw [get_write_apply, realizes.index, realizes.cells]
    exact (Function.update_apply ..).symm
  index := realizes.index

theorem Realizes.moveTo (realizes : head.Realizes memory) (index : Int) :
    (head.moveTo index).Realizes ⟨memory.cells, index⟩ where
  cells other := (get_moveTo ..).trans (realizes.cells other)
  index := rfl

theorem Realizes.addAt {changed : Head} {distance : Int} {amount : UInt8}
    (realizes : head.Realizes memory) (added : head.addAt distance amount = .ok changed) :
    changed.Realizes ⟨Function.update memory.cells (memory.index + distance)
      (memory.cells (memory.index + distance) + amount), memory.index⟩ where
  cells other := by
    rw [get_addAt added, realizes.index, realizes.cells]
    refine Eq.trans ?_ (Function.update_apply ..).symm
    split
    · next same => rw [same]
    · rfl
  index := (index_addAt added).trans realizes.index

/-- **Every operation answers the same** on a head and on the memory that it realizes. -/
theorem reply_realizes (realizes : head.Realizes memory) (operation : Operation) :
    (head.reply operation).2 = (memory.reply operation).2 ∧
      (head.reply operation).1.Realizes (memory.reply operation).1 := by
  have place := realizes.index
  cases operation with
  | read => exact ⟨congrArg Answer.byte realizes.read, realizes⟩
  | write value => exact ⟨rfl, realizes.write value⟩
  | advance distance =>
    simp only [reply, Memory.reply]
    by_cases inside : Tape.IsIndex (memory.index + distance)
    · rw [if_pos inside, advance_of_isIndex (place ▸ inside), place]
      exact ⟨rfl, realizes.moveTo _⟩
    · rw [if_neg inside, advance_of_not_isIndex (place ▸ inside)]
      exact ⟨rfl, realizes⟩
  | addAt distance amount =>
    simp only [reply, Memory.reply]
    by_cases inside : Tape.IsIndex (memory.index + distance)
    · have succeeds : ∃ changed, head.addAt distance amount = .ok changed :=
        addAt_ok_iff.mpr (place ▸ inside)
      obtain ⟨changed, added⟩ := succeeds
      rw [if_pos inside, added]
      exact ⟨rfl, realizes.addAt added⟩
    · rw [if_neg inside, addAt_of_not_isIndex amount (place ▸ inside)]
      exact ⟨rfl, realizes⟩
  | cursorAt index => exact ⟨rfl, realizes.moveTo index⟩
  | index => exact ⟨congrArg Answer.index place, realizes⟩
  | get index => exact ⟨congrArg Answer.byte (realizes.cells index), realizes⟩

theorem replies_realizes (realizes : head.Realizes memory) (operations : List Operation) :
    (head.replies operations).2 = (memory.replies operations).2 ∧
      (head.replies operations).1.Realizes (memory.replies operations).1 := by
  induction operations generalizing head memory with
  | nil => exact ⟨rfl, realizes⟩
  | cons operation rest ih =>
    obtain ⟨answer, next⟩ := reply_realizes realizes operation
    obtain ⟨answers, last⟩ := ih next
    exact ⟨congrArg₂ List.cons answer answers, last⟩

/-- An operation that would leave the range of indexes changes nothing. -/
theorem reply_of_not_isIndex {operation : Operation} {target : Int}
    (goes : operation.target? head.index = some target) (outside : ¬ Tape.IsIndex target) :
    head.reply operation = (head, .overflow) := by
  cases operation with
  | advance distance =>
    obtain rfl := Option.some.inj goes
    rw [reply, advance_of_not_isIndex outside]
    rfl
  | addAt distance amount =>
    obtain rfl := Option.some.inj goes
    rw [reply, addAt_of_not_isIndex amount outside]
    rfl
  | _ => cases goes

end Head

/-- What a head comes to by operations on a tape that was blank. -/
structure Head.Unbounded (head : Head) (answers : List Answer) (operations : List Operation) :
    Prop where
  /-- The answers are those of a memory without ends. -/
  answers : answers = (Memory.blank.replies operations).2
  /-- So are the cells, and the place of the head. -/
  realizes : head.Realizes (Memory.blank.replies operations).1
  /-- Adding changes the cell that is added to and no other, and the head stays. -/
  adds : ∀ (distance : Int) (amount : UInt8), Tape.IsIndex (head.index + distance) →
    ∃ changed, head.addAt distance amount = .ok changed ∧ changed.index = head.index ∧
      ∀ other, changed.tape.get other =
        if other = head.index + distance then head.tape.get other + amount else head.tape.get other
  /-- What would lead out of the range of indexes is given up and changes nothing. -/
  refuses : ∀ (operation : Operation) (target : Int), operation.target? head.index = some target →
    ¬ Tape.IsIndex target → head.reply operation = (head, .overflow)

/-- **The tape has no ends**: from a blank tape on, all operations do what they do on a memory with a
byte for every integer. -/
theorem unbounded_of_blank (operations : List Operation) :
    ((Head.onTape Tape.blank 0).replies operations).1.Unbounded
      ((Head.onTape Tape.blank 0).replies operations).2 operations := by
  obtain ⟨answers, realizes⟩ := Head.replies_realizes Head.realizes_blank operations
  refine ⟨answers, realizes, fun distance amount inside => ?_, fun operation target goes outside => ?_⟩
  · obtain ⟨changed, added⟩ := Head.addAt_ok_iff.mpr inside
    exact ⟨changed, added, Head.index_addAt added, Head.get_addAt added⟩
  · exact Head.reply_of_not_isIndex goes outside

/-- Over the page of the starting cell and back, with a sum that wraps around below zero. -/
example : ((Head.onTape Tape.blank 0).replies [.advance 256, .write 7, .addAt (-600) 200,
    .addAt (-600) 100, .index, .get (-344), .advance (-257), .read, .cursorAt 256, .read,
    .advance 0x7fffffffffffff00, .index]).2 =
      [.done, .done, .done, .done, .index 256, .byte 44, .done, .byte 0, .done, .byte 7, .overflow,
        .index 256] := by
  decide +kernel

end TapeMachine
