/-
**Edits of a text.**

Everything that improves a program while it is built replaces the end of the text: an edit keeps the
instructions before a position and puts a few new ones behind them. No instruction before that
position changes its place, so the links among those stay valid.

* `Text.toList_apply`: the edited text as a list;
* `Text.soleBody_eq_ok_some_iff`: the loop that ends with the text has a body of one instruction.
-/

import TapeMachine.Fault
import TapeMachine.Instruction

namespace TapeMachine

/-- Replace everything from a position on. -/
structure Edit where
  /-- How many instructions stay. -/
  keep : Nat
  /-- What follows them. -/
  tail : Array Instruction
  deriving DecidableEq

namespace Text

/-- The text after an edit. -/
def apply (text : Text) (edit : Edit) : Text :=
  text.shrink edit.keep ++ edit.tail

theorem toList_apply (text : Text) (edit : Edit) :
    (text.apply edit).toList = text.toList.take edit.keep ++ edit.tail.toList := by
  simp [apply]

/-- The instruction that stands some places before a position. -/
def before (text : Text) (position distance : Nat) : Option Instruction :=
  if distance ≤ position then text[position - distance]? else none

/-- The number of instructions between the one at `start` and the last one. -/
def bodySize (text : Text) (start : Nat) : Except Fault Nat :=
  if start + 2 ≤ text.size then .ok (text.size - start - 2) else .error .outOfRange

/-- The instruction between the one at `start` and the last one, if there is exactly one. -/
def soleBody (text : Text) (start : Nat) : Except Fault (Option Instruction) := do
  if (← text.bodySize start) = 1 then return text[start + 1]? else return none

theorem soleBody_eq_ok_some_iff {text : Text} {start : Nat} {sole : Instruction} :
    text.soleBody start = .ok (some sole) ↔
      text.size = start + 3 ∧ text[start + 1]? = some sole := by
  simp only [soleBody, bodySize]
  by_cases long : start + 2 ≤ text.size
  · by_cases single : text.size - start - 2 = 1
    · have exactly : text.size = start + 3 := by omega
      simp [exactly, bind, Except.bind, pure, Except.pure]
    · have other : text.size ≠ start + 3 := by omega
      simp [long, single, other, bind, Except.bind, pure, Except.pure]
  · have other : text.size ≠ start + 3 := by omega
    simp [long, other, bind, Except.bind]

end Text

end TapeMachine
