/-
**Loops that clear the cell.**

A loop that only adds an odd number to the cell visits every value and so ends at zero: it is a
`reset`. Resets of neighbouring cells grow into one reset with a stride.

* `clearing` looks at the loop body first and then at what stands before the loop: a reset of the
  same cell makes this one superfluous, and a reset one step away takes this cell in.
-/

import TapeMachine.Edit

namespace TapeMachine.Loop

/-- The loop body adds an odd number to the cell. -/
def addsOdd (step : Instruction) : Bool :=
  step.opcode = .add && step.value % 2 = 1

/-- A reset of one cell, a step to its neighbour: the reset that clears both, if its stride allows
it. -/
def grow (first step : Instruction) : Except Fault (Option Instruction) := do
  if first.opcode = .reset ∧ step.opcode = .move then
    let distance ← operand step.value.natAbs
    if distance = 1 ∧ (first.offset = 0 ∨ first.offset = step.value) then
      return some { first with value := ← operand (first.value + 1), offset := step.value }
  return none

/-- What becomes of a loop at `start` that clears its cell. -/
def cleared (text : Text) (start : Nat) : Except Fault Edit := do
  let previous := text.before start 1
  if previous.any fun reset => reset.opcode = .reset ∧ reset.offset = 0 then
    return ⟨start, #[]⟩
  match text.before start 2, previous with
  | some first, some step =>
    match ← grow first step with
    | some wider => return ⟨start - 2, #[wider]⟩
    | none => return ⟨start, #[{ opcode := .reset, value := 1 }]⟩
  | _, _ => return ⟨start, #[{ opcode := .reset, value := 1 }]⟩

/-- Turns a loop that clears its cell into a reset. -/
def clearing (text : Text) (start : Nat) : Except Fault (Option Edit) := do
  match ← text.soleBody start with
  | some step => if addsOdd step then return some (← cleared text start) else return none
  | none => return none

end TapeMachine.Loop
