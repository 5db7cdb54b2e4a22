/-
**Loops that look for a zero cell, and loops that do nothing.**

A loop whose body is one move walks until it finds a zero cell: it is a `seek`. A loop without a
body is either not entered or never left, and is deleted.
-/

import TapeMachine.Edit

namespace TapeMachine.Loop

/-- Turns a loop that only moves the head into a seek. -/
def scanning (text : Text) (start : Nat) : Except Fault (Option Edit) := do
  match ← text.soleBody start with
  | some step =>
    if step.opcode = .move then return some ⟨start, #[{ opcode := .seek, value := step.value }]⟩
    else return none
  | none => return none

/-- Deletes a loop without a body. -/
def empty (text : Text) (start : Nat) : Except Fault (Option Edit) :=
  if text.size < start then .error .overflow
  else .ok (if text.size - start = 2 then some ⟨start, #[]⟩ else none)

end TapeMachine.Loop
