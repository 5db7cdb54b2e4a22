/-
**Loops that are never entered.**

A loop is dead where the cell is known to be zero when control reaches it: at the start of a
program, and behind an instruction that leaves the head on a zero cell.

* `dead_eq_ok_some_iff`: the edits made here, all of which delete the loop.
-/

import TapeMachine.Edit

namespace TapeMachine

/-- The cell is zero behind this instruction. -/
def Instruction.leavesZero (instruction : Instruction) : Bool :=
  match instruction.opcode with
  | .loopEnd | .reset | .seek | .store | .pop | .popFast => true
  | .set => UInt8.ofInt instruction.value = 0
  | _ => false

namespace Loop

/-- Deletes a loop that is never entered. -/
def dead (text : Text) : Nat → Except Fault (Option Edit)
  | 0 => .ok (some ⟨0, #[]⟩)
  | before + 1 =>
    match text[before]? with
    | none => .error .outOfRange
    | some previous => .ok (if previous.leavesZero then some ⟨before + 1, #[]⟩ else none)

theorem dead_eq_ok_some_iff {text : Text} {start : Nat} {edit : Edit} :
    dead text start = .ok (some edit) ↔ edit = ⟨start, #[]⟩ ∧
      ∀ before, start = before + 1 →
        ∃ previous, text[before]? = some previous ∧ previous.leavesZero = true := by
  cases start with
  | zero => simpa [dead] using eq_comm
  | succ before =>
    cases found : text[before]? with
    | none => simp [dead, found]
    | some previous =>
      cases zero : previous.leavesZero
      · simp [dead, found, zero]
      · simpa [dead, found, zero] using eq_comm

end Loop

end TapeMachine
