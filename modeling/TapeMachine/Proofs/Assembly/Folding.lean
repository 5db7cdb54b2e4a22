/-
**Writing a move or an addition.**

* `Code.extend`: what `Text.accumulate` makes of the code that is being written;
* `toList_accumulate`: that it does so;
* `Code.proper_extend`: the code stays one that is made as drafts are.
-/

import TapeMachine.Assembly
import TapeMachine.Proofs.Code.Closed
import TapeMachine.Proofs.Code.Reach

namespace TapeMachine

/-- A move or an addition behind a code, which joins the last instruction if it can. -/
def Code.extend (folding : Bool) (opcode : Opcode) (amount : Int) : Code → Code
  | plain before last =>
    if last.opcode = opcode then
      if last.value + amount = 0 then before
      else before.plain { last with value := last.value + amount }
    else if folding ∧ opcode = .add ∧ last.opcode = .set then
      before.plain { last with value := last.value + amount }
    else if folding ∧ opcode = .add ∧ last.opcode = .reset ∧ last.value = 1 then
      before.plain { opcode := .set, value := amount }
    else (before.plain last).plain { opcode := opcode, value := amount }
  | code => code.plain { opcode := opcode, value := amount }

section Accumulating

variable {outers : List Code} {code : Code} {text next : Text} {folding : Bool} {opcode : Opcode}
  {amount : Int}

theorem toList_push_of_depicted (depicted : text.toList = layout outers code)
    (instruction : Instruction) :
    (text.push instruction).toList = layout outers (code.plain instruction) := by
  rw [Array.toList_push, depicted, layout_plain]

/-- What is no plain instruction is not joined. -/
theorem extend_of_not_plain (other : ¬ ∃ (before : Code) (last : Instruction),
    code = before.plain last) :
    code.extend folding opcode amount = code.plain { opcode := opcode, value := amount } := by
  cases code with
  | plain before last => exact (other ⟨before, last, rfl⟩).elim
  | empty | loop before body | region before fast body => rfl

theorem toList_accumulate (written : opcode = .move ∨ opcode = .add)
    (depicted : text.toList = layout outers code)
    (accumulated : text.accumulate folding opcode amount = .ok next) :
    next.toList = layout outers (code.extend folding opcode amount) := by
  have back : text.back? = (layout outers code).getLast? := by
    rw [← depicted, Array.getLast?_toList]
  by_cases joins : ∃ (before : Code) (last : Instruction), code = before.plain last
  · obtain ⟨before, last, rfl⟩ := joins
    rw [layout_plain] at back
    have popped : text.pop.toList = layout outers before := by
      rw [Array.toList_pop, depicted, layout_plain, List.dropLast_concat]
    rw [List.getLast?_concat] at back
    simp only [Text.accumulate, back] at accumulated
    rw [Code.extend]
    split at accumulated
    · next same =>
      simp only [bind_eq_ok, operand_eq_ok_iff] at accumulated
      obtain ⟨_, ⟨-, rfl⟩, done⟩ := accumulated
      rw [if_pos same]
      split at done
      · next zero =>
        rw [if_pos zero, ← pure_eq_ok.mp done, popped]
      · next marked =>
        rw [if_neg marked, ← pure_eq_ok.mp done, toList_push_of_depicted popped]
    · next apart =>
      rw [if_neg apart]
      split at accumulated
      · next constant =>
        simp only [bind_eq_ok, operand_eq_ok_iff, pure_eq_ok] at accumulated
        obtain ⟨_, ⟨-, rfl⟩, rfl⟩ := accumulated
        rw [if_pos constant, toList_push_of_depicted popped]
      · next varies =>
        rw [if_neg varies]
        split at accumulated
        · next cleared =>
          rw [if_pos cleared, ← pure_eq_ok.mp accumulated, toList_push_of_depicted popped]
        · next other =>
          rw [if_neg other, ← pure_eq_ok.mp accumulated, toList_push_of_depicted depicted]
  · rw [extend_of_not_plain joins, ← toList_push_of_depicted depicted]
    rcases (getLast?_layout outers code).resolve_left joins with nothing | ⟨last, found, boundary⟩
    · rw [nothing] at back
      simp only [Text.accumulate, back, pure_eq_ok] at accumulated
      rw [accumulated]
    · rw [found] at back
      have apart : last.opcode ≠ opcode ∧ last.opcode ≠ .set ∧ last.opcode ≠ .reset := by
        refine ⟨?_, ?_, ?_⟩ <;> intro same <;> rw [same] at boundary
        · rcases written with rfl | rfl <;> cases boundary
        · cases boundary
        · cases boundary
      simp only [Text.accumulate, back, apart.1, apart.2.1, apart.2.2, if_false, false_and, and_false,
        pure_eq_ok] at accumulated
      rw [accumulated]

/-- A code that is made as drafts are stays so. -/
theorem Code.proper_extend (proper : code.Proper) (written : opcode = .move ∨ opcode = .add)
    (marked : amount ≠ 0) : (code.extend folding opcode amount).Proper := by
  have sound : ({ opcode := opcode, value := amount } : Instruction).Sound :=
    .of_amount (by rcases written with rfl | rfl <;> simp) marked
  have member : opcode ∈ [.move, .add, .input, .output, .reset, .store, .seek, .set] := by
    rcases written with rfl | rfl <;> simp
  have behind : (code.plain { opcode := opcode, value := amount }).Proper := ⟨proper, member, sound⟩
  by_cases joins : ∃ (before : Code) (last : Instruction), code = before.plain last
  · obtain ⟨before, last, rfl⟩ := joins
    obtain ⟨early, _, valid⟩ := proper
    rw [extend]
    split
    · next same =>
      split
      · exact early
      · next nonzero =>
        refine ⟨early, same.symm ▸ member, valid.joined ?_ fun _ => nonzero⟩
        rcases written with rfl | rfl <;> simp [same]
    · split
      · next constant =>
        have set := constant.2.2
        exact ⟨early, by simp [set], valid.joined (by simp [set]) fun other => absurd set other⟩
      · split
        · exact ⟨early, by simp, .of_constant _⟩
        · exact behind
  · rw [extend_of_not_plain joins]
    exact behind

end Accumulating

end TapeMachine
