/-
**Loops that are left as they are.**

When no pass applies to a loop that was closed, each of those that were asked for has looked at it and
declined. This says what the loop and the code before it are not like.

* `Spared`: what a loop is like that every pass has declined;
* `judged_of_applied_eq_none`: where nothing is applied, every pass was tried;
* `Code.emit_of_onlyAdds`: a code that only moves and adds has the same text everywhere;
* `spared_of_improve`: a loop to which nothing is applied is spared.
-/

import TapeMachine.Proofs.Code.Closed
import TapeMachine.Proofs.Counted.Additions

namespace TapeMachine

/-- The last instruction tells that the cell is zero behind the code. -/
def Code.EndsAtZero : Code → Prop
  | empty => False
  | plain _ last => last.leavesZero = true
  | loop _ _ => True
  | region _ _ _ => True

/-- No pass that is asked for applies to the loop with a body, behind the code `outer`, which is at the
start of the program if it is `outermost` and empty. -/
structure Spared (passes : Passes) (outermost : Bool) (outer body : Code) : Prop where
  /-- The cell is not known to be zero before the loop. -/
  entered : passes .commentBlock = true →
    ¬ outer.EndsAtZero ∧ ¬ (outermost = true ∧ outer = .empty)
  /-- The body does more than to add an odd number, -/
  cleared : passes .reset = true → ∀ step, body = Code.empty.plain step → Loop.addsOdd step = false
  /-- more than to move, -/
  sought : passes .seek = true → ∀ step, body = Code.empty.plain step → step.opcode ≠ .move
  /-- and more than to add and to count down. -/
  counted : passes .multiplication = true → ∀ base, Loop.OnlyAdds (body.emit true base) →
    ¬ Loop.CountsDown (body.emit true base)
  /-- There is a body. -/
  filled : passes .emptyLoop = true → body ≠ .empty

/-! ### Passes that decline -/

/-- Where nothing is applied, every pass that was asked for has declined. -/
theorem judged_of_applied_eq_none {passes : Passes} {text : Text} {start : Nat} {order : List Pass}
    {improvement : Improvement} {pass : Pass}
    (improved : improveBy passes text start order = .ok improvement)
    (applied : improvement.applied = none) (member : pass ∈ order) (enabled : passes pass = true) :
    ∃ refusal, pass.judge text start = .ok ⟨none, refusal⟩ := by
  induction order generalizing improvement with
  | nil => cases member
  | cons first rest ih =>
    rw [improveBy] at improved
    by_cases tried : passes first
    · rw [if_pos tried, bind_eq_ok] at improved
      obtain ⟨⟨found, refusal⟩, judged, improved⟩ := improved
      cases found with
      | some edit =>
        obtain rfl := pure_eq_ok.mp improved
        cases applied
      | none =>
        simp only [bind_eq_ok, pure_eq_ok] at improved
        obtain ⟨later, improved, rfl⟩ := improved
        rcases List.mem_cons.mp member with rfl | behind
        · exact ⟨refusal, judged⟩
        · exact ih improved applied behind
    · rw [if_neg tried] at improved
      have behind := (List.mem_cons.mp member).resolve_left fun same => tried (same ▸ enabled)
      exact ih improved applied behind

/-! ### Bodies -/

/-- A code that only moves and adds has no links, so that its text is the same everywhere. -/
theorem Code.emit_of_onlyAdds {code : Code} {keep : Bool} {base : Nat}
    (simple : Loop.OnlyAdds (code.emit keep base)) (other : Bool) (place : Nat) :
    code.emit other place = code.emit keep base := by
  have boundary {instruction : Instruction} (member : instruction ∈ code.emit keep base) :
      instruction.opcode.isBoundary = false := by
    rcases simple instruction member with opcode | opcode <;> rw [opcode] <;> rfl
  induction code with
  | empty => rfl
  | plain before last ih =>
    have early := ih (fun instruction member => simple instruction (List.mem_append_left _ member))
      fun member => boundary (List.mem_append_left _ member)
    rw [emit, emit, early]
  | loop before body _ _ =>
    cases boundary (List.mem_append_right _ (List.mem_cons_self ..))
  | region before fast body _ _ =>
    have linked := boundary (List.mem_append_right _ (List.mem_cons_self ..))
    cases fast <;> cases linked

namespace Closed

variable {outers : List Code} {outer body : Code} {text : Text} {start : Nat}
  (closed : Closed outers outer body text start)

include closed

/-- A body of one instruction is found. -/
theorem soleBody_of_eq_plain {step : Instruction} (sole : body = Code.empty.plain step) :
    text.soleBody start = .ok (some step) := by
  have size := closed.size
  have behind := congrArg (·[0]?) closed.drop_eq
  subst sole
  simp only [List.getElem?_drop, Nat.add_zero] at behind
  rw [Text.soleBody_eq_ok_some_iff, ← Array.getElem?_toList]
  exact ⟨size, behind⟩

/-- What stands before a loop that is declined leaves a cell that is not known to be zero. -/
theorem entered_of_dead (declined : Loop.dead text start = .ok none) :
    ¬ outer.EndsAtZero ∧ ¬ (outers.isEmpty = true ∧ outer = .empty) := by
  have back := closed.before_one
  cases start with
  | zero => cases declined
  | succ position =>
    have known {last : Instruction} (behind : (layout outers outer).getLast? = some last) :
        last.leavesZero = false := by
      have there : text[position]? = some last := by
        rw [← behind, ← back, Text.before, if_pos (Nat.le_add_left 1 position), Nat.add_sub_cancel]
      simp only [Loop.dead, there, Except.ok.injEq, ite_eq_right_iff, reduceCtorEq, imp_false,
        Bool.not_eq_true] at declined
      exact declined
    constructor
    · intro zero
      cases outer with
      | empty => exact zero
      | plain before last =>
        have unknown := known (by rw [layout_plain, List.getLast?_concat])
        exact Bool.false_ne_true (unknown.symm.trans zero)
      | loop before inner =>
        have unknown := known (by
          rw [layout_loop, ← List.cons_append, ← List.append_assoc, List.getLast?_concat])
        cases unknown
      | region before fast inner =>
        have unknown := known (by
          rw [layout_region, Code.emit, Code.regionEnd, Bool.true_or, if_pos rfl,
            ← List.cons_append, ← List.append_assoc, ← List.append_assoc, List.getLast?_concat])
        cases fast <;> cases unknown
    · rintro ⟨first, rfl⟩
      have none : outers = [] := List.isEmpty_iff.mp first
      have place := closed.start
      rw [none] at place
      cases place

/-- A loop that is declined does not count down. -/
theorem not_countsDown_of_judge {refusal : Option Loop.Refusal}
    (declined : Pass.multiplication.judge text start = .ok ⟨none, refusal⟩) {base : Nat}
    (simple : Loop.OnlyAdds (body.emit true base)) :
    ¬ Loop.CountsDown (body.emit true base) := by
  intro counts
  have written := closed.text
  rw [layout_loop, Code.emit_of_onlyAdds simple true] at written
  have judged := Loop.counted_of_onlyAdds written simple
  rw [← closed.start, if_pos counts] at judged
  rw [Pass.judge] at declined
  rcases judged with ⟨-, failed⟩ | ⟨-, fused⟩
  · rw [failed] at declined
    cases declined
  · rw [fused] at declined
    cases declined

end Closed

/-- **A loop to which nothing is applied is spared.** -/
theorem spared_of_improve {passes : Passes} {outers : List Code} {outer body : Code} {text : Text}
    {start : Nat} (closed : Closed outers outer body text start) {improvement : Improvement}
    (improved : improve passes text start = .ok improvement)
    (applied : improvement.applied = none) : Spared passes outers.isEmpty outer body := by
  have declined {pass : Pass} (member : pass ∈ Pass.onLoops) (enabled : passes pass = true) :=
    judged_of_applied_eq_none improved applied member enabled
  constructor
  · intro enabled
    obtain ⟨refusal, judged⟩ := declined (by decide) enabled
    simp only [Pass.judge, bind_eq_ok, pure_eq_ok, Verdict.mk.injEq] at judged
    obtain ⟨_, dead, rfl, -⟩ := judged
    exact closed.entered_of_dead dead
  · intro enabled step sole
    obtain ⟨refusal, judged⟩ := declined (by decide) enabled
    simp only [Pass.judge, bind_eq_ok, pure_eq_ok, Verdict.mk.injEq] at judged
    obtain ⟨_, clearing, rfl, -⟩ := judged
    rw [Loop.clearing, closed.soleBody_of_eq_plain sole, bind_eq_ok] at clearing
    obtain ⟨_, same, found⟩ := clearing
    obtain rfl := Except.ok.inj same
    rw [Bool.eq_false_iff]
    intro odd
    simp only [if_pos odd, bind_eq_ok, pure_eq_ok] at found
    obtain ⟨_, -, nothing⟩ := found
    cases nothing
  · intro enabled step sole opcode
    obtain ⟨refusal, judged⟩ := declined (by decide) enabled
    simp only [Pass.judge, bind_eq_ok, pure_eq_ok, Verdict.mk.injEq] at judged
    obtain ⟨_, scanning, rfl, -⟩ := judged
    rw [Loop.scanning, closed.soleBody_of_eq_plain sole, bind_eq_ok] at scanning
    obtain ⟨_, same, found⟩ := scanning
    obtain rfl := Except.ok.inj same
    simp only [if_pos opcode] at found
    cases found
  · intro enabled base simple
    obtain ⟨refusal, judged⟩ := declined (by decide) enabled
    exact closed.not_countsDown_of_judge judged simple
  · intro enabled nothing
    obtain ⟨refusal, judged⟩ := declined (by decide) enabled
    simp only [Pass.judge, bind_eq_ok, pure_eq_ok, Verdict.mk.injEq] at judged
    obtain ⟨_, empty, rfl, -⟩ := judged
    have size := closed.size
    rw [nothing, Code.size, Nat.add_zero] at size
    rw [Loop.empty, if_neg (by omega), if_pos (by omega)] at empty
    cases empty

end TapeMachine
