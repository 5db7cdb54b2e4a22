/-
**Closing a loop.**

Everything that can become of a loop when it is closed, as codes: the loop stays, if every pass spares
it, or one of the passes deletes or replaces it.

* `Closes`: the cases;
* `closes_of_improve`: there are no others.
-/

import TapeMachine.Assembly
import TapeMachine.Proofs.Assembly.Sparing
import TapeMachine.Proofs.Counted.Fusion

namespace TapeMachine

/-- What may become of the loop with a body, behind the code `outer`, which is at the start of the
program if it is `outermost` and empty. Only bodies that `may` be are fused. -/
inductive Closes (passes : Passes) (may : Code → Prop) (outermost : Bool) (outer body : Code) :
    Code → Prop where
  | kept (spared : Spared passes outermost outer body) :
      Closes passes may outermost outer body (outer.loop body)
  | first (enabled : passes .commentBlock = true) (top : outermost = true)
      (start : outer = .empty) : Closes passes may outermost outer body outer
  | dead (enabled : passes .commentBlock = true) (zero : outer.EndsAtZero) :
      Closes passes may outermost outer body outer
  | again {before : Code} {step reset : Instruction} (enabled : passes .reset = true)
      (sole : body = Code.empty.plain step) (odd : Loop.addsOdd step = true)
      (behind : outer = before.plain reset) (opcode : reset.opcode = .reset)
      (single : reset.offset = 0) : Closes passes may outermost outer body outer
  | wider {before : Code} {step reset move : Instruction} (enabled : passes .reset = true)
      (sole : body = Code.empty.plain step) (odd : Loop.addsOdd step = true)
      (behind : outer = (before.plain reset).plain move) (opcode : reset.opcode = .reset)
      (moves : move.opcode = .move) (near : move.value.natAbs = 1)
      (stride : reset.offset = 0 ∨ reset.offset = move.value) :
      Closes passes may outermost outer body
        (before.plain { reset with value := reset.value + 1, offset := move.value })
  | cleared {step : Instruction} (enabled : passes .reset = true)
      (sole : body = Code.empty.plain step) (odd : Loop.addsOdd step = true) :
      Closes passes may outermost outer body (outer.plain { opcode := .reset, value := 1 })
  | sought {step : Instruction} (enabled : passes .seek = true)
      (sole : body = Code.empty.plain step) (opcode : step.opcode = .move) :
      Closes passes may outermost outer body (outer.plain { opcode := .seek, value := step.value })
  | fused (enabled : passes .multiplication = true) (counted : body.Counted) (fusible : may body) :
      Closes passes may outermost outer body (outer ++ body.fuse)
  | emptied (enabled : passes .emptyLoop = true) (nothing : body = .empty) :
      Closes passes may outermost outer body outer

/-- What is applied was asked for, and judged so. -/
theorem judged_of_improveBy {passes : Passes} {text : Text} {start : Nat} {order : List Pass}
    {improvement : Improvement} {pass : Pass} {edit : Edit}
    (improved : improveBy passes text start order = .ok improvement)
    (applied : improvement.applied = some (pass, edit)) :
    passes pass = true ∧ ∃ refusal, pass.judge text start = .ok ⟨some edit, refusal⟩ := by
  induction order generalizing improvement with
  | nil =>
    obtain rfl := pure_eq_ok.mp improved
    cases applied
  | cons first rest ih =>
    rw [improveBy] at improved
    by_cases enabled : passes first
    · rw [if_pos enabled, bind_eq_ok] at improved
      obtain ⟨⟨found, refusal⟩, judged, improved⟩ := improved
      cases found with
      | none =>
        simp only [bind_eq_ok, pure_eq_ok] at improved
        obtain ⟨later, improved, rfl⟩ := improved
        exact ih improved applied
      | some found =>
        obtain rfl := pure_eq_ok.mp improved
        cases applied
        exact ⟨enabled, refusal, judged⟩
    · rw [if_neg enabled] at improved
      exact ih improved applied

section Closing

variable {passes : Passes} {may : Code → Prop} {outers : List Code} {outer body : Code}
  {text : Text} {start : Nat} (closed : Closed outers outer body text start)

include closed

theorem closes_of_dead {edit : Edit} (enabled : passes .commentBlock = true)
    (found : Loop.dead text start = .ok (some edit)) :
    Closes passes may outers.isEmpty outer body outer ∧
      (text.apply edit).toList = layout outers outer := by
  obtain ⟨rfl, zero⟩ := Loop.dead_eq_ok_some_iff.mp found
  refine ⟨?_, by rw [closed.toList_apply]; exact List.append_nil _⟩
  have previous {last : Instruction} (behind : (layout outers outer).getLast? = some last) :
      last.leavesZero = true := by
    have back := closed.before_one
    rw [behind] at back
    unfold Text.before at back
    split at back
    · next near =>
      obtain ⟨other, there, zero⟩ := zero (start - 1) (by omega)
      rw [there] at back
      exact Option.some.inj back ▸ zero
    · cases back
  cases outer with
  | plain before last =>
    refine .dead enabled (previous ?_)
    rw [layout_plain, List.getLast?_concat]
  | loop before inner => exact .dead enabled trivial
  | region before fast inner => exact .dead enabled trivial
  | empty =>
    cases outers with
    | nil => exact .first enabled rfl rfl
    | cons around rest =>
      have boundary : (layout (around :: rest) Code.empty).getLast? =
          some { opcode := .loopStart } := by
        rw [layout_empty, preamble_cons, List.getLast?_concat]
      cases previous boundary

omit closed in
/-- A reset that grows takes one step to the neighbour. -/
theorem grow_eq_ok {reset move wider : Instruction}
    (grown : Loop.grow reset move = .ok (some wider)) :
    reset.opcode = .reset ∧ move.opcode = .move ∧ move.value.natAbs = 1 ∧
      (reset.offset = 0 ∨ reset.offset = move.value) ∧
      wider = { reset with value := reset.value + 1, offset := move.value } := by
  unfold Loop.grow at grown
  split at grown
  · next opcodes =>
    simp only [bind_eq_ok, operand_eq_ok_iff] at grown
    obtain ⟨_, ⟨-, rfl⟩, grown⟩ := grown
    split at grown
    · next near =>
      simp only [bind_eq_ok, operand_eq_ok_iff, pure_eq_ok, Option.some.injEq] at grown
      obtain ⟨_, ⟨-, rfl⟩, rfl⟩ := grown
      exact ⟨opcodes.1, opcodes.2, by omega, near.2, rfl⟩
    · cases grown
  · cases grown

theorem closes_of_cleared {step : Instruction} {edit : Edit} (enabled : passes .reset = true)
    (sole : body = Code.empty.plain step) (odd : Loop.addsOdd step = true)
    (cleared : Loop.cleared text start = .ok edit) :
    ∃ code, Closes passes may outers.isEmpty outer body code ∧
      (text.apply edit).toList = layout outers code := by
  have fresh : ∃ code, Closes passes may outers.isEmpty outer body code ∧
      (text.apply ⟨start, #[{ opcode := .reset, value := 1 }]⟩).toList = layout outers code := by
    refine ⟨_, .cleared enabled sole odd, ?_⟩
    rw [closed.toList_apply, layout_plain]
  simp only [Loop.cleared] at cleared
  cases first : text.before start 1 with
  | none =>
    simp only [first, Option.any_none, Bool.false_eq_true, if_false] at cleared
    split at cleared
    · next nothing => cases nothing
    · obtain rfl := pure_eq_ok.mp cleared
      exact fresh
  | some last =>
    have back := closed.before_one
    rw [first] at back
    simp only [first, Option.any_some, decide_eq_true_eq] at cleared
    split at cleared
    · next same =>
      obtain rfl := pure_eq_ok.mp cleared
      obtain ⟨before, behind⟩ := eq_plain_of_getLast? back.symm (by rw [same.1]; rfl)
      refine ⟨outer, .again enabled sole odd behind same.1 same.2, ?_⟩
      rw [closed.toList_apply]
      exact List.append_nil _
    · split at cleared
      · next reset move second moves =>
        obtain rfl := Option.some.inj moves
        rw [bind_eq_ok] at cleared
        obtain ⟨_ | wider, grown, cleared⟩ := cleared
        · obtain rfl := pure_eq_ok.mp cleared
          exact fresh
        · obtain rfl := pure_eq_ok.mp cleared
          obtain ⟨opcode, moves, near, stride, rfl⟩ := grow_eq_ok grown
          obtain ⟨between, behind⟩ := eq_plain_of_getLast? back.symm (by rw [moves]; rfl)
          have back := closed.before_two behind
          rw [second] at back
          obtain ⟨before, rfl⟩ := eq_plain_of_getLast? back.symm (by rw [opcode]; rfl)
          refine ⟨_, .wider enabled sole odd behind opcode moves near stride, ?_⟩
          have place : start - 2 = (layout outers before).length := by
            rw [closed.start, behind, layout_plain, layout_plain]
            simp
          rw [Text.toList_apply, closed.text, layout_loop, behind, layout_plain, layout_plain,
            List.append_assoc, List.append_assoc, List.take_left' place.symm, layout_plain]
      · obtain rfl := pure_eq_ok.mp cleared
        exact fresh

theorem closes_of_clearing {edit : Edit} (enabled : passes .reset = true)
    (found : Loop.clearing text start = .ok (some edit)) :
    ∃ code, Closes passes may outers.isEmpty outer body code ∧
      (text.apply edit).toList = layout outers code := by
  simp only [Loop.clearing, bind_eq_ok] at found
  obtain ⟨_ | step, sole, found⟩ := found
  · cases found
  · simp only at found
    split at found
    · next odd =>
      simp only [bind_eq_ok, pure_eq_ok, Option.some.injEq] at found
      obtain ⟨_, cleared, rfl⟩ := found
      exact closes_of_cleared closed enabled (closed.eq_plain_of_soleBody sole) odd cleared
    · cases found

theorem closes_of_scanning {edit : Edit} (enabled : passes .seek = true)
    (found : Loop.scanning text start = .ok (some edit)) :
    ∃ code, Closes passes may outers.isEmpty outer body code ∧
      (text.apply edit).toList = layout outers code := by
  simp only [Loop.scanning, bind_eq_ok] at found
  obtain ⟨_ | step, sole, found⟩ := found
  · cases found
  · simp only at found
    split at found
    · next opcode =>
      obtain rfl := Option.some.inj (pure_eq_ok.mp found)
      refine ⟨_, .sought enabled (closed.eq_plain_of_soleBody sole) opcode, ?_⟩
      rw [closed.toList_apply, layout_plain]
    · cases found

theorem closes_of_counted {edit : Edit} (proper : body.Proper)
    (enabled : passes .multiplication = true) (fusible : may body)
    (found : Loop.counted text start = .ok edit) :
    ∃ code, Closes passes may outers.isEmpty outer body code ∧
      (text.apply edit).toList = layout outers code := by
  obtain ⟨keep, tail⟩ := edit
  obtain ⟨counted, rfl, written⟩ := Loop.counted_eq_ok closed proper found
  refine ⟨_, .fused enabled counted fusible, ?_⟩
  rw [closed.toList_apply, layout_append, ← closed.start]
  exact congrArg _ written

theorem closes_of_empty {edit : Edit} (enabled : passes .emptyLoop = true)
    (found : Loop.empty text start = .ok (some edit)) :
    ∃ code, Closes passes may outers.isEmpty outer body code ∧
      (text.apply edit).toList = layout outers code := by
  unfold Loop.empty at found
  split at found
  · cases found
  · split at found
    · next short =>
      obtain rfl := Option.some.inj (Except.ok.inj found)
      have nothing : body = .empty := by
        have size := closed.size
        have none : body.emit true 0 = [] := by
          rw [← List.length_eq_zero_iff, Code.length_emit]
          omega
        exact Code.emit_eq_nil_iff.mp none
      refine ⟨outer, .emptied enabled nothing, ?_⟩
      rw [closed.toList_apply]
      exact List.append_nil _
    · cases found

/-- **There are no other cases.** -/
theorem closes_of_improve (proper : body.Proper) {improvement : Improvement}
    (improved : improve passes text start = .ok improvement)
    (fusible : ∀ edit, improvement.applied = some (.multiplication, edit) → may body) :
    ∃ code, Closes passes may outers.isEmpty outer body code ∧
      ∀ waiting diagnostics, (Draft.adopt start improvement
        ⟨text, waiting, diagnostics⟩).text.toList = layout outers code := by
  cases applied : improvement.applied with
  | none =>
    refine ⟨_, .kept (spared_of_improve closed improved applied), fun waiting diagnostics => ?_⟩
    simp only [Draft.adopt, applied]
    exact closed.text
  | some change =>
    obtain ⟨pass, edit⟩ := change
    obtain ⟨enabled, refusal, judged⟩ := judged_of_improveBy improved applied
    suffices replaced : ∃ code, Closes passes may outers.isEmpty outer body code ∧
        (text.apply edit).toList = layout outers code by
      obtain ⟨code, closes, written⟩ := replaced
      refine ⟨code, closes, fun waiting diagnostics => ?_⟩
      simp only [Draft.adopt, applied]
      exact written
    cases pass with
    | commentBlock =>
      simp only [Pass.judge, bind_eq_ok, pure_eq_ok] at judged
      obtain ⟨_, found, same⟩ := judged
      cases same
      exact ⟨outer, closes_of_dead closed enabled found⟩
    | reset =>
      simp only [Pass.judge, bind_eq_ok, pure_eq_ok] at judged
      obtain ⟨_, found, same⟩ := judged
      cases same
      exact closes_of_clearing closed enabled found
    | seek =>
      simp only [Pass.judge, bind_eq_ok, pure_eq_ok] at judged
      obtain ⟨_, found, same⟩ := judged
      cases same
      exact closes_of_scanning closed enabled found
    | multiplication =>
      simp only [Pass.judge] at judged
      split at judged
      · next found =>
        cases pure_eq_ok.mp judged
        exact closes_of_counted closed proper enabled (fusible edit applied) found
      · cases judged
      · cases judged
    | emptyLoop =>
      simp only [Pass.judge, bind_eq_ok, pure_eq_ok] at judged
      obtain ⟨_, found, same⟩ := judged
      cases same
      exact closes_of_empty closed enabled found
    | setFolding => cases judged

end Closing

end TapeMachine
