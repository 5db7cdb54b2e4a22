/-
**Replacing one counted loop.**

Wherever in a source a loop is closed and replaced as a counted loop, the loop comes to its end from
every machine, or an index leaves its range, and what replaces it comes to the same cells, the same
place of the head and the same stack.

* `Run.ends_of_completes`: a code at the end of a text that comes to its end runs off the text;
* `Loop.replaced_loop_resembles`: the loop and its replacement.
-/

import TapeMachine.Proofs.Assembly.Finished
import TapeMachine.Proofs.Behavior.Text
import TapeMachine.Proofs.Counted.Survey
import TapeMachine.Proofs.Refinement.Straight

namespace TapeMachine

/-- The text of a draft is never longer than what was read. -/
theorem size_le_of_foldlM {passes : Passes} {tokens : List Token} {draft : Draft}
    (taken : tokens.foldlM (Draft.take passes) Draft.empty = .ok draft) :
    draft.text.size ≤ tokens.length := by
  have codes : ∃ outers code, draft.Depicts outers code ∧
      Reached passes (fun _ => True) (tokens.map Token.symbol) outers code :=
    reached_of_foldlM taken fun _ _ _ _ _ _ _ _ _ _ _ _ _ _ => trivial
  obtain ⟨outers, code, depicts, reached⟩ := codes
  have short := reached.length_le
  rw [List.length_map, ← depicts.text, Array.length_toList] at short
  exact short

/-! ### Codes at the end of a text -/

section Ending

variable {text : Text} {code : Code} {before : List Instruction} (small : text.size < positionLimit)
  (unlinked : code.Unlinked) (written : text.toList = before ++ code.emit true before.length)
  {run : Run} (here : run.machine.position = before.length)

include small unlinked written here

theorem advance_of_layout (left : Nat) :
    Run.advance text left run = (code.exec true left run).resume text := by
  refine advance_of_carries small unlinked ⟨[], ?_⟩ left
  rw [List.append_nil, here, written, List.drop_left]

/-- What completes runs off the text. -/
theorem Run.ends_of_completes {left rest : Nat} {next : Run}
    (completed : code.exec true left run = .finished rest next) :
    Run.Ends text run (.overrun text.size) next := by
  have behind : next.machine.position = text.size := by
    have size := congrArg List.length written
    rw [List.length_append, Code.length_emit, Array.length_toList] at size
    rw [Code.position_of_exec unlinked _ _ _ _ completed, here, size]
  have outside : text[next.machine.position]? = none := by
    rw [behind]
    exact Array.getElem?_eq_none (Nat.le_refl _)
  refine ⟨left, ?_⟩
  rw [advance_of_layout small unlinked written here, completed]
  exact (Run.advance_of_overrun outside rest).trans (by rw [behind])

/-- What ends in between ends the run. -/
theorem Run.ends_of_breaks {left : Nat} {ending : Ending} {last : Run}
    (broken : code.exec true left run = .broken (.ended ending last)) :
    Run.Ends text run ending last := by
  refine ⟨left, ?_⟩
  rw [advance_of_layout small unlinked written here, broken]
  rfl

/-- What comes to what a sight says runs off the text, or overflows. -/
theorem Run.ends_of_reaches {sight : Sight} {held : Machine → Prop}
    (reaches : Reaches (code.exec true) run sight held) :
    ∃ ending last, Run.Ends text run ending last ∧
      (ending = .overflow ∨ ending = .overrun text.size) := by
  by_cases inside : sight.InRange
  · obtain ⟨next, -, -, -, -, done⟩ := reaches.completes inside
    exact ⟨_, next, Run.ends_of_completes small unlinked written here (done 0), .inr rfl⟩
  · obtain ⟨last, -, ⟨short, -⟩ | ⟨-, broken⟩⟩ :=
      reaches.breaks sight.cost fun both => inside both.1
    · exact absurd short (Nat.lt_irrefl _)
    · exact ⟨_, last, Run.ends_of_breaks small unlinked written here broken, .inl rfl⟩

end Ending

/-! ### The loop and its replacement -/

/-- From every head, register, stack and terminal, the loop that begins at `start` and ends with the
text runs off its end, and then so does what an edit replaces it by, with the same cells, head, stack
and streams; or an index leaves its range in the loop, and the replacement still ends. -/
def Loop.Replaces (edit : Edit) (closed : Text) (start : Nat) : Prop :=
  ∀ (head : Head) (register : UInt8) (stack : List UInt8) (terminal : Terminal),
    let replaced := closed.apply edit
    let run : Run := ⟨⟨head, start, register, stack⟩, terminal⟩
    (∃ last other, Run.Ends closed run (.overrun closed.size) last ∧
        Run.Ends replaced run (.overrun replaced.size) other ∧ other.Resembles last ∧
          last.machine.stack = stack ∧ last.terminal = terminal) ∨
      (∃ last, Run.Ends closed run .overflow last) ∧
        ∃ ending other, Run.Ends replaced run ending other ∧
          (ending = .overflow ∨ ending = .overrun replaced.size)

/-- **The loop and its replacement.** Wherever in a source a loop is closed that is accepted as a
counted loop, and no cell is assigned both inside of a nested region and outside of all, its
replacement comes to what the loop comes to. -/
theorem Loop.replaced_loop_resembles {passes : Passes} {source : Source}
    (short : source.length < positionLimit) {read unread : List Token} {token : Token}
    (tokens : (scan source).tokens.toList = read ++ token :: unread) {draft : Draft}
    (taken : read.foldlM (Draft.take passes) Draft.empty = .ok draft) {start : Nat} {bracket : Token}
    {waiting : List OpenLoop} (opened : draft.waiting = ⟨start, bracket⟩ :: waiting) {closed : Text}
    (ended : draft.text.close start = .ok closed) {edit : Edit}
    (accepted : counted closed start = .ok edit) (separate : Separate closed start) :
    Replaces edit closed start := by
  intro head register stack terminal replaced run
  obtain ⟨outers, body, depicts⟩ := depicts_of_foldlM taken
  have proper := depicts.proper
  cases outers with
  | nil =>
    have none := depicts.waiting
    rw [opened] at none
    cases none
  | cons outer outers =>
    have place := depicts.waiting
    rw [opened] at place
    obtain rfl : start = (layout outers outer).length := (List.cons.inj place).1
    have shape := closed_of_close depicts.text ended
    obtain ⟨counts, keep, tail⟩ := counted_eq_ok shape proper accepted
    have lasts := shape.lasts_of_lasting counts.straight (lasting_of_separate separate)
    -- Both texts are too short for a jump to leave the range of positions.
    have length : read.length + 1 ≤ source.length := by
      have all := length_tokens_le source
      rw [← Array.length_toList, tokens, List.length_append, List.length_cons] at all
      omega
    have size := size_le_of_foldlM taken
    have whole := shape.size
    have looped : closed.toList = layout outers outer ++
        (Code.empty.loop body).emit true (layout outers outer).length := by
      rw [shape.text, ← layout_append]
      rfl
    have fused : replaced.toList = layout outers outer ++
        body.fuse.emit true (layout outers outer).length := by
      rw [← tail, show replaced = closed.apply ⟨_, edit.tail⟩ from
        congrArg (closed.apply ⟨·, edit.tail⟩) keep, shape.toList_apply]
    have grown : closed.size = draft.text.size + 1 := by
      unfold Text.close at ended
      split at ended
      · obtain rfl := Except.ok.inj ended
        simp
      · cases ended
    have fewer := Code.size_fuse counts
    have bounded : replaced.size = (layout outers outer).length + body.fuse.size true := by
      rw [← Array.length_toList, fused, List.length_append, Code.length_emit]
    have unlinked := Code.unlinked_of_proper proper
    have smallLoop : closed.size < positionLimit := by omega
    have smallFused : replaced.size < positionLimit := by omega
    have there := Code.reaches_loop_self counts run
    have here := Code.reaches_exec_self counts.straight_fuse true run
    have improves := counts.improves_fuse lasts run.sight
    have alone : (Code.empty.loop body).Unlinked := ⟨trivial, unlinked⟩
    have fusedAlone := Code.unlinked_of_straight counts.straight_fuse
    by_cases inside : (body.rounds run.sight.cell.toNat run.sight.tick).InRange
    · obtain ⟨last, other, done, finished, resembles, stacked, still⟩ :=
        resembles_of_reaches (.refl run) here there improves inside
      exact .inl ⟨last, other, Run.ends_of_completes smallLoop alone looped rfl (done 0),
        Run.ends_of_completes smallFused fusedAlone fused rfl (finished 0), resembles, stacked, still⟩
    · obtain ⟨last, -, ⟨less, -⟩ | ⟨-, broken⟩⟩ :=
        there.breaks _ fun both => inside both.1
      · exact absurd less (Nat.lt_irrefl _)
      · exact .inr ⟨⟨last, Run.ends_of_breaks smallLoop alone looped rfl broken⟩,
          Run.ends_of_reaches smallFused fusedAlone fused rfl here⟩

/-- A loop that sets one cell in every turn, and another one in a loop that is within it. -/
theorem nested_region_replaced :
    let source : Source := ['+', '+', '[', '-', '>', '[', '-', ']', '+', '>', '[', '-', '>', '[', '-',
      ']', '+', '+', '>', '+', '<', '<', ']', '<', '<', ']', '>', '.'].map Char.toUInt8
    let tokens := (scan source).tokens.toList
    let opcodes : Array Opcode :=
      #[.push, .move, .set, .move, .push, .move, .set, .multiply, .move, .pop, .move, .pop]
    ∃ token unread draft start bracket waiting closed edit, source.length < positionLimit ∧
      tokens = tokens.take 25 ++ token :: unread ∧
        (tokens.take 25).foldlM (Draft.take Passes.all) Draft.empty = .ok draft ∧
          draft.waiting = ⟨start, bracket⟩ :: waiting ∧ draft.text.close start = .ok closed ∧
            Loop.counted closed start = .ok edit ∧ Loop.Separate closed start ∧
              edit.tail.map (·.opcode) = opcodes ∧ Loop.Replaces edit closed start := by
  intro source tokens opcodes
  have closing : ((tokens.take 25).foldlM (Draft.take Passes.all) Draft.empty).toOption.bind
      (fun draft => draft.waiting.head?.bind fun opened =>
        (draft.text.close opened.start).toOption.bind fun closed =>
          (Loop.counted closed opened.start).toOption.map fun edit =>
            decide (Loop.Separate closed opened.start ∧ edit.tail.map (·.opcode) = opcodes)) =
      some true := by
    decide +kernel
  simp only [Option.bind_eq_some_iff, toOption_eq_some, Option.map_eq_some_iff,
    decide_eq_true_eq] at closing
  obtain ⟨draft, taken, ⟨start, bracket⟩, first, closed, ended, edit, accepted, separate, fused⟩ :=
    closing
  obtain ⟨waiting, opened⟩ := List.head?_eq_some_iff.mp first
  have short : source.length < positionLimit := by decide
  have parts : tokens = tokens.take 25 ++ ⟨.closing, ⟨1, 26, 25⟩⟩ :: tokens.drop 26 := by
    decide +kernel
  exact ⟨_, _, draft, start, bracket, waiting, closed, edit, short, parts, taken, opened, ended,
    accepted, separate, fused,
    Loop.replaced_loop_resembles short parts taken opened ended accepted separate⟩

end TapeMachine
