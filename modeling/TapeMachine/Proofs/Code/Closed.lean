/-
**A text that ends with a loop.**

When a loop is closed, the text is that of the codes around the open loops with the loop at its end.
What the passes look at, and what they replace, can be told from these codes.

* `Closed.toList_extract`, `Closed.soleBody_eq_ok_some`: the body of the loop;
* `Closed.before_one`, `Closed.before_two`: what stands before the loop;
* `Closed.toList_apply`: the text if the loop is replaced.
-/

import TapeMachine.Proofs.Code.Basic

namespace TapeMachine

/-- The last instruction that is written for a code, or before it. -/
theorem getLast?_layout (outers : List Code) (code : Code) :
    (∃ (before : Code) (last : Instruction), code = before.plain last) ∨ (layout outers code).getLast? = none ∨
      ∃ last, (layout outers code).getLast? = some last ∧ last.opcode.isBoundary = true := by
  cases code with
  | plain before last => exact .inl ⟨before, last, rfl⟩
  | loop before body =>
    right; right
    rw [layout_loop, ← List.cons_append, ← List.append_assoc, List.getLast?_concat]
    exact ⟨_, rfl, rfl⟩
  | region before fast body =>
    right; right
    rw [layout_region]
    simp only [Code.emit, Code.regionEnd, Bool.true_or, if_true, List.nil_append]
    rw [← List.cons_append, ← List.append_assoc, List.getLast?_concat]
    cases fast <;> exact ⟨_, rfl, rfl⟩
  | empty =>
    right
    cases outers with
    | nil => exact .inl rfl
    | cons outer rest =>
      right
      rw [layout_empty, preamble_cons, List.getLast?_concat]
      exact ⟨_, rfl, rfl⟩

theorem eq_plain_of_getLast? {outers : List Code} {code : Code} {last : Instruction}
    (found : (layout outers code).getLast? = some last) (plain : last.opcode.isBoundary = false) :
    ∃ before : Code, code = before.plain last := by
  rcases getLast?_layout outers code with ⟨before, other, rfl⟩ | nothing | ⟨other, same, boundary⟩
  · rw [layout_plain, List.getLast?_concat] at found
    obtain rfl := Option.some.inj found
    exact ⟨before, rfl⟩
  · rw [nothing] at found
    cases found
  · rw [same] at found
    obtain rfl := Option.some.inj found
    rw [plain] at boundary
    cases boundary

/-- The text ends with a loop at `start`, behind the code `outer`. -/
structure Closed (outers : List Code) (outer body : Code) (text : Text) (start : Nat) : Prop where
  text : text.toList = layout outers (outer.loop body)
  start : start = (layout outers outer).length

namespace Closed

variable {outers : List Code} {outer body : Code} {text : Text} {start : Nat}
  (closed : Closed outers outer body text start)

include closed

theorem size : text.size = start + body.size true + 2 := by
  have length := congrArg List.length closed.text
  rw [layout_loop, ← closed.start, Array.length_toList] at length
  simp only [List.length_append, List.length_cons, List.length_nil, Code.length_emit,
    ← closed.start] at length
  omega

/-- The text behind the beginning of the loop. -/
theorem drop_eq : text.toList.drop (start + 1) =
    body.emit true (start + 1) ++ [{ opcode := .loopEnd, link := start }] := by
  rw [closed.text, layout_loop, ← List.drop_drop, List.drop_left' closed.start.symm,
    ← closed.start]
  rfl

/-- The body is what stands between the ends. -/
theorem toList_extract :
    (text.extract (start + 1) (text.size - 1)).toList = body.emit true (start + 1) := by
  have inside : text.size - 1 - (start + 1) = body.size true := by
    have size := closed.size
    omega
  rw [Array.toList_extract, List.extract_eq_take_drop, inside, closed.drop_eq,
    List.take_left' (Code.length_emit ..)]

theorem toList_apply (tail : Array Instruction) :
    (text.apply ⟨start, tail⟩).toList = layout outers outer ++ tail.toList := by
  rw [Text.toList_apply, closed.text, layout_loop, List.take_left' closed.start.symm]

/-- The instructions before the loop, counted backwards. -/
theorem before_eq (distance : Nat) :
    text.before start (distance + 1) = (layout outers outer).reverse[distance]? := by
  have first := closed.start
  unfold Text.before
  split
  · next near =>
    have place : start - (distance + 1) < (layout outers outer).length := by omega
    rw [List.getElem?_reverse (by omega), ← Array.getElem?_toList, closed.text, layout_loop,
      List.getElem?_append_left place]
    congr 1
    omega
  · next far =>
    refine (List.getElem?_eq_none ?_).symm
    rw [List.length_reverse]
    omega

theorem before_one : text.before start 1 = (layout outers outer).getLast? := by
  rw [closed.before_eq, ← List.head?_eq_getElem?, List.head?_reverse]

/-- The second instruction before the loop, if the first is plain. -/
theorem before_two {before : Code} {last : Instruction} (behind : outer = before.plain last) :
    text.before start 2 = (layout outers before).getLast? := by
  rw [closed.before_eq, behind, layout_plain, List.reverse_concat, List.getElem?_cons_succ,
    ← List.head?_eq_getElem?, List.head?_reverse]

theorem eq_plain_of_soleBody {sole : Instruction} (found : text.soleBody start = .ok (some sole)) :
    body = Code.empty.plain sole := by
  obtain ⟨size, here⟩ := Text.soleBody_eq_ok_some_iff.mp found
  have one : (body.emit true (start + 1)).length = 1 := by
    rw [Code.length_emit]
    have whole := closed.size
    omega
  obtain ⟨only, single⟩ := List.length_eq_one_iff.mp one
  have first : text.toList[start + 1]? = some sole := by
    rw [Array.getElem?_toList]
    exact here
  have same : only = sole := by
    have behind := congrArg (·[0]?) closed.drop_eq
    simp only [List.getElem?_drop, Nat.add_zero, first, single] at behind
    exact (Option.some.inj behind).symm
  exact Code.eq_plain_of_emit_eq_singleton (same ▸ single)

end Closed

end TapeMachine
