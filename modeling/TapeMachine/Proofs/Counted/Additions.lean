/-
**Loops that only move and add.**

The body of such a loop is told by how far it moves the head and by what it adds to which cell. As long as
these sums are operands, reading the body comes to exactly that, and the loop is a counted loop if the
head comes back and the counter loses one, up to a multiple of 256.

* `displacement`, `additions`, `totalAt`: what a body comes to;
* `Fits`, `CountsDown`: the sums that are formed on the way are operands, and they are those of a counted
  loop;
* `Fusion.summary`: a body that has been read;
* `next_summary`, `foldlM_next`: one more instruction, and all of them;
* `counted_of_onlyAdds`: what becomes of the loop.
-/

import Mathlib.Data.List.Induction
import Mathlib.Data.List.Infix
import TapeMachine.Pass

namespace TapeMachine.Loop

/-! ### What a body comes to -/

/-- All that the instructions do is to move and to add. -/
def OnlyAdds (body : List Instruction) : Prop :=
  ∀ instruction ∈ body, instruction.opcode = .move ∨ instruction.opcode = .add

/-- How far the moves lead. -/
def displacement : List Instruction → Int
  | [] => 0
  | instruction :: rest =>
    (if instruction.opcode = .move then instruction.value else 0) + displacement rest

/-- An amount that is added to the cell at an offset. -/
structure Addition where
  offset : Int
  amount : Int

/-- What is added, if the head is at an offset before. -/
def additions : Int → List Instruction → List Addition
  | _, [] => []
  | here, instruction :: rest =>
    match instruction.opcode with
    | .move => additions (here + instruction.value) rest
    | .add => ⟨here, instruction.value⟩ :: additions here rest
    | _ => additions here rest

/-- What is added to the cell at an offset, all in all. -/
def totalAt (offset : Int) : List Addition → Int
  | [] => 0
  | addition :: rest =>
    (if addition.offset = offset then addition.amount else 0) + totalAt offset rest

/-- The additions to other cells than the counter. -/
def elsewhere (all : List Addition) : List Addition :=
  all.filter (·.offset ≠ 0)

/-- The sums that are formed when the body is read are operands. -/
def Fits (body : List Instruction) : Prop :=
  ∀ part, part <+: body → IsOperand (displacement part) ∧ IsOperand (totalAt 0 (additions 0 part))

/-- The head comes back to the counter, and the counter loses one, up to a multiple of 256. -/
def CountsDown (body : List Instruction) : Prop :=
  displacement body = 0 ∧ totalAt 0 (additions 0 body) % 256 = 255

instance (body : List Instruction) : Decidable (CountsDown body) :=
  inferInstanceAs (Decidable (_ ∧ _))

instance (body : List Instruction) : Decidable (Fits body) :=
  decidable_of_iff (∀ part ∈ body.inits, IsOperand (displacement part) ∧
    IsOperand (totalAt 0 (additions 0 part))) (by simp only [List.mem_inits, Fits])

instance (body : List Instruction) : Decidable (OnlyAdds body) :=
  inferInstanceAs (Decidable (∀ instruction ∈ body, _))

/-- The product that an addition becomes. -/
def Addition.product (addition : Addition) : Instruction :=
  { opcode := .multiply, value := addition.amount, offset := addition.offset }

variable {body part : List Instruction} {instruction : Instruction}

theorem displacement_concat (body : List Instruction) (instruction : Instruction) :
    displacement (body ++ [instruction]) =
      displacement body + if instruction.opcode = .move then instruction.value else 0 := by
  induction body with
  | nil => simp [displacement]
  | cons first rest ih => rw [List.cons_append, displacement, displacement, ih, Int.add_assoc]

theorem additions_append (here : Int) (first second : List Instruction) :
    additions here (first ++ second) =
      additions here first ++ additions (here + displacement first) second := by
  induction first generalizing here with
  | nil => simp [additions, displacement]
  | cons instruction rest ih =>
    rw [displacement, List.cons_append, additions, additions]
    cases instruction.opcode <;> simp [ih, Int.add_assoc]

theorem totalAt_append (offset : Int) (first second : List Addition) :
    totalAt offset (first ++ second) = totalAt offset first + totalAt offset second := by
  induction first with
  | nil => exact (Int.zero_add _).symm
  | cons addition rest ih => rw [List.cons_append, totalAt, totalAt, ih, Int.add_assoc]

theorem additions_concat_of_move (opcode : instruction.opcode = .move) :
    additions 0 (body ++ [instruction]) = additions 0 body := by
  simp [additions_append, additions, opcode]

theorem additions_concat_of_add (opcode : instruction.opcode = .add) :
    additions 0 (body ++ [instruction]) =
      additions 0 body ++ [⟨displacement body, instruction.value⟩] := by
  simp [additions_append, additions, opcode]

theorem Fits.of_concat (fits : Fits (body ++ [instruction])) : Fits body :=
  fun part early => fits part (early.trans (List.prefix_append _ _))

theorem fits_concat_iff : Fits (body ++ [instruction]) ↔ Fits body ∧
    IsOperand (displacement (body ++ [instruction])) ∧
      IsOperand (totalAt 0 (additions 0 (body ++ [instruction]))) := by
  constructor
  · exact fun fits => ⟨fits.of_concat, fits _ (List.prefix_refl _)⟩
  · rintro ⟨early, last⟩ part within
    rcases List.prefix_concat_iff.mp within with rfl | within
    · exact last
    · exact early part within

/-! ### Reading a body -/

namespace Fusion

/-- A body that only moves and adds, when it has been read. -/
def summary (body : List Instruction) : Fusion where
  operations := ((elsewhere (additions 0 body)).map Addition.product).toArray
  current := displacement body
  total := totalAt 0 (additions 0 body)
  footprint := { added := ((elsewhere (additions 0 body)).map Addition.offset).reverse }

theorem operand_of_not {value : Int} (outside : ¬ IsOperand value) :
    operand value = .error .overflow := if_neg outside

/-- A move is read. -/
theorem next_move (opcode : instruction.opcode = .move) :
    (summary body).next instruction =
      if IsOperand (displacement (body ++ [instruction])) then .ok (summary (body ++ [instruction]))
      else .error (.fault .overflow) := by
  have moved : displacement (body ++ [instruction]) = displacement body + instruction.value := by
    rw [displacement_concat, if_pos opcode]
  unfold summary
  simp only [next, opcode, additions_concat_of_move opcode, moved]
  split
  · next inside =>
    rw [operand_of_bounded inside]
    rfl
  · next outside =>
    rw [operand_of_not outside]
    rfl

/-- An addition to the counter is read. -/
theorem next_count (opcode : instruction.opcode = .add) (counter : displacement body = 0) :
    (summary body).next instruction =
      if IsOperand (totalAt 0 (additions 0 (body ++ [instruction]))) then
        .ok (summary (body ++ [instruction]))
      else .error (.fault .overflow) := by
  have still : displacement (body ++ [instruction]) = displacement body := by
    rw [displacement_concat, if_neg (by simp [opcode]), Int.add_zero]
  have added : totalAt 0 (additions 0 (body ++ [instruction])) =
      totalAt 0 (additions 0 body) + instruction.value := by
    rw [additions_concat_of_add opcode, totalAt_append]
    simp [totalAt, counter]
  have same : elsewhere (additions 0 (body ++ [instruction])) = elsewhere (additions 0 body) := by
    rw [additions_concat_of_add opcode]
    simp [elsewhere, counter]
  unfold summary
  simp only [next, opcode, same, still, added, if_pos counter]
  split
  · next inside =>
    rw [operand_of_bounded inside]
    rfl
  · next outside =>
    rw [operand_of_not outside]
    rfl

/-- An addition to another cell becomes a product. -/
theorem next_product (opcode : instruction.opcode = .add) (away : displacement body ≠ 0)
    (inside : IsOperand (displacement body)) :
    (summary body).next instruction = .ok (summary (body ++ [instruction])) := by
  have still : displacement (body ++ [instruction]) = displacement body := by
    rw [displacement_concat, if_neg (by simp [opcode]), Int.add_zero]
  have same : totalAt 0 (additions 0 (body ++ [instruction])) = totalAt 0 (additions 0 body) := by
    rw [additions_concat_of_add opcode, totalAt_append]
    simp [totalAt, away]
  have more : elsewhere (additions 0 (body ++ [instruction])) =
      elsewhere (additions 0 body) ++ [⟨displacement body, instruction.value⟩] := by
    rw [additions_concat_of_add opcode]
    simp [elsewhere, away]
  unfold summary
  simp only [next, opcode, same, still, more, if_neg away, Fusion.multiply, Int.sub_zero,
    operand_of_bounded inside]
  simp [Fusion.write, Addition.product]
  rfl

/-- **One more instruction is read**, if the sums are still operands. -/
theorem next_summary (fits : Fits body)
    (simple : instruction.opcode = .move ∨ instruction.opcode = .add) :
    (Fits (body ++ [instruction]) ∧
      (summary body).next instruction = .ok (summary (body ++ [instruction]))) ∨
    (¬ Fits (body ++ [instruction]) ∧
      (summary body).next instruction = .error (.fault .overflow)) := by
  have now := fits body (List.prefix_refl body)
  rw [fits_concat_iff]
  rcases simple with opcode | opcode
  · rw [next_move opcode, additions_concat_of_move opcode]
    split
    · next inside => exact .inl ⟨⟨fits, inside, now.2⟩, rfl⟩
    · next outside => exact .inr ⟨fun all => outside all.2.1, rfl⟩
  · have still : displacement (body ++ [instruction]) = displacement body := by
      rw [displacement_concat, if_neg (by simp [opcode]), Int.add_zero]
    rw [still]
    by_cases counter : displacement body = 0
    · rw [next_count opcode counter]
      split
      · next inside => exact .inl ⟨⟨fits, now.1, inside⟩, rfl⟩
      · next outside => exact .inr ⟨fun all => outside all.2.2, rfl⟩
    · refine .inl ⟨⟨fits, now.1, ?_⟩, next_product opcode counter now.1⟩
      rw [additions_concat_of_add opcode, totalAt_append]
      simpa [totalAt, counter] using now.2

theorem fits_nil : Fits [] := by
  intro part within
  rw [List.prefix_nil.mp within]
  decide

/-- **A body that only moves and adds is read** to its end, or a sum leaves the range of operands. -/
theorem foldlM_next (simple : OnlyAdds body) :
    (Fits body ∧ body.foldlM next {} = .ok (summary body)) ∨
      (¬ Fits body ∧ body.foldlM next {} = .error (.fault .overflow)) := by
  induction body using List.reverseRecOn with
  | nil => exact .inl ⟨fits_nil, rfl⟩
  | append_singleton before last ih =>
    have early : OnlyAdds before := fun instruction member =>
      simple instruction (List.mem_append_left _ member)
    rw [List.foldlM_append]
    rcases ih early with ⟨fits, read⟩ | ⟨large, failed⟩
    · rw [read]
      rcases next_summary fits (simple last (List.mem_append_right _ List.mem_cons_self)) with
        ⟨all, taken⟩ | ⟨large, taken⟩
      · refine .inl ⟨all, ?_⟩
        simp only [List.foldlM_cons, List.foldlM_nil, bind, Except.bind, taken]
        rfl
      · refine .inr ⟨large, ?_⟩
        simp only [List.foldlM_cons, bind, Except.bind, taken]
    · rw [failed]
      exact .inr ⟨fun fits => large fits.of_concat, rfl⟩

/-- What is made of it then. -/
theorem finish_summary (body : List Instruction) :
    (summary body).finish =
      if CountsDown body then .ok (summary body)
      else .error (.refusal (.uncounted (displacement body) (totalAt 0 (additions 0 body)))) := by
  have repeatable : (summary body).footprint.Repeatable :=
    Footprint.repeatable_of_touched_eq_nil rfl
  unfold finish
  by_cases counts : CountsDown body
  · have passes : ¬ ((summary body).current ≠ 0 ∨ (summary body).depth ≠ 0 ∨
        (summary body).total % 256 ≠ 255) := by
      simp [summary, counts.1, counts.2]
    rw [if_neg passes, if_neg (not_not.mpr repeatable), if_pos counts, flush,
      if_pos (show (summary body).current = (summary body).cursor from counts.1)]
    rfl
  · have refused : (summary body).current ≠ 0 ∨ (summary body).depth ≠ 0 ∨
        (summary body).total % 256 ≠ 255 :=
      (not_and_or.mp counts).imp_right .inr
    rw [if_pos refused, if_neg counts]
    rfl

end Fusion

/-! ### Loops at the end of a text -/

variable {text : Text} {before : List Instruction} {first last : Instruction}

theorem size_of_written (written : text.toList = before ++ first :: (body ++ [last])) :
    text.size = before.length + body.length + 2 := by
  rw [← Array.length_toList, written]
  simp
  omega

/-- The body of the last loop of a text. -/
theorem toList_extract (written : text.toList = before ++ first :: (body ++ [last])) :
    (text.extract (before.length + 1) (text.size - 1)).toList = body := by
  rw [Array.toList_extract, List.extract_eq_take_drop, written, size_of_written written]
  rw [show before ++ first :: (body ++ [last]) = (before ++ [first]) ++ (body ++ [last]) by simp,
    List.drop_left' (by simp)]
  exact List.take_left' (by omega)

/-- **What becomes of a loop that only moves and adds**: its body is read, if all sums are operands, and it is
a counted loop if the head comes back and the counter loses one. -/
theorem counted_of_onlyAdds (written : text.toList = before ++ first :: (body ++ [last]))
    (simple : OnlyAdds body) :
    (¬ Fits body ∧ counted text before.length = .error (.fault .overflow)) ∨
      Fits body ∧ counted text before.length =
        if CountsDown body then .ok ⟨before.length, (Fusion.summary body).region before.length⟩
        else .error (.refusal (.uncounted (displacement body) (totalAt 0 (additions 0 body)))) := by
  have long : text.bodySize before.length = .ok body.length := by
    have size := size_of_written written
    rw [Text.bodySize, if_pos (by omega), size]
    congr 1
    omega
  have read : Fusion.ofBody text before.length =
      body.foldlM Fusion.next {} >>= Fusion.finish := by
    rw [Fusion.ofBody, long, Array.foldlM_start_stop, ← Array.foldlM_toList, toList_extract written]
    rfl
  rcases Fusion.foldlM_next simple with ⟨fits, folded⟩ | ⟨large, folded⟩
  · refine .inr ⟨fits, ?_⟩
    rw [counted, read, folded]
    show (do return (⟨before.length, (← (Fusion.summary body).finish).region before.length⟩ : Edit)) = _
    rw [Fusion.finish_summary]
    split <;> rfl
  · refine .inl ⟨large, ?_⟩
    rw [counted, read, folded]
    rfl

end TapeMachine.Loop
