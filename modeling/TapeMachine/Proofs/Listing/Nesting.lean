/-
**What the indentation of a listing shows.**

* `Text.Around`, `Text.Entered`: the loops and stacked regions that a position is inside of, and those
  that are entered and not yet left before it;
* `entered_succ_of_opens`, `entered_of_closes`, `entered_of_not_closes`: how one instruction changes the
  latter;
* `encard_entered`: there are as many as the outline is deep;
* `indented_of_wellFormed`: so every line is indented by the pairs around it;
* `indented_of_assemble`: as all lines of the listing of an assembled text are.
-/

import Mathlib.Data.Set.Card
import TapeMachine.Proofs.Assembly.WellFormed
import TapeMachine.Proofs.Listing.Lines

namespace TapeMachine

/-! ### Pairs around a position -/

namespace Text

/-- The ends of the loops and of the regions on the stack that a position is inside of. -/
def Around (text : Text) (position : Nat) : Set (Nat × Nat) :=
  {pair | text.Pair pair.1 pair.2 ∧ pair.1 < position ∧ position < pair.2}

/-- The ends of those that are entered before a position, and not left before it. -/
def Entered (text : Text) (position : Nat) : Set (Nat × Nat) :=
  {pair | text.Pair pair.1 pair.2 ∧ pair.1 < position ∧ position ≤ pair.2}

variable {text : Text} {position start stop : Nat} {instruction : Instruction}

theorem Pair.opens (pair : text.Pair start stop) (found : text[start]? = some instruction) :
    Outline.opens instruction.opcode = true ∧ instruction.link = stop := by
  obtain ⟨opcode, link⟩ := pair.begins found
  refine ⟨?_, link⟩
  simpa [Outline.opens] using opcode

theorem Pair.closes (pair : text.Pair start stop) (found : text[stop]? = some instruction) :
    Outline.closes instruction.opcode = true ∧ instruction.link = start := by
  obtain ⟨-, opening, closing, -, last, opcodes, -, link⟩ := pair
  obtain rfl := Option.some.inj (last.symm.trans found)
  refine ⟨?_, link⟩
  rcases opcodes with ⟨-, opcode⟩ | ⟨-, opcode⟩ <;> simp [Outline.closes, opcode]

theorem entered_zero (text : Text) : text.Entered 0 = ∅ :=
  Set.eq_empty_of_forall_notMem fun _ entered => Nat.not_lt_zero _ entered.2.1

/-- Everything is left before the end. -/
theorem entered_size (text : Text) : text.Entered text.size = ∅ := by
  refine Set.eq_empty_of_forall_notMem fun pair entered => ?_
  obtain ⟨⟨-, opening, closing, -, last, -⟩, -, beyond⟩ := entered
  have inside := (Array.getElem?_eq_some_iff.mp last).1
  exact Nat.not_lt_of_le beyond inside

/-- Where nothing ends, a position is inside of what is entered. -/
theorem entered_of_not_closes (found : text[position]? = some instruction)
    (other : Outline.closes instruction.opcode = false) : text.Entered position = text.Around position := by
  ext ⟨start, stop⟩
  refine and_congr_right fun pair => and_congr_right fun _ => ⟨fun within => ?_, Nat.le_of_lt⟩
  refine Nat.lt_of_le_of_ne within ?_
  rintro rfl
  rw [(pair.closes found).1] at other
  cases other

/-- Where nothing begins, what is around a position stays entered. -/
theorem entered_succ_of_not_opens (found : text[position]? = some instruction)
    (other : Outline.opens instruction.opcode = false) :
    text.Entered (position + 1) = text.Around position := by
  ext ⟨start, stop⟩
  refine and_congr_right fun pair => and_congr_left fun _ => ⟨fun within => ?_, Nat.lt_succ_of_lt⟩
  refine Nat.lt_of_le_of_ne (Nat.le_of_lt_succ within) ?_
  rintro rfl
  rw [(pair.opens found).1] at other
  cases other

namespace WellFormed

variable (wellFormed : text.WellFormed)

include wellFormed

theorem pair_of_opens (found : text[position]? = some instruction)
    (opens : Outline.opens instruction.opcode = true) : text.Pair position instruction.link :=
  (wellFormed.paired _ _ found).1 (by simpa [Outline.opens] using opens)

theorem pair_of_closes (found : text[position]? = some instruction)
    (closes : Outline.closes instruction.opcode = true) : text.Pair instruction.link position :=
  (wellFormed.paired _ _ found).2 (by simpa [Outline.closes] using closes)

/-- Where a pair ends, that pair is entered besides those around its end. -/
theorem entered_of_closes (found : text[position]? = some instruction)
    (closes : Outline.closes instruction.opcode = true) :
    text.Entered position = insert (instruction.link, position) (text.Around position) := by
  have pair := wellFormed.pair_of_closes found closes
  ext ⟨start, stop⟩
  constructor
  · rintro ⟨other, before, within⟩
    rcases Nat.eq_or_lt_of_le within with same | inside
    · obtain rfl : position = stop := same
      exact .inl (congrArg (·, position) (other.closes found).2.symm)
    · exact .inr ⟨other, before, inside⟩
  · rintro (same | ⟨other, before, inside⟩)
    · cases same
      exact ⟨pair, pair.order, Nat.le_refl _⟩
    · exact ⟨other, before, Nat.le_of_lt inside⟩

/-- Where a pair begins, that pair is entered besides those around its beginning. -/
theorem entered_succ_of_opens (found : text[position]? = some instruction)
    (opens : Outline.opens instruction.opcode = true) :
    text.Entered (position + 1) = insert (position, instruction.link) (text.Around position) := by
  have pair := wellFormed.pair_of_opens found opens
  ext ⟨start, stop⟩
  constructor
  · rintro ⟨other, before, inside⟩
    rcases Nat.eq_or_lt_of_le (Nat.le_of_lt_succ before) with same | within
    · obtain rfl : start = position := same
      exact .inl (congrArg (start, ·) (other.opens found).2.symm)
    · exact .inr ⟨other, within, inside⟩
  · rintro (same | ⟨other, before, inside⟩)
    · cases same
      exact ⟨pair, Nat.lt_succ_self _, pair.order⟩
    · exact ⟨other, Nat.lt_succ_of_lt before, inside⟩

end WellFormed

end Text

/-! ### Depths -/

section Depths

variable {text : Text} {position : Nat} {instruction : Instruction} (wellFormed : text.WellFormed)

include wellFormed

/-- One instruction: if the outline before it is as deep as there are pairs entered, then its line is as
deep as there are pairs around it, and where a pair ends the depth is not zero. -/
theorem encard_around_of_entered (found : text[position]? = some instruction)
    (deep : (text.Entered position).encard = (Outline.before text position).depth) :
    (text.Around position).encard = (Outline.before text position).depthOf instruction ∧
      (Outline.closes instruction.opcode = true → 0 < (Outline.before text position).depth) := by
  unfold Outline.depthOf
  cases closes : Outline.closes instruction.opcode with
  | false =>
    rw [Text.entered_of_not_closes found closes] at deep
    exact ⟨deep, nofun⟩
  | true =>
    -- The pair that ends here is entered, but its end is not inside of it.
    have outside : (instruction.link, position) ∉ text.Around position :=
      fun around => Nat.lt_irrefl _ around.2.2
    rw [wellFormed.entered_of_closes found closes, Set.encard_insert_of_notMem outside] at deep
    generalize (Outline.before text position).depth = depth at deep ⊢
    cases depth with
    | zero => simp at deep
    | succ depth =>
      rw [Nat.cast_succ] at deep
      exact ⟨ENat.add_left_injective_of_ne_top ENat.one_ne_top deep, fun _ => Nat.succ_pos depth⟩

/-- An outline is as deep as there are pairs entered. -/
theorem encard_entered (within : position ≤ text.size) :
    (text.Entered position).encard = (Outline.before text position).depth := by
  induction position with
  | zero =>
    rw [Text.entered_zero, Set.encard_empty]
    rfl
  | succ position ih =>
    have found := Array.getElem?_eq_getElem (Nat.lt_of_succ_le within)
    have around := (encard_around_of_entered wellFormed found (ih (Nat.le_of_succ_le within))).1
    rw [Outline.before_succ found, Outline.depth_add]
    cases opens : Outline.opens text[position].opcode with
    | false =>
      rw [Text.entered_succ_of_not_opens found opens, around]
      rfl
    | true =>
      have outside : (position, text[position].link) ∉ text.Around position :=
        fun inside => Nat.lt_irrefl _ inside.2.1
      rw [wellFormed.entered_succ_of_opens found opens, Set.encard_insert_of_notMem outside, around]
      rfl

end Depths

/-! ### Indentation -/

/-- The lines of a listing show what every instruction is inside of. -/
structure Text.Indented (text : Text) : Prop where
  /-- Between its position and the instruction, a line has two blanks for every pair around it, besides
  the two that all lines have. -/
  lines : ∀ (position : Nat) (instruction : Instruction), text[position]? = some instruction →
    ∃ depth : Nat, (text.Around position).encard = depth ∧
      ((listing text).toList.splitOn '\n')[position]? =
        some (List.replicate (text.numberWidth - (Decimal.natural position).length) ' ' ++
          Decimal.natural position ++ [' ', ' '] ++ List.replicate (2 * depth) ' ' ++
            instruction.chars)
  /-- A line is moved out from a depth that is not zero, -/
  closes : ∀ (position : Nat) (instruction : Instruction), text[position]? = some instruction →
    Outline.closes instruction.opcode = true → 0 < (Outline.before text position).depth
  /-- and the last one ends at depth zero. -/
  level : (Outline.ofText text).depth = 0

theorem indented_of_wellFormed {text : Text} (wellFormed : text.WellFormed) : text.Indented where
  lines position instruction found := by
    have inside := (Array.getElem?_eq_some_iff.mp found).1
    have deep := encard_entered wellFormed (Nat.le_of_lt inside)
    refine ⟨_, (encard_around_of_entered wellFormed found deep).1, ?_⟩
    have line := Outline.getElem?_lines_ofText found
    rw [← Array.getElem?_toList] at line
    have size : position < ((Outline.ofText text).lines.toList.map
        (Line.printed text.numberWidth)).length := by
      rw [List.length_map]
      exact (List.getElem?_eq_some_iff.mp line).1
    rw [splitOn_listing, List.getElem?_append_left size, List.getElem?_map, line]
    rfl
  closes position instruction found closes := by
    have inside := (Array.getElem?_eq_some_iff.mp found).1
    have deep := encard_entered wellFormed (Nat.le_of_lt inside)
    exact (encard_around_of_entered wellFormed found deep).2 closes
  level := by
    have deep := encard_entered wellFormed (Nat.le_refl text.size)
    rw [Text.entered_size, Set.encard_empty, Outline.before_size] at deep
    exact_mod_cast deep.symm

/-- **The indentation of a listing** of an assembled text shows the loops and the regions on the stack
that an instruction is inside of, and nothing else. -/
theorem indented_of_assemble {passes : Passes} {source : Source} {assembly : Assembly}
    (assembled : assemble passes source = .ok assembly) : assembly.text.Indented := by
  obtain ⟨code, reached, written⟩ := code_of_assembled assembled
  exact indented_of_wellFormed (wellFormed_of_emit reached.proper.1 written)

/-- A loop with a region inside of a region, and a region without the stack behind it, which is not
indented. -/
theorem nested_listing_indented :
    let source : Source := ['+', '[', '.', '[', '-', '>', '[', '-', '>', '+', '>', '+', '<', '<', ']', '<',
      ']', '>', '[', '-', '>', '+', '>', '+', '<', '<', ']', '<', '-', ']'].map Char.toUInt8
    let listed := String.intercalate "\n" [" 0  Addition(1)", " 1  LoopStart -> 17", " 2    Output",
      " 3    Push -> 10", " 4      MovePointer(1)", " 5      Push -> 8", " 6        Multiplication(1, 1)",
      " 7        Multiplication(1, 2)", " 8      Pop -> 5", " 9      MovePointer(-1)",
      "10    Pop -> 3", "11    MovePointer(1)", "12    PushFast -> 14", "13    Multiplication(1, 1)",
      "14    Multiplication(1, 2)", "15    MovePointer(-1)", "16    Addition(-1)",
      "17  LoopEnd -> 1", "18  Stop", ""]
    ∃ assembly, assemble Passes.all source = .ok assembly ∧ listing assembly.text = listed ∧
      assembly.text.Indented := by
  intro source listed
  have text : (assemble Passes.all source).toOption.map (fun assembly => listing assembly.text) =
      some listed := by
    decide +kernel
  obtain ⟨assembly, found, shown⟩ := Option.map_eq_some_iff.mp text
  have assembled := toOption_eq_some.mp found
  exact ⟨assembly, assembled, shown, indented_of_assemble assembled⟩

end TapeMachine
