/-
**The lines of a listing.**

* `Line.printed`: a line up to its newline, of which there is no other in it;
* `splitOn_listing`: so the listing cut at its newlines is the lines of the outline, and nothing behind
  the last of them;
* `getElem?_lines_ofText`: which line an instruction has, by what stands before it.
-/

import TapeMachine.Listing

namespace TapeMachine

/-! ### Characters that are not printed -/

theorem Decimal.not_mem_integer_of_not_isDigit {char : Char} (other : char.isDigit = false)
    (plus : char ≠ '-') (number : Int) : char ∉ integer number := by
  cases number with
  | ofNat number => exact not_mem_natural_of_not_isDigit other number
  | negSucc number =>
    rw [integer, List.mem_cons, not_or]
    exact ⟨plus, not_mem_natural_of_not_isDigit other _⟩

/-- The name of an opcode is a word. -/
theorem Opcode.isAlpha_of_mem_name {opcode : Opcode} {char : Char}
    (member : char ∈ opcode.name.toList) : char.isAlpha = true := by
  have all : opcode.name.toList.all Char.isAlpha = true := by cases opcode <;> decide
  exact List.all_eq_true.mp all char member

/-- An instruction is printed on one line. -/
theorem Instruction.newline_not_mem_chars (instruction : Instruction) :
    '\n' ∉ instruction.chars := by
  have integer : ∀ number, '\n' ∉ Decimal.integer number :=
    Decimal.not_mem_integer_of_not_isDigit (by decide) (by decide)
  have natural : ∀ number, '\n' ∉ Decimal.natural number :=
    Decimal.not_mem_natural_of_not_isDigit (by decide)
  have name : '\n' ∉ instruction.opcode.name.toList := fun member => by
    cases Opcode.isAlpha_of_mem_name member
  rw [chars, List.mem_append, not_or]
  refine ⟨name, ?_⟩
  unfold operandChars
  split <;> simp [integer, natural]

/-! ### Lines -/

namespace Line

/-- A line up to its newline. -/
def printed (width : Nat) (line : Line) : List Char :=
  let number := Decimal.natural line.position
  List.replicate (width - number.length) ' ' ++ number ++ [' ', ' '] ++
    List.replicate (2 * line.depth) ' ' ++ line.instruction.chars

theorem chars_eq (width : Nat) (line : Line) : line.chars width = line.printed width ++ ['\n'] := rfl

theorem newline_not_mem_printed (width : Nat) (line : Line) : '\n' ∉ line.printed width := by
  have natural : ∀ number, '\n' ∉ Decimal.natural number :=
    Decimal.not_mem_natural_of_not_isDigit (by decide)
  simp [printed, natural, line.instruction.newline_not_mem_chars]

end Line

/-- How wide the positions of a text are printed. -/
def Text.numberWidth (text : Text) : Nat := (Decimal.natural text.size).length

theorem toList_listing (text : Text) :
    (listing text).toList =
      (Outline.ofText text).lines.toList.flatMap (Line.chars text.numberWidth) := by
  rw [listing, String.toList_join, List.flatMap_map]
  exact congrArg (List.flatMap · _) (funext fun line => String.toList_ofList)

/-- Cutting a listing at its newlines gives its lines. -/
theorem splitOn_listing (text : Text) :
    (listing text).toList.splitOn '\n' =
      (Outline.ofText text).lines.toList.map (Line.printed text.numberWidth) ++ [[]] := by
  rw [toList_listing]
  induction (Outline.ofText text).lines.toList with
  | nil => rfl
  | cons line lines ih =>
    rw [List.flatMap_cons, Line.chars_eq, List.append_assoc, List.singleton_append, List.splitOn,
      List.splitOnP_append_cons_of_forall_mem _ _ rfl]
    · exact congrArg (List.cons _) ih
    · rintro char member
      refine beq_eq_false_iff_ne.mpr ?_
      rintro rfl
      exact line.newline_not_mem_printed _ member

/-! ### Lines of instructions -/

namespace Outline

/-- The depth at which an instruction is shown behind an outline. -/
def depthOf (outline : Outline) (instruction : Instruction) : Nat :=
  if closes instruction.opcode then outline.depth - 1 else outline.depth

theorem lines_add (outline : Outline) (instruction : Instruction) :
    (outline.add instruction).lines =
      outline.lines.push ⟨outline.lines.size, outline.depthOf instruction, instruction⟩ := rfl

theorem depth_add (outline : Outline) (instruction : Instruction) :
    (outline.add instruction).depth =
      outline.depthOf instruction + if opens instruction.opcode then 1 else 0 := by
  simp only [add, depthOf]
  split <;> rfl

/-- Later instructions leave the lines as they are. -/
theorem getElem?_foldl_add {rest : List Instruction} {outline : Outline} {position : Nat} {line : Line}
    (found : outline.lines[position]? = some line) :
    (rest.foldl add outline).lines[position]? = some line := by
  induction rest generalizing outline with
  | nil => exact found
  | cons instruction rest ih =>
    have inside := (Array.getElem?_eq_some_iff.mp found).1
    refine ih ?_
    rw [lines_add, Array.getElem?_push_lt inside, ← Array.getElem?_eq_getElem inside, found]

/-- There is a line for every instruction. -/
theorem size_lines_ofText (text : Text) : (ofText text).lines.size = text.size := by
  have same := congrArg List.length (instructions_ofText text)
  rwa [List.length_map, Array.length_toList, Array.length_toList] at same

/-- The outline of the first instructions of a text. -/
def before (text : Text) (position : Nat) : Outline :=
  (text.toList.take position).foldl add empty

theorem before_size (text : Text) : before text text.size = ofText text := by
  rw [before, ofText, ← Array.foldl_toList, ← Array.length_toList, List.take_length]

theorem before_succ {text : Text} {position : Nat} {instruction : Instruction}
    (found : text[position]? = some instruction) :
    before text (position + 1) = (before text position).add instruction := by
  rw [before, before, List.take_add_one, List.foldl_append, Array.getElem?_toList, found]
  rfl

/-- There is a line for every instruction. -/
theorem size_lines_before {text : Text} {position : Nat} (within : position ≤ text.size) :
    (before text position).lines.size = position := by
  have taken : (text.toList.take position).length = position := by
    rw [List.length_take, Array.length_toList, Nat.min_eq_left within]
  have same := congrArg List.length (instructions_foldl_add (text.toList.take position) empty)
  rw [List.length_map, List.length_append, taken] at same
  exact same.trans (Nat.zero_add position)

/-- The line of an instruction. -/
theorem getElem?_lines_ofText {text : Text} {position : Nat} {instruction : Instruction}
    (found : text[position]? = some instruction) :
    (ofText text).lines[position]? =
      some ⟨position, (before text position).depthOf instruction, instruction⟩ := by
  have inside := (Array.getElem?_eq_some_iff.mp found).1
  have size := size_lines_before (Nat.le_of_lt inside)
  have whole : ofText text = (text.toList.drop (position + 1)).foldl add
      (before text (position + 1)) := by
    rw [before, ← List.foldl_append, List.take_append_drop, ofText, Array.foldl_toList]
  rw [whole, before_succ found]
  refine getElem?_foldl_add ?_
  rw [lines_add, size, Array.getElem?_push, if_pos size.symm]

end Outline

end TapeMachine
