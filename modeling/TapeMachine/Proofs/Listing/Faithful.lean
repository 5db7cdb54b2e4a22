/-
**What a listing tells.**

* `Instruction.shown`: an instruction without the operands that its opcode does not use;
* `Instruction.chars_eq_iff`: this is what its printed form tells, and all that it tells;
* `Text.ShowsAlike`: the same opcodes with the same operands, as far as they are shown;
* `showsAlike_of_listing_eq`, `listing_eq_of_showsAlike`: this is what a listing tells of a text;
* `shown_of_assembled`: and of a finished text it tells everything;
* `listing_faithful`: both together.
-/

import TapeMachine.Proofs.Assembly.WellFormed
import TapeMachine.Proofs.Listing.Lines

namespace TapeMachine

namespace Instruction

/-- The instruction without the operands that its opcode does not use. -/
def shown (instruction : Instruction) : Instruction :=
  match instruction.opcode.operands with
  | .none => { opcode := instruction.opcode }
  | .value => { opcode := instruction.opcode, value := instruction.value }
  | .valueAndOffset =>
    { opcode := instruction.opcode, value := instruction.value, offset := instruction.offset }
  | .link => { opcode := instruction.opcode, link := instruction.link }

@[simp] theorem opcode_shown (instruction : Instruction) :
    instruction.shown.opcode = instruction.opcode := by
  unfold shown
  split <;> rfl

/-- What is not shown is not printed. -/
theorem chars_shown (instruction : Instruction) : instruction.shown.chars = instruction.chars := by
  rw [chars, chars, opcode_shown]
  congr 1
  simp only [operandChars, opcode_shown]
  cases operands : instruction.opcode.operands <;> simp only [shown, operands]

/-! ### Reading an instruction back -/

/-- The operands are set apart from the name. -/
theorem takeWhile_isAlpha_operandChars (instruction : Instruction) :
    instruction.operandChars.takeWhile Char.isAlpha = [] := by
  unfold operandChars
  split <;> rfl

/-- The printed form begins with the name. -/
theorem takeWhile_isAlpha_chars (instruction : Instruction) :
    instruction.chars.takeWhile Char.isAlpha = instruction.opcode.name.toList := by
  rw [chars, List.takeWhile_append_of_pos fun _ => Opcode.isAlpha_of_mem_name,
    takeWhile_isAlpha_operandChars, List.append_nil]

theorem opcode_eq_of_chars_eq {first second : Instruction} (same : first.chars = second.chars) :
    first.opcode = second.opcode := by
  have names := congrArg (List.takeWhile Char.isAlpha) same
  rw [takeWhile_isAlpha_chars, takeWhile_isAlpha_chars, String.toList_inj] at names
  have found := Opcode.ofName?_name first.opcode
  rw [names, Opcode.ofName?_name] at found
  exact (Option.some.inj found).symm

/-- The printed operands determine those that the opcode uses. -/
theorem shown_eq_of_operandChars_eq {first second : Instruction}
    (opcode : first.opcode = second.opcode) (same : first.operandChars = second.operandChars) :
    first.shown = second.shown := by
  simp only [operandChars, ← opcode] at same
  simp only [shown, ← opcode]
  cases operands : first.opcode.operands with
  | none => rfl
  | value =>
    simp only [operands, List.cons_append, List.cons.injEq, true_and] at same
    rw [Decimal.integer_injective (List.append_cancel_right same)]
  | valueAndOffset =>
    simp only [operands, List.cons_append, List.append_assoc, List.cons.injEq, List.nil_append,
      true_and] at same
    have comma : ∀ number, ',' ∉ Decimal.integer number :=
      Decimal.not_mem_integer_of_not_isDigit (by decide) (by decide)
    obtain ⟨value, -, rest⟩ := (List.append_cons_inj_of_notMem (comma _) (by simp [comma])).mp same
    have offset := List.append_cancel_right (List.cons.inj rest).2
    rw [Decimal.integer_injective value, Decimal.integer_injective offset]
  | link =>
    simp only [operands] at same
    rw [Decimal.natural_injective (List.append_cancel_left same)]

/-- **What an instruction is printed as** tells what is shown of it. -/
theorem chars_eq_iff {first second : Instruction} :
    first.chars = second.chars ↔ first.shown = second.shown := by
  constructor
  · intro same
    have opcode := opcode_eq_of_chars_eq same
    rw [chars, chars, opcode] at same
    exact shown_eq_of_operandChars_eq opcode (List.append_cancel_left same)
  · intro same
    rw [← chars_shown first, same, chars_shown]

/-- A printed form does not begin with a blank. -/
theorem dropWhile_blank_chars (instruction : Instruction) :
    instruction.chars.dropWhile (· = ' ') = instruction.chars := by
  unfold chars
  cases instruction.opcode <;> rfl

end Instruction

/-! ### Showing alike -/

namespace Opcode

/-- The opcodes that show their value, -/
def showingValue : List Opcode := [.move, .add, .seek, .set, .reset, .multiply, .store]

/-- their offset, -/
def showingOffset : List Opcode := [.reset, .multiply, .store]

/-- and their link. -/
def showingLink : List Opcode := [.loopStart, .loopEnd, .push, .pushFast, .pop, .popFast]

theorem mem_showingValue_iff {opcode : Opcode} :
    opcode ∈ showingValue ↔ opcode.operands = .value ∨ opcode.operands = .valueAndOffset := by
  cases opcode <;> decide

theorem mem_showingOffset_iff {opcode : Opcode} :
    opcode ∈ showingOffset ↔ opcode.operands = .valueAndOffset := by
  cases opcode <;> decide

theorem mem_showingLink_iff {opcode : Opcode} : opcode ∈ showingLink ↔ opcode.operands = .link := by
  cases opcode <;> decide

end Opcode

namespace Instruction

/-- The same opcode, and the same of the operands that it shows. -/
structure ShowsAlike (first second : Instruction) : Prop where
  opcode : first.opcode = second.opcode
  value : first.opcode ∈ Opcode.showingValue → first.value = second.value
  offset : first.opcode ∈ Opcode.showingOffset → first.offset = second.offset
  link : first.opcode ∈ Opcode.showingLink → first.link = second.link

/-- The operands that are not shown are zero. -/
structure ShowsAll (instruction : Instruction) : Prop where
  value : instruction.opcode ∉ Opcode.showingValue → instruction.value = 0
  offset : instruction.opcode ∉ Opcode.showingOffset → instruction.offset = 0
  link : instruction.opcode ∉ Opcode.showingLink → instruction.link = 0

theorem showsAlike_iff {first second : Instruction} :
    first.ShowsAlike second ↔ first.shown = second.shown := by
  constructor
  · rintro ⟨opcode, value, offset, link⟩
    rw [Opcode.mem_showingValue_iff] at value
    rw [Opcode.mem_showingOffset_iff] at offset
    rw [Opcode.mem_showingLink_iff] at link
    simp only [shown, ← opcode]
    cases operands : first.opcode.operands <;> simp_all
  · intro same
    have opcode : first.opcode = second.opcode := by simpa using congrArg Instruction.opcode same
    simp only [shown, ← opcode] at same
    constructor
    · exact opcode
    · rw [Opcode.mem_showingValue_iff]
      cases operands : first.opcode.operands <;> simp_all
    · rw [Opcode.mem_showingOffset_iff]
      cases operands : first.opcode.operands <;> simp_all
    · rw [Opcode.mem_showingLink_iff]
      cases operands : first.opcode.operands <;> simp_all

theorem showsAll_of_shown_eq {instruction : Instruction} (same : instruction.shown = instruction) :
    instruction.ShowsAll := by
  rw [← same]
  constructor
  · rw [Opcode.mem_showingValue_iff, opcode_shown, shown]
    cases instruction.opcode.operands <;> simp
  · rw [Opcode.mem_showingOffset_iff, opcode_shown, shown]
    cases instruction.opcode.operands <;> simp
  · rw [Opcode.mem_showingLink_iff, opcode_shown, shown]
    cases instruction.opcode.operands <;> simp

end Instruction

/-- The texts are as long, and show alike at every position. -/
structure Text.ShowsAlike (first second : Text) : Prop where
  size : first.size = second.size
  alike : ∀ (position : Nat) (one two : Instruction), first[position]? = some one →
    second[position]? = some two → one.ShowsAlike two

/-- Texts that show alike are the same but for what is not shown. -/
theorem Text.ShowsAlike.map_shown {first second : Text} (alike : first.ShowsAlike second) :
    first.map Instruction.shown = second.map Instruction.shown := by
  refine Array.ext (by simpa using alike.size) fun position here there => ?_
  rw [Array.size_map] at here there
  rw [Array.getElem_map, Array.getElem_map]
  exact Instruction.showsAlike_iff.mp (alike.alike position _ _ (Array.getElem?_eq_getElem here)
    (Array.getElem?_eq_getElem there))

/-! ### Reading a listing back -/

/-- The line, with no more of its instruction than is printed. -/
def Line.shown (line : Line) : Line :=
  { line with instruction := line.instruction.shown }

theorem Line.printed_shown (width : Nat) (line : Line) :
    line.shown.printed width = line.printed width := by
  unfold printed shown
  rw [Instruction.chars_shown]

/-- A line tells its instruction to those who know its position. -/
theorem Line.shown_eq_of_printed_eq {width : Nat} {first second : Line}
    (position : first.position = second.position)
    (same : first.printed width = second.printed width) :
    first.instruction.shown = second.instruction.shown := by
  simp only [printed, position, List.append_assoc] at same
  -- What is left behind the number differs in blanks at most, and no instruction begins with one.
  have indented := List.append_cancel_left (List.append_cancel_left (List.append_cancel_left same))
  have unindented := congrArg (List.dropWhile (· = ' ')) indented
  have blanks (depth : Nat) : ∀ char ∈ List.replicate (2 * depth) ' ', decide (char = ' ') = true :=
    fun char member => decide_eq_true (List.eq_of_mem_replicate member)
  rw [List.dropWhile_append_of_pos (blanks _), List.dropWhile_append_of_pos (blanks _),
    Instruction.dropWhile_blank_chars, Instruction.dropWhile_blank_chars] at unindented
  exact Instruction.chars_eq_iff.mp unindented

namespace Outline

/-- The outline, with no more of its instructions than is printed. -/
def shown (outline : Outline) : Outline :=
  ⟨outline.lines.map Line.shown, outline.depth⟩

/-- Depths are told by opcodes. -/
theorem shown_add (outline : Outline) (instruction : Instruction) :
    outline.shown.add instruction.shown = (outline.add instruction).shown := by
  simp only [shown, add, Instruction.opcode_shown, Array.size_map, Array.map_push]
  rfl

theorem shown_empty : empty.shown = empty := by
  simp [shown, empty]

theorem shown_foldl_add (rest : List Instruction) (outline : Outline) :
    (rest.map Instruction.shown).foldl add outline.shown = (rest.foldl add outline).shown := by
  induction rest generalizing outline with
  | nil => rfl
  | cons instruction rest ih => rw [List.map_cons, List.foldl_cons, shown_add, ih, List.foldl_cons]

theorem ofText_map_shown (text : Text) : ofText (text.map Instruction.shown) = (ofText text).shown := by
  rw [ofText, ofText, ← Array.foldl_toList, ← Array.foldl_toList, Array.toList_map, ← shown_foldl_add,
    shown_empty]

end Outline

/-- What is not shown is not listed. -/
theorem listing_map_shown (text : Text) : listing (text.map Instruction.shown) = listing text := by
  have width : Text.numberWidth (text.map Instruction.shown) = text.numberWidth := by
    rw [Text.numberWidth, Array.size_map, Text.numberWidth]
  rw [← String.toList_inj, toList_listing, toList_listing, width, Outline.ofText_map_shown,
    Outline.shown, Array.toList_map, List.flatMap_map]
  refine congrArg (List.flatMap · _) (funext fun line => ?_)
  rw [Line.chars_eq, Line.printed_shown, Line.chars_eq]

/-- Equal listings have as many lines, and the lines of a position are equal. -/
theorem printed_of_listing_eq {first second : Text} (same : listing first = listing second) :
    first.size = second.size ∧
      (Outline.ofText first).lines.toList.map (Line.printed first.numberWidth) =
        (Outline.ofText second).lines.toList.map (Line.printed first.numberWidth) := by
  have cut := congrArg (fun listing : String => listing.toList.splitOn '\n') same
  simp only [splitOn_listing] at cut
  have lines := List.append_cancel_right cut
  have size := congrArg List.length lines
  rw [List.length_map, List.length_map, Array.length_toList, Array.length_toList,
    Outline.size_lines_ofText, Outline.size_lines_ofText] at size
  refine ⟨size, ?_⟩
  rw [lines, Text.numberWidth, Text.numberWidth, size]

/-- Texts with equal listings show alike. -/
theorem showsAlike_of_listing_eq {first second : Text} (same : listing first = listing second) :
    first.ShowsAlike second := by
  obtain ⟨size, lines⟩ := printed_of_listing_eq same
  refine ⟨size, fun position one two here there => ?_⟩
  have line := congrArg (·[position]?) lines
  simp only [List.getElem?_map, Array.getElem?_toList, Outline.getElem?_lines_ofText here,
    Outline.getElem?_lines_ofText there, Option.map_some, Option.some.injEq] at line
  have told : one.shown = two.shown := Line.shown_eq_of_printed_eq (by rfl) line
  exact Instruction.showsAlike_iff.mpr told

/-- Texts that show alike have equal listings. -/
theorem listing_eq_of_showsAlike {first second : Text} (alike : first.ShowsAlike second) :
    listing first = listing second := by
  rw [← listing_map_shown first, alike.map_shown, listing_map_shown]

/-! ### Listings of finished texts -/

/-- A sound instruction that belongs to no loop or region has nothing that is not shown. -/
theorem Instruction.Sound.shown_eq {instruction : Instruction} (sound : instruction.Sound)
    (unlinked : instruction.opcode.isBoundary = false) : instruction.shown = instruction := by
  have link := sound.unlinked
  have offset := sound.plain
  have value := sound.bare
  rcases instruction with ⟨opcode, value, offset, link⟩
  unfold shown
  cases opcode <;> simp_all [Opcode.operands, Opcode.isBoundary]

/-- Nor has an instruction with nothing but a link. -/
theorem Instruction.shown_linked {opcode : Opcode} (boundary : opcode.isBoundary = true) (link : Nat) :
    Instruction.shown { opcode := opcode, link := link } = { opcode := opcode, link := link } := by
  rw [shown, show opcode.operands = .link from of_decide_eq_true boundary]

/-- The instructions of a code have nothing that is not shown. -/
theorem Code.shown_of_mem_emit {code : Code} (made : code.Proper ∨ code.Straight true) {keep : Bool}
    {base : Nat} {instruction : Instruction} (member : instruction ∈ code.emit keep base) :
    instruction.shown = instruction := by
  induction code generalizing base with
  | empty => cases member
  | plain before last ih =>
    have outer : before.Proper ∨ before.Straight true := made.imp And.left And.left
    have sound : last.Sound := made.elim (·.2.2) (·.2.2)
    have unlinked : last.opcode.isBoundary = false :=
      made.elim (unlinked_of_proper · |>.2) (unlinked_of_straight · |>.2)
    rcases List.mem_append.mp member with early | late
    · exact ih outer early
    · obtain rfl := List.mem_singleton.mp late
      exact sound.shown_eq unlinked
  | loop before body ihBefore ihBody =>
    have proper : before.Proper ∧ body.Proper := made.resolve_right id
    rcases List.mem_append.mp member with early | late
    · exact ihBefore (.inl proper.1) early
    · rcases List.mem_cons.mp late with rfl | late
      · exact Instruction.shown_linked rfl _
      · rcases List.mem_append.mp late with inside | ended
        · exact ihBody (.inl proper.2) inside
        · obtain rfl := List.mem_singleton.mp ended
          exact Instruction.shown_linked rfl _
  | region before fast body ihBefore ihBody =>
    have outer : before.Proper ∨ before.Straight true := made.imp And.left And.left
    have inner : body.Straight true := made.elim (·.2.2.1) (·.2.2.2.1)
    rcases List.mem_append.mp member with early | late
    · exact ihBefore outer early
    · rcases List.mem_cons.mp late with rfl | late
      · cases fast <;> exact Instruction.shown_linked rfl _
      · rcases List.mem_append.mp late with inside | ended
        · exact ihBody (.inr inner) inside
        · unfold regionEnd at ended
          split at ended
          · obtain rfl := List.mem_singleton.mp ended
            cases fast <;> exact Instruction.shown_linked rfl _
          · cases ended

/-- The instructions of a finished text have nothing that is not shown. -/
theorem shown_of_assembled {passes : Passes} {source : Source} {assembly : Assembly}
    (assembled : assemble passes source = .ok assembly) {instruction : Instruction}
    (member : instruction ∈ assembly.text) : instruction.shown = instruction := by
  obtain ⟨code, reached, written⟩ := code_of_assembled assembled
  rw [← Array.mem_toList_iff, written] at member
  rcases List.mem_append.mp member with early | final
  · exact Code.shown_of_mem_emit (.inl reached.proper.1) early
  · obtain rfl := List.mem_singleton.mp final
    rfl

theorem map_shown_of_assembled {passes : Passes} {source : Source} {assembly : Assembly}
    (assembled : assemble passes source = .ok assembly) :
    assembly.text.map Instruction.shown = assembly.text := by
  calc assembly.text.map Instruction.shown = assembly.text.map id :=
        Array.map_congr_left fun _ member => shown_of_assembled assembled member
    _ = assembly.text := Array.map_id _

/-- **A listing is faithful.** It tells how many instructions there are, the opcode of each, and the
operands that it shows; those of a finished text have no others, so its listing tells the text. -/
theorem listing_faithful :
    (∀ first second : Text, listing first = listing second ↔ first.ShowsAlike second) ∧
      (∀ (passes : Passes) (source : Source) (assembly : Assembly),
        assemble passes source = .ok assembly →
          ∀ instruction ∈ assembly.text, instruction.ShowsAll) ∧
      ∀ (passes others : Passes) (source other : Source) (assembly another : Assembly),
        assemble passes source = .ok assembly → assemble others other = .ok another →
          listing assembly.text = listing another.text → assembly.text = another.text := by
  refine ⟨fun _ _ => ⟨showsAlike_of_listing_eq, listing_eq_of_showsAlike⟩, ?_, ?_⟩
  · intro passes source assembly assembled instruction member
    exact Instruction.showsAll_of_shown_eq (shown_of_assembled assembled member)
  · intro passes others source other assembly another assembled also same
    have shown := (showsAlike_of_listing_eq same).map_shown
    rwa [map_shown_of_assembled assembled, map_shown_of_assembled also] at shown

/-- Two loops that clear their cell in different ways. -/
theorem clearing_listing_faithful :
    let source : Source := ['+', '[', '-', ']'].map Char.toUInt8
    let other : Source := ['+', '[', '+', '+', '+', ']'].map Char.toUInt8
    ∃ assembly another, assemble Passes.all source = .ok assembly ∧
      assemble (Passes.ofList [.reset]) other = .ok another ∧
        listing assembly.text = "0  Addition(1)\n1  Reset(1, 0)\n2  Stop\n" ∧
          listing another.text = listing assembly.text ∧ assembly.text = another.text := by
  intro source other
  have first : (assemble Passes.all source).toOption.map (fun assembly => listing assembly.text) =
      some "0  Addition(1)\n1  Reset(1, 0)\n2  Stop\n" := by
    decide +kernel
  have second : (assemble (Passes.ofList [.reset]) other).toOption.map
      (fun assembly => listing assembly.text) = some "0  Addition(1)\n1  Reset(1, 0)\n2  Stop\n" := by
    decide +kernel
  obtain ⟨assembly, here, listed⟩ := Option.map_eq_some_iff.mp first
  obtain ⟨another, there, also⟩ := Option.map_eq_some_iff.mp second
  have assembled := toOption_eq_some.mp here
  have too := toOption_eq_some.mp there
  exact ⟨assembly, another, assembled, too, listed, also.trans listed.symm,
    listing_faithful.2.2 _ _ _ _ _ _ assembled too (listed.trans also.symm)⟩

end TapeMachine
