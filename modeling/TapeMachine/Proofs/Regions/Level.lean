/-
**Regions bring the head back.**

How far the instructions of a region move the head can be told from the text, because there are no loops
in regions and no search.

* `Text.level`: where the instructions before a position would leave the head, one after the other;
* `Text.RegionAt`: an instruction that begins a region;
* `Text.Level`: every region brings the head back to its counter, and a region without the stack leaves
  its counter alone;
* `level_of_emit`: so it is in the finished text of every code that is made as drafts are.
-/

import TapeMachine.Proofs.Assembly.WellFormed

namespace TapeMachine

namespace Text

/-- Where the instructions before the position would leave the head, if each of them was done once. -/
def level (text : Text) : Nat → Int
  | 0 => 0
  | position + 1 => text.level position + text[position]?.elim 0 Instruction.shift

theorem level_succ {text : Text} {position : Nat} {instruction : Instruction}
    (found : text[position]? = some instruction) :
    text.level (position + 1) = text.level position + instruction.shift := by
  rw [level, found]
  rfl

/-- A region begins at the position. -/
structure RegionAt (text : Text) (start : Nat) (region : Instruction) : Prop where
  found : text[start]? = some region
  opcode : region.opcode = .push ∨ region.opcode = .pushFast

theorem RegionAt.isBoundary {text : Text} {start : Nat} {region : Instruction}
    (begins : text.RegionAt start region) : region.opcode.isBoundary = true := by
  rcases begins.opcode with opcode | opcode <;> rw [opcode] <;> rfl

theorem RegionAt.ne_pop {text : Text} {start : Nat} {region : Instruction}
    (begins : text.RegionAt start region) : region.opcode ≠ .pop := by
  rcases begins.opcode with opcode | opcode <;> simp [opcode]

/-- What regions rely on: the head comes back to the counter, and in a region without the stack nothing
works on the counter. -/
structure LevelAt (text : Text) (start : Nat) (region : Instruction) : Prop where
  back : text.level (region.link + 1) = text.level start
  alone : region.opcode = .pushFast → ∀ position (instruction : Instruction), start < position →
    position ≤ region.link → text[position]? = some instruction →
      ¬ instruction.Works (text.level start - text.level position)

/-- All regions of the text keep their level, and what stands in them has its operands. -/
structure Level (text : Text) : Prop where
  regions : ∀ start region, text.RegionAt start region → text.LevelAt start region
  sound : ∀ instruction ∈ text, instruction.opcode.isBoundary = false → instruction.Sound

end Text

namespace Code

variable {code : Code} {text : Text} {base : Nat}

/-- Where a region stands in a stretch of text: it begins behind the code before it, then comes its body,
and it ends with the stretch. -/
theorem region_of_carries {before body : Code} {fast : Bool}
    (carried : Carries text base ((before.region fast body).emit false base)) :
    let start := base + before.size false
    ∃ region : Instruction, text[start]? = some region ∧
      region.opcode = (if fast then .pushFast else .push) ∧
      region.link + 1 = base + (before.region fast body).size false ∧
      Carries text (start + 1) (body.emit false (start + 1)) ∧
      text.level (start + 1) = text.level start ∧
      text.level (region.link + 1) = text.level (start + 1 + body.size false) := by
  intro start
  obtain ⟨-, opening, inner, back⟩ := carries_region carried
  have first := Text.level_succ opening
  have still : ∀ link, (regionStart fast link).shift = 0 := fun link => by cases fast <;> rfl
  rw [still, Int.add_zero] at first
  refine ⟨_, opening, rfl, ?_, inner, first, ?_⟩
  · cases fast <;> simp [regionStart, regionEnd, size] <;> omega
  · cases fast with
    | true => exact congrArg text.level (by simp [regionStart, regionEnd]; omega)
    | false =>
      have last : text.level (start + 1 + body.size false + 1) =
          text.level (start + 1 + body.size false) + 0 := Text.level_succ back.getElem?
      rw [Int.add_zero] at last
      exact Eq.trans (congrArg text.level (by simp [regionStart, regionEnd]; omega)) last

/-- The level behind a straight code. -/
theorem level_of_straight {inner : Bool} (straight : code.Straight inner)
    (carried : Carries text base (code.emit false base)) :
    text.level (base + code.size false) = text.level base + code.shift := by
  induction code generalizing inner base with
  | empty => exact (Int.add_zero _).symm
  | plain before last ih =>
    obtain ⟨early, here⟩ := carries_plain carried
    rw [size, ← Nat.add_assoc, Text.level_succ here, ih straight.1 early, shift, Int.add_assoc]
  | loop before body _ _ => exact straight.elim
  | region before fast body ihBefore ihBody =>
    obtain ⟨region, -, -, ended, inside, first, last⟩ := region_of_carries carried
    rw [← ended, last, ihBody straight.2.2.2.1 inside, first,
      ihBefore straight.1 carried.append_left, shift, Int.add_assoc]

/-- What works on a cell in a code without regions. -/
theorem touches_of_works {inner : Bool} (straight : code.Straight inner) (leaf : code.Leaf)
    (carried : Carries text base (code.emit false base)) {position : Nat} (lower : base ≤ position)
    (upper : position < base + code.size false) {instruction : Instruction}
    (found : text[position]? = some instruction) {cell : Int}
    (works : instruction.Works (cell + text.level base - text.level position)) :
    code.Touches cell := by
  induction code generalizing base with
  | empty => exact absurd upper (Nat.not_lt.mpr lower)
  | plain before last ih =>
    rw [touches_plain]
    by_cases early : position < base + before.size false
    · exact .inl (ih straight.1 leaf carried.append_left lower early works)
    · obtain rfl := (place_plain carried upper found).resolve_left early
      have level := level_of_straight straight.1 carried.append_left
      simp only [size] at upper
      rw [show base + before.size false = position by omega] at level
      refine .inr ?_
      rwa [show cell - before.shift = cell + text.level base - text.level position by omega]
  | loop before body _ _ => exact straight.elim
  | region before fast body _ _ => exact leaf.elim

/-- The region behind a code keeps its level. -/
theorem levelAt_of_region {before body : Code} {fast : Bool} (leaf : fast = true → body.Leaf)
    (straight : body.Straight true) (back : body.shift = 0) (alone : ¬ body.Touches 0)
    (carried : Carries text base ((before.region fast body).emit false base)) {region : Instruction}
    (begins : text.RegionAt (base + before.size false) region) :
    text.LevelAt (base + before.size false) region := by
  obtain ⟨first, found, opcode, ended, inside, entered, last⟩ := region_of_carries carried
  have level := level_of_straight straight inside
  obtain rfl := Option.some.inj (found.symm.trans begins.found)
  refine ⟨by rw [last, level, back, entered, Int.add_zero], fun entry place instruction after upto there
    works => alone ?_⟩
  have quick : fast = true := by
    cases fast with
    | true => rfl
    | false => cases opcode.symm.trans entry
  subst quick
  have extent : base + (before.region true body).size false =
      base + before.size false + 1 + body.size false := by
    simp [size, regionEnd]
    omega
  refine touches_of_works straight (leaf rfl) inside after (by omega) there ?_
  rwa [entered, Int.zero_add]

/-- The regions in a straight code keep their levels. -/
theorem levelAt_of_straight {inner : Bool} (straight : code.Straight inner)
    (carried : Carries text base (code.emit false base)) {position : Nat} (lower : base ≤ position)
    (upper : position < base + code.size false) {region : Instruction}
    (begins : text.RegionAt position region) : text.LevelAt position region := by
  induction code generalizing inner base with
  | empty => exact absurd upper (Nat.not_lt.mpr lower)
  | plain before last ih =>
    rcases place_plain carried upper begins.found with early | rfl
    · exact ih straight.1 carried.append_left lower early
    · exact absurd (unlinked_of_straight straight).2 (by simp [begins.isBoundary])
  | loop before body _ _ => exact straight.elim
  | region before fast body ihBefore ihBody =>
    obtain ⟨outer, -, leaf, inside, back, alone⟩ := straight
    rcases place_region carried upper begins.found with early | ⟨rfl, -⟩ | ⟨stays, low, high⟩ | pop
    · exact ihBefore outer carried.append_left lower early
    · exact levelAt_of_region leaf inside back alone carried begins
    · exact ihBody inside stays low high
    · exact absurd pop begins.ne_pop

/-- The regions in a code that is made as drafts are keep their levels. -/
theorem levelAt_of_proper (proper : code.Proper) (carried : Carries text base (code.emit false base))
    {position : Nat} (lower : base ≤ position) (upper : position < base + code.size false)
    {region : Instruction} (begins : text.RegionAt position region) : text.LevelAt position region := by
  induction code generalizing base with
  | empty => exact absurd upper (Nat.not_lt.mpr lower)
  | plain before last ih =>
    rcases place_plain carried upper begins.found with early | rfl
    · exact ih proper.1 carried.append_left lower early
    · exact absurd (unlinked_of_proper proper).2 (by simp [begins.isBoundary])
  | loop before body ihBefore ihBody =>
    rcases place_loop carried upper begins.found with early | loop | ⟨place, inner, low, high⟩
    · exact ihBefore proper.1 carried.append_left lower early
    · rcases begins.opcode with opcode | opcode <;> simp [opcode] at loop
    · exact ihBody proper.2 inner low high
  | region before fast body ihBefore _ =>
    obtain ⟨outer, leaf, inside, back, alone⟩ := proper
    rcases place_region carried upper begins.found with early | ⟨rfl, -⟩ | ⟨inner, low, high⟩ | pop
    · exact ihBefore outer carried.append_left lower early
    · exact levelAt_of_region leaf inside back alone carried begins
    · exact levelAt_of_straight inside inner low high begins
    · exact absurd pop begins.ne_pop

end Code

/-- In the finished text of a code that is made as drafts are, regions keep their levels. -/
theorem level_of_emit {code : Code} (proper : code.Proper) {text : Text}
    (written : text.toList = code.emit false 0 ++ [.final]) : text.Level := by
  obtain ⟨carried, size, last⟩ := Code.carries_of_written written
  constructor
  · intro start region begins
    have inside := (Array.getElem?_eq_some_iff.mp begins.found).1
    have other : start ≠ code.size false := by
      rintro rfl
      obtain rfl := Option.some.inj (last.symm.trans begins.found)
      cases begins.isBoundary
    exact Code.levelAt_of_proper proper carried (Nat.zero_le _) (by omega) begins
  · intro instruction member unlinked
    rw [← Array.mem_toList_iff, written] at member
    rcases List.mem_append.mp member with early | final
    · rcases Code.stands_of_mem_emit proper early with ⟨-, sound⟩ | opcode
      · exact sound
      · simp only [List.mem_cons, List.not_mem_nil, or_false] at opcode
        rcases opcode with opcode | opcode | opcode | opcode | opcode <;>
          simp [opcode, Opcode.isBoundary, Opcode.operands] at unlinked
    · obtain rfl := List.mem_singleton.mp final
      constructor <;> simp [Instruction.final, Opcode.operands]

end TapeMachine
