/-
**Visiting a region.**

A run that enters a region goes through it from left to right, over the regions inside of it, and leaves
it behind its end, unless an index leaves its range on the way.

* `Text.Encloses`, `Text.Innermost`: the positions in a region, and in no other inside of it;
* `Visit`: where the head, the register and the stack are since a region was entered, and `Left`, where
  they are when it is left;
* `Crossing`: getting from one run to another by way of certain runs;
* `crossing_of_visit`: every visit crosses its region;
* `crossing_of_enter`: so does every run that enters a region.
-/

import TapeMachine.Proofs.Behavior.Reaches
import TapeMachine.Proofs.Regions.Level

namespace TapeMachine

/-! ### Positions in regions -/

namespace Text

/-- The region that begins at `start` has the position in it. -/
structure Encloses (text : Text) (start : Nat) (region : Instruction) (position : Nat) : Prop where
  begins : text.RegionAt start region
  after : start < position
  upto : position ≤ region.link

/-- No other region in it has the position too. -/
structure Innermost (text : Text) (start : Nat) (region : Instruction) (position : Nat) : Prop where
  encloses : text.Encloses start region position
  last : ∀ other outer, text.Encloses other outer position → other ≤ start

section Positions

variable {text : Text} (wellFormed : text.WellFormed) {start position : Nat}
  {region inner instruction : Instruction}

include wellFormed

/-- A region on the stack ends with a `pop`. -/
theorem RegionAt.pair (begins : text.RegionAt start region) (opcode : region.opcode = .push) :
    text.Pair start region.link ∧ ∃ closing, text[region.link]? = some closing ∧
      closing.opcode = .pop := by
  have pair := (wellFormed.paired _ _ begins.found).1 (by simp [opcode])
  obtain ⟨-, opening, closing, first, last, opcodes, -⟩ := id pair
  obtain rfl := Option.some.inj (begins.found.symm.trans first)
  refine ⟨pair, closing, last, ?_⟩
  rcases opcodes with ⟨loop, -⟩ | ⟨-, pop⟩
  · rw [opcode] at loop
    cases loop
  · exact pop

/-- There is always something behind a region. -/
theorem RegionAt.succ_link_lt (begins : text.RegionAt start region) :
    start ≤ region.link ∧ region.link + 1 < text.size := by
  rcases begins.opcode with opcode | opcode
  · obtain ⟨pair, closing, last, pop⟩ := begins.pair wellFormed opcode
    exact ⟨Nat.le_of_lt pair.order, wellFormed.succ_lt_size last (by simp [pop])⟩
  · obtain ⟨order, inside, -⟩ := wellFormed.fast _ _ begins.found opcode
    exact ⟨order, inside⟩

/-- What stands in a region. -/
theorem Encloses.opcode (encloses : text.Encloses start region position)
    (found : text[position]? = some instruction) : instruction.opcode ∈ Opcode.regional ∨
      region.opcode = .push ∧ (instruction.opcode = .push ∨ instruction.opcode = .pop) := by
  obtain ⟨begins, after, upto⟩ := encloses
  rcases begins.opcode with opcode | opcode
  · obtain ⟨-, closing, last, pop⟩ := begins.pair wellFormed opcode
    by_cases ended : position = region.link
    · subst ended
      obtain rfl := Option.some.inj (last.symm.trans found)
      exact .inr ⟨opcode, .inr pop⟩
    · have held := wellFormed.stacked _ _ begins.found opcode position instruction after (by omega) found
      rcases List.mem_append.mp held with regional | other
      · exact .inl regional
      · simp only [List.mem_cons, List.not_mem_nil, or_false] at other
        exact .inr ⟨opcode, other⟩
  · exact .inl ((wellFormed.fast _ _ begins.found opcode).2.2 position instruction after upto found)

/-- A region in another one is on the stack, and so is that one. -/
theorem Encloses.stacked (encloses : text.Encloses start region position)
    (nested : text.RegionAt position inner) : region.opcode = .push ∧ inner.opcode = .push := by
  have held := encloses.opcode wellFormed nested.found
  rcases nested.opcode with opcode | opcode <;> rw [opcode] at held <;>
    simp_all [Opcode.regional]

/-- The region ends inside of the other one. -/
theorem Encloses.link_lt (encloses : text.Encloses start region position)
    (nested : text.RegionAt position inner) : position < inner.link ∧ inner.link < region.link := by
  obtain ⟨outer, stacked⟩ := encloses.stacked wellFormed nested
  obtain ⟨around, closing, last, pop⟩ := encloses.begins.pair wellFormed outer
  obtain ⟨inside, -⟩ := nested.pair wellFormed stacked
  have before : position ≠ region.link := by
    rintro rfl
    obtain rfl := Option.some.inj (last.symm.trans nested.found)
    rw [pop] at stacked
    cases stacked
  have upto := encloses.upto
  exact ⟨inside.order, wellFormed.nested _ _ _ _ around inside encloses.after (by omega)⟩

/-- What is behind a region is in no other regions than that region. -/
theorem Encloses.of_behind (encloses : text.Encloses start region (inner.link + 1))
    (nested : text.RegionAt position inner) : text.Encloses start region position := by
  obtain ⟨begins, after, upto⟩ := encloses
  have order := (nested.succ_link_lt wellFormed).1
  refine ⟨begins, Nat.lt_of_not_le fun late => ?_, by omega⟩
  rcases Nat.eq_or_lt_of_le late with same | inside
  · subst same
    obtain rfl := Option.some.inj (nested.found.symm.trans begins.found)
    omega
  · have deep : text.Encloses position inner start := ⟨nested, inside, by omega⟩
    have ended := (deep.link_lt wellFormed begins).2
    omega

/-- There are no loops in a region. -/
theorem RegionAt.opcode_ne (begins : text.RegionAt start region) (after : start ≤ position)
    (upto : position ≤ region.link) (found : text[position]? = some instruction) :
    instruction.opcode ≠ .loopStart ∧ instruction.opcode ≠ .loopEnd := by
  rcases Nat.eq_or_lt_of_le after with same | inside
  · subst same
    obtain rfl := Option.some.inj (begins.found.symm.trans found)
    rcases begins.opcode with opcode | opcode <;> simp [opcode]
  · have encloses : text.Encloses start region position := ⟨begins, inside, upto⟩
    rcases encloses.opcode wellFormed found with plain | ⟨-, opcode | opcode⟩
    · constructor <;> intro opcode <;> simp [opcode, Opcode.regional] at plain
    · simp [opcode]
    · simp [opcode]

omit wellFormed in
theorem RegionAt.innermost (begins : text.RegionAt start region) (upto : start + 1 ≤ region.link) :
    text.Innermost start region (start + 1) :=
  ⟨⟨begins, Nat.lt_succ_self _, upto⟩, fun _ _ encloses => Nat.le_of_lt_succ encloses.after⟩

omit wellFormed in
/-- Behind an instruction that is no region. -/
theorem Innermost.succ (innermost : text.Innermost start region position)
    (found : text[position]? = some instruction) (plain : instruction.opcode ∈ Opcode.regional)
    (upto : position + 1 ≤ region.link) : text.Innermost start region (position + 1) := by
  obtain ⟨⟨begins, after, -⟩, last⟩ := innermost
  refine ⟨⟨begins, Nat.lt_succ_of_lt after, upto⟩, fun other outer encloses => ?_⟩
  have behind := encloses.upto
  have before := encloses.after
  by_cases here : other = position
  · subst here
    obtain rfl := Option.some.inj (found.symm.trans encloses.begins.found)
    rcases encloses.begins.opcode with opcode | opcode <;> rw [opcode] at plain <;>
      simp [Opcode.regional] at plain
  · exact last other outer ⟨encloses.begins, by omega, by omega⟩

/-- Behind a region. -/
theorem Innermost.beyond (innermost : text.Innermost start region position)
    (nested : text.RegionAt position inner) : text.Innermost start region (inner.link + 1) := by
  obtain ⟨encloses, last⟩ := innermost
  obtain ⟨order, within⟩ := encloses.link_lt wellFormed nested
  have after := encloses.after
  exact ⟨⟨encloses.begins, by omega, within⟩, fun other outer around =>
    last other outer (around.of_behind wellFormed nested)⟩

/-- The `pop` of a region. -/
theorem Innermost.link_eq (innermost : text.Innermost start region position)
    (found : text[position]? = some instruction) (pop : instruction.opcode = .pop) :
    region.opcode = .push ∧ position = region.link := by
  obtain ⟨encloses, last⟩ := innermost
  have stacked : region.opcode = .push := by
    refine ((encloses.opcode wellFormed found).resolve_left ?_).1
    simp [pop, Opcode.regional]
  have pair := (wellFormed.paired _ _ found).2 (by simp [pop])
  obtain ⟨order, opening, closing, first, ended, opcodes, link, -⟩ := id pair
  obtain rfl := Option.some.inj (found.symm.trans ended)
  have opcode : opening.opcode = .push := by
    rcases opcodes with ⟨-, loop⟩ | ⟨push, -⟩
    · rw [pop] at loop
      cases loop
    · exact push
  have own := last _ _ ⟨⟨first, .inl opcode⟩, order, Nat.le_of_eq link.symm⟩
  refine ⟨stacked, ?_⟩
  by_cases same : instruction.link = start
  · rw [same] at first
    obtain rfl := Option.some.inj (encloses.begins.found.symm.trans first)
    exact link.symm
  · have around := (encloses.begins.pair wellFormed stacked).1
    have crossed := wellFormed.nested _ _ _ _ pair around (by omega) encloses.after
    have upto := encloses.upto
    omega

end Positions

end Text

/-! ### Getting from one run to another -/

/-- The run gets to one that is `after`, by way of runs that are `inside`, unless an index leaves its
range on the way. -/
inductive Crossing (text : Text) (inside after : Run → Prop) : Run → Prop where
  | arrived {now : Run} (there : now.machine.position < text.size) (holds : after now) :
      Crossing text inside after now
  | lost {now last : Run} {instruction : Instruction} (holds : inside now)
      (found : text[now.machine.position]? = some instruction)
      (performed : Run.perform now.terminal (now.machine.step instruction) = .ended .overflow last) :
      Crossing text inside after now
  | step {now next : Run} {instruction : Instruction} (holds : inside now)
      (found : text[now.machine.position]? = some instruction)
      (performed : Run.perform now.terminal (now.machine.step instruction) = .running next)
      (later : Crossing text inside after next) : Crossing text inside after now

namespace Crossing

variable {text : Text} {inside wider middle after : Run → Prop} {now : Run}

theorem imp (crossing : Crossing text inside after now) (weaker : ∀ run, inside run → wider run) :
    Crossing text wider after now := by
  induction crossing with
  | arrived there holds => exact .arrived there holds
  | lost holds found performed => exact .lost (weaker _ holds) found performed
  | step holds found performed _ ih => exact .step (weaker _ holds) found performed ih

theorem andThen (crossing : Crossing text inside middle now)
    (behind : ∀ next, middle next → Crossing text inside after next) :
    Crossing text inside after now := by
  induction crossing with
  | arrived _ holds => exact behind _ holds
  | lost holds found performed => exact .lost holds found performed
  | step holds found performed _ ih => exact .step holds found performed ih

/-- The number of instructions it takes. -/
theorem exists_advance (crossing : Crossing text inside after now) : ∃ steps,
    (∀ count < steps, ∃ between, Run.advance text count now = .running between ∧ inside between) ∧
      ((∃ last, Run.advance text steps now = .ended .overflow last) ∨
        ∃ last, Run.advance text steps now = .running last ∧ after last) := by
  induction crossing with
  | @arrived now there holds =>
    refine ⟨0, by simp, .inr ⟨now, ?_, holds⟩⟩
    exact Run.advance_zero_of_getElem? (Array.getElem?_eq_getElem there)
  | @lost now last _ holds found performed =>
    refine ⟨1, fun count less => ⟨now, ?_, holds⟩, .inl ⟨last, ?_⟩⟩
    · rw [Nat.lt_one_iff.mp less, Run.advance_zero_of_getElem? found]
    · exact Run.advance_succ_of_ended found performed 0
  | @step now next _ holds found performed _ ih =>
    obtain ⟨steps, way, ended⟩ := ih
    have more := Run.advance_succ_of_running found performed
    refine ⟨steps + 1, fun count less => ?_, by rwa [more]⟩
    cases count with
    | zero => exact ⟨now, Run.advance_zero_of_getElem? found, holds⟩
    | succ count =>
      rw [more]
      exact way count (Nat.lt_of_succ_lt_succ less)

end Crossing

/-! ### Visits -/

/-- The run stands at a position in the region, and not in another one inside of it, since the region was
entered from `entry`. -/
structure Visit (text : Text) (start : Nat) (region : Instruction) (entry now : Run) : Prop where
  index : now.machine.head.index =
    entry.machine.head.index + (text.level now.machine.position - text.level start)
  register : now.machine.register = entry.cell
  stack : now.machine.stack =
    if region.opcode = .push then entry.cell :: entry.machine.stack else entry.machine.stack
  counter : region.opcode = .pushFast → now.machine.head.tape.get entry.machine.head.index = 0

/-- The run has left the region that was entered from `entry`: the head is back on the counter, which is
zero, the stack is as it was, and the register is that of the region around. -/
structure Left (region : Instruction) (entry now : Run) : Prop where
  position : now.machine.position = region.link + 1
  index : now.machine.head.index = entry.machine.head.index
  cell : now.cell = 0
  stack : now.machine.stack = entry.machine.stack
  register : region.opcode = .push → entry.cell ≠ 0 →
    now.machine.register = entry.machine.stack.headD 0

/-- The run is on its way through the region that was entered from `entry`. -/
structure OnWay (text : Text) (start : Nat) (region : Instruction) (entry now : Run) : Prop where
  after : start < now.machine.position
  upto : now.machine.position ≤ region.link
  visit : text.Innermost start region now.machine.position → Visit text start region entry now

section Visits

variable {text : Text} {start : Nat} {region instruction : Instruction} {entry now next : Run}

/-- A region whose cell is zero is passed over. -/
theorem perform_of_zero (begins : text.RegionAt start region) (zero : now.cell = 0) :
    Run.perform now.terminal (now.machine.step region) = .running (now.hop (region.link + 1)) ∨
      Run.perform now.terminal (now.machine.step region) = .ended .overflow now := by
  rcases now with ⟨⟨head, position, register, stack⟩, terminal⟩
  replace zero : head.read = 0 := zero
  rcases begins.opcode with opcode | opcode
  all_goals
    simp only [Machine.step, opcode, zero, if_true, Machine.jump]
    split
    · exact .inl rfl
    · exact .inr rfl

/-- A region whose cell is not zero is entered. -/
theorem perform_of_marked (begins : text.RegionAt start region) (marked : now.cell ≠ 0) :
    Run.perform now.terminal (now.machine.step region) =
      .running (Behavior.enter (region.opcode = .pushFast) now) := by
  rcases now with ⟨⟨head, position, register, stack⟩, terminal⟩
  replace marked : head.read ≠ 0 := marked
  rcases begins.opcode with opcode | opcode <;>
    simp [Machine.step, opcode, marked, Run.perform, Behavior.enter]

/-- Entering a region begins a visit. -/
theorem visit_enter (begins : text.RegionAt start region) (here : entry.machine.position = start) :
    Visit text start region entry (Behavior.enter (region.opcode = .pushFast) entry) ∧
      (Behavior.enter (region.opcode = .pushFast) entry).machine.position = start + 1 := by
  have level := Text.level_succ begins.found
  rcases entry with ⟨⟨head, position, register, stack⟩, terminal⟩
  obtain rfl : position = start := here
  rcases begins.opcode with opcode | opcode
  all_goals
    have still : region.shift = 0 := by simp [Instruction.shift, opcode]
    rw [still, Int.add_zero] at level
  · refine ⟨⟨?_, ?_, ?_, ?_⟩, ?_⟩ <;> simp [Behavior.enter, opcode, level, Run.cell]
  · refine ⟨⟨?_, ?_, ?_, fun _ => ?_⟩, ?_⟩
    · simp [Behavior.enter, opcode, level]
    · simp [Behavior.enter, opcode, Run.cell]
    · simp [Behavior.enter, opcode]
    · simp only [Behavior.enter, opcode, decide_true, if_true]
      exact Head.get_write_self head 0
    · simp [Behavior.enter, opcode]

/-- One instruction of a region, other than the ends of regions. -/
theorem Visit.step (level : text.Level) (visit : Visit text start region entry now)
    (encloses : text.Encloses start region now.machine.position)
    (found : text[now.machine.position]? = some instruction)
    (plain : instruction.opcode ∈ Opcode.regional) :
    (∃ last, Run.perform now.terminal (now.machine.step instruction) = .ended .overflow last) ∨
      ∃ next, Run.perform now.terminal (now.machine.step instruction) = .running next ∧
        next.machine.position = now.machine.position + 1 ∧ Visit text start region entry next := by
  have straight : instruction.opcode.IsStraight true := by
    generalize instruction.opcode = opcode at plain
    revert plain
    cases opcode <;> decide
  have unlinked : instruction.opcode.isBoundary = false := by
    generalize instruction.opcode = opcode at plain
    revert plain
    cases opcode <;> decide
  have sound := level.sound instruction (Array.mem_of_getElem? found) unlinked
  have shown : now.Shows now.sight := ⟨fun _ => rfl, rfl⟩
  by_cases inside : ∀ cell ∈ instruction.visits now.sight, Tape.IsIndex cell
  · obtain ⟨next, performed, shows, -, register, stack, -⟩ :=
      Instruction.perform_of_isIndex straight sound shown (fun _ => rfl) inside
    have behind := Run.position_of_perform unlinked performed
    have moved : next.machine.head.index = now.machine.head.index + instruction.shift :=
      shows.index.trans (Instruction.index_sweep straight _ _)
    refine .inr ⟨next, performed, behind, ?_, register.trans visit.register, stack.trans visit.stack, ?_⟩
    · rw [moved, visit.index, behind, Text.level_succ found]
      omega
    · intro fast
      have alone := (level.regions _ _ encloses.begins).alone fast _ _ encloses.after encloses.upto found
      have same : (instruction.sweep now.machine.register now.sight).cells entry.machine.head.index =
          now.sight.cells entry.machine.head.index := by
        refine Instruction.cells_sweep_of_idle straight ?_
        have distance : entry.machine.head.index - now.sight.index =
            text.level start - text.level now.machine.position := by
          have index := visit.index
          show entry.machine.head.index - now.machine.head.index = _
          omega
        rwa [distance]
      exact (shows.cells _).trans (same.trans (visit.counter fast))
  · obtain ⟨last, performed, -⟩ := Instruction.perform_of_not_isIndex straight sound shown inside
    exact .inl ⟨last, performed⟩

/-- Behind the last instruction of a region without the stack, the region is left. -/
theorem Visit.left_fast (level : text.Level) (visit : Visit text start region entry now)
    (begins : text.RegionAt start region) (fast : region.opcode = .pushFast)
    (behind : now.machine.position = region.link + 1) : Left region entry now := by
  have index : now.machine.head.index = entry.machine.head.index := by
    rw [visit.index, behind, (level.regions _ _ begins).back]
    omega
  refine ⟨behind, index, ?_, ?_, ?_⟩
  · rw [Run.cell_eq_get, index]
    exact visit.counter fast
  · rw [visit.stack, fast]
    rfl
  · rintro opcode
    rw [opcode] at fast
    cases fast

/-- Behind its `pop`, a region on the stack is left. -/
theorem Visit.left_pop (level : text.Level) (visit : Visit text start region entry now)
    (begins : text.RegionAt start region) (opcode : region.opcode = .push)
    (ended : now.machine.position = region.link)
    (found : text[now.machine.position]? = some instruction) (pop : instruction.opcode = .pop) :
    ∃ next, Run.perform now.terminal (now.machine.step instruction) = .running next ∧
      Left region entry next := by
  have still : instruction.shift = 0 := by simp [Instruction.shift, pop]
  have behind := Text.level_succ found
  rw [ended, (level.regions _ _ begins).back, still, Int.add_zero] at behind
  obtain ⟨index, -, stack, -⟩ := visit
  rw [ended, ← behind] at index
  rcases now with ⟨⟨head, position, register, held⟩, terminal⟩
  obtain rfl : position = region.link := ended
  simp only [opcode, if_true] at stack
  subst stack
  refine ⟨⟨⟨head.write 0, region.link + 1, entry.machine.stack.headD 0, entry.machine.stack⟩, terminal⟩,
    ?_, ⟨rfl, ?_, Head.read_write head 0, rfl, fun _ _ => rfl⟩⟩
  · simp only [Machine.step, pop, List.tail_cons]
    rfl
  · refine Eq.trans (Head.index_write head 0) (index.trans ?_)
    rw [Int.sub_self, Int.add_zero]

/-- Over a region inside, or behind it, the visit goes on. -/
theorem Visit.beyond {inner : Instruction} (level : text.Level) (visit : Visit text start region entry now)
    (stacked : region.opcode = .push) (nested : text.RegionAt now.machine.position inner)
    (position : next.machine.position = inner.link + 1)
    (index : next.machine.head.index = now.machine.head.index)
    (register : next.machine.register = entry.cell) (stack : next.machine.stack = now.machine.stack) :
    Visit text start region entry next := by
  refine ⟨?_, register, stack.trans visit.stack, fun fast => ?_⟩
  · rw [index, visit.index, position, (level.regions _ _ nested).back]
  · rw [stacked] at fast
    cases fast

/-- Behind an instruction of the region, other than the ends of regions, the visit goes on, or the region
is left. -/
theorem Visit.step_innermost (wellFormed : text.WellFormed) (level : text.Level)
    (visit : Visit text start region entry now)
    (innermost : text.Innermost start region now.machine.position)
    (found : text[now.machine.position]? = some instruction)
    (plain : instruction.opcode ∈ Opcode.regional) :
    (∃ last, Run.perform now.terminal (now.machine.step instruction) = .ended .overflow last) ∨
      ∃ next, Run.perform now.terminal (now.machine.step instruction) = .running next ∧
        (next.machine.position = now.machine.position + 1 ∧
            text.Innermost start region next.machine.position ∧ Visit text start region entry next ∨
          Left region entry next) := by
  obtain ⟨begins, after, upto⟩ := innermost.encloses
  rcases visit.step level innermost.encloses found plain with lost | ⟨next, performed, place, goes⟩
  · exact .inl lost
  refine .inr ⟨next, performed, ?_⟩
  by_cases ended : now.machine.position + 1 ≤ region.link
  · have beyond := innermost.succ found plain ended
    rw [← place] at beyond
    exact .inl ⟨place, beyond, goes⟩
  · -- A region on the stack would end with its `pop`.
    have fast : region.opcode = .pushFast := by
      refine begins.opcode.resolve_left fun stacked => ?_
      obtain ⟨-, closing, last, pop⟩ := begins.pair wellFormed stacked
      rw [show region.link = now.machine.position by omega] at last
      obtain rfl := Option.some.inj (found.symm.trans last)
      rw [pop] at plain
      simp [Opcode.regional] at plain
    exact .inr (goes.left_fast level begins fast (by omega))

/-- **Every visit crosses its region.** The induction is on the instructions behind the run; a region
inside of the region is crossed first, and then the rest. -/
theorem crossing_of_visit (wellFormed : text.WellFormed) (level : text.Level)
    (innermost : text.Innermost start region now.machine.position)
    (visit : Visit text start region entry now) :
    Crossing text (OnWay text start region entry) (Left region entry) now := by
  generalize distance : text.size - now.machine.position = left
  induction left using Nat.strongRecOn generalizing start region entry now with
  | ind left ih =>
    obtain ⟨encloses, -⟩ := id innermost
    obtain ⟨begins, after, upto⟩ := id encloses
    have behind := (begins.succ_link_lt wellFormed).2
    have onWay : OnWay text start region entry now := ⟨after, upto, fun _ => visit⟩
    have found : text[now.machine.position]? = some text[now.machine.position] :=
      Array.getElem?_eq_getElem (by omega)
    generalize text[now.machine.position] = instruction at found
    rcases encloses.opcode wellFormed found with plain | ⟨stacked, opcode | pop⟩
    · rcases visit.step_innermost wellFormed level innermost found plain with
        ⟨last, lost⟩ | ⟨next, performed, ⟨place, beyond, goes⟩ | gone⟩
      · exact .lost onWay found lost
      · exact .step onWay found performed (ih _ (by omega) beyond goes rfl)
      · exact .step onWay found performed (.arrived (gone.position ▸ behind) gone)
    · have nested : text.RegionAt now.machine.position instruction := ⟨found, .inl opcode⟩
      obtain ⟨order, within⟩ := encloses.link_lt wellFormed nested
      have beyond := innermost.beyond wellFormed nested
      by_cases zero : now.cell = 0
      · rcases perform_of_zero nested zero with performed | performed
        · refine .step onWay found performed ?_
          refine ih (text.size - (instruction.link + 1)) (by omega) beyond ?_ rfl
          exact visit.beyond level stacked nested rfl rfl visit.register rfl
        · exact .lost onWay found performed
      · obtain ⟨entered, place⟩ := visit_enter nested rfl
        refine .step onWay found (perform_of_marked nested zero) ?_
        have inside := nested.innermost (Nat.succ_le_of_lt order)
        rw [← place] at inside
        have crossing := ih _ (by omega) inside entered rfl
        refine (crossing.imp fun run way => ?_).andThen fun next gone => ?_
        · obtain ⟨later, early, -⟩ := way
          refine ⟨by omega, by omega, fun own => ?_⟩
          have deep := own.last _ _ ⟨nested, later, early⟩
          omega
        · have register : next.machine.register = entry.cell := by
            rw [gone.register opcode zero, visit.stack, if_pos stacked]
            rfl
          have goes := visit.beyond level stacked nested gone.position gone.index register gone.stack
          rw [← gone.position] at beyond
          exact ih _ (by rw [gone.position]; omega) beyond goes rfl
    · obtain ⟨opcode, ended⟩ := innermost.link_eq wellFormed found pop
      obtain ⟨next, performed, gone⟩ := visit.left_pop level begins opcode ended found pop
      exact .step onWay found performed (.arrived (gone.position ▸ behind) gone)

/-- A run that enters a region crosses it. -/
theorem crossing_of_enter (wellFormed : text.WellFormed) (level : text.Level)
    (begins : text.RegionAt start region) (here : entry.machine.position = start) :
    Crossing text (OnWay text start region entry) (Left region entry)
      (Behavior.enter (region.opcode = .pushFast) entry) := by
  obtain ⟨visit, place⟩ := visit_enter begins here
  obtain ⟨order, behind⟩ := begins.succ_link_lt wellFormed
  by_cases inside : start + 1 ≤ region.link
  · have innermost := begins.innermost inside
    rw [← place] at innermost
    exact crossing_of_visit wellFormed level innermost visit
  · -- There is nothing in the region, so it has no `pop` either.
    have fast : region.opcode = .pushFast := by
      refine begins.opcode.resolve_left fun stacked => ?_
      have pair := (begins.pair wellFormed stacked).1
      have := pair.order
      omega
    have last : (Behavior.enter (region.opcode = .pushFast) entry).machine.position =
        region.link + 1 := by
      rw [place]
      omega
    exact .arrived (last ▸ behind) (visit.left_fast level begins fast last)

end Visits

end TapeMachine
