/-
**What holds wherever a run gets to.**

Runs enter a region only at its beginning, so from what happens in a visit it can be told what holds at
every position that a run gets to.

* `Text.BehindZero`: the positions in front of which the cell is left at zero;
* `Text.Disciplined`: regions are left as they were entered, products use the counter of the innermost
  region, and the cell is zero where it is said to be;
* `enters_of_encloses`, `exists_entry`: a run in a region has entered it, and stayed there since;
* `onWay_of_advance`, `left_of_advance`: so it is on its way through the region, and leaves it at its
  end;
* `disciplined_of_assemble`: the text of every assembled source is disciplined.
-/

import TapeMachine.Proofs.Refinement.Closing
import TapeMachine.Proofs.Regions.Visit

namespace TapeMachine

/-! ### What is disciplined -/

/-- Behind a loop, or an instruction that clears its cell, or at the end of a region without the stack. -/
def Text.BehindZero (text : Text) (position : Nat) : Prop :=
  (∃ (before : Nat) (instruction : Instruction), position = before + 1 ∧
    text[before]? = some instruction ∧ (instruction.opcode ∈ [.loopEnd, .reset, .seek, .store, .pop] ∨
      instruction.opcode = .set ∧ instruction.value % 256 = 0)) ∨
  ∃ (start : Nat) (region : Instruction), text[start]? = some region ∧ region.opcode = .pushFast ∧
    position = region.link + 1

/-- What every run of the text keeps to. -/
structure Text.Disciplined (text : Text) : Prop where
  /-- A run at the beginning of a region, whatever it is, comes to the position behind the link by way of
  the region, unless an index leaves its range. The head and the stack are then as before, and the counter
  is zero. -/
  regions : ∀ (now : Run) (region : Instruction), text.RegionAt now.machine.position region →
    ∃ steps, 0 < steps ∧
      (∀ count, 0 < count → count < steps → ∃ between, Run.advance text count now = .running between ∧
        now.machine.position < between.machine.position ∧
        between.machine.position ≤ region.link) ∧
      ((∃ last, Run.advance text steps now = .ended .overflow last) ∨
        ∃ last, Run.advance text steps now = .running last ∧
          last.machine.position = region.link + 1 ∧
          last.machine.head.index = now.machine.head.index ∧ last.cell = 0 ∧
          last.machine.stack = now.machine.stack)
  /-- At a product, the innermost region was entered before and not left since, and the register is what
  its counter was then, which is not zero. -/
  products : ∀ (run now : Run) (count : Nat) (product : Instruction), run.machine.position = 0 →
    Run.advance text count run = .running now → text[now.machine.position]? = some product →
      product.opcode = .multiply → ∃ start region early entry,
        text.Innermost start region now.machine.position ∧ early < count ∧
        Run.advance text early run = .running entry ∧ entry.machine.position = start ∧
        entry.cell ≠ 0 ∧ now.machine.register = entry.cell ∧
        ∀ later, early < later → later ≤ count → ∃ between,
          Run.advance text later run = .running between ∧
          text.Encloses start region between.machine.position
  /-- The cell is zero wherever it was just left so. -/
  zeros : ∀ (run now : Run) (count : Nat), run.machine.position = 0 →
    Run.advance text count run = .running now → text.BehindZero now.machine.position → now.cell = 0

/-! ### Single steps of a run -/

namespace Run

variable {text : Text} {run now next : Run} {instruction : Instruction}

theorem eq_of_perform_jump {terminal : Terminal} {machine : Machine} {link : Nat}
    (performed : perform terminal (machine.jump link) = .running next) :
    next = ⟨{ machine with position := link + 1 }, terminal⟩ := by
  unfold Machine.jump at performed
  split at performed
  · cases performed
    rfl
  · cases performed

/-- A run goes on behind its instruction, unless its cell is zero, or it goes back in a loop. -/
theorem cell_of_jump (performed : perform run.terminal (run.machine.step instruction) = .running next) :
    next.machine.position = run.machine.position + 1 ∧ instruction.opcode ≠ .loopEnd ∨
      next.cell = 0 ∨
      instruction.opcode = .loopEnd ∧ next.machine.position = instruction.link + 1 := by
  by_cases jumps : instruction.opcode ∈ [.loopStart, .loopEnd, .push, .pushFast]
  · rcases run with ⟨⟨head, position, register, stack⟩, terminal⟩
    rcases instruction with ⟨opcode, value, offset, link⟩
    simp only [List.mem_cons, List.not_mem_nil, or_false] at jumps
    by_cases zero : head.read = 0
    · refine .inr (.inl ?_)
      rcases jumps with rfl | rfl | rfl | rfl <;>
        simp only [Machine.step, zero, ne_eq, not_true_eq_false, if_true, if_false] at performed
      · obtain rfl := eq_of_perform_jump performed
        exact zero
      · cases performed
        exact zero
      all_goals
        obtain rfl := eq_of_perform_jump performed
        exact zero
    · rcases jumps with rfl | rfl | rfl | rfl <;>
        simp only [Machine.step, zero, ne_eq, not_false_eq_true, if_true, if_false] at performed
      · cases performed
        exact .inl ⟨rfl, by simp⟩
      · obtain rfl := eq_of_perform_jump performed
        exact .inr (.inr ⟨rfl, rfl⟩)
      all_goals
        cases performed
        exact .inl ⟨rfl, by simp⟩
  · rcases position_of_perform_cases performed with behind | ⟨opcode, -⟩
    · exact .inl ⟨behind, fun ended => jumps (by simp [ended])⟩
    · exact absurd opcode jumps

end Run

section Reaching

variable {text : Text} (wellFormed : text.WellFormed) {start : Nat} {region instruction : Instruction}
  {run now next entry : Run}

include wellFormed

/-! ### Entering a region -/

/-- The beginning of a loop is linked to the end of one, and the other way round. -/
theorem opcode_of_link {position : Nat} (found : text[position]? = some instruction) :
    (instruction.opcode = .loopStart → ∃ closing, text[instruction.link]? = some closing ∧
        closing.opcode = .loopEnd) ∧
      (instruction.opcode = .loopEnd → ∃ opening, text[instruction.link]? = some opening ∧
        opening.opcode = .loopStart) := by
  obtain ⟨starts, stops⟩ := wellFormed.paired _ _ found
  refine ⟨fun opcode => ?_, fun opcode => ?_⟩
  · obtain ⟨-, opening, closing, first, last, opcodes, -⟩ := starts (by simp [opcode])
    obtain rfl := Option.some.inj (found.symm.trans first)
    rcases opcodes with ⟨-, ended⟩ | ⟨stacked, -⟩
    · exact ⟨closing, last, ended⟩
    · cases opcode.symm.trans stacked
  · obtain ⟨-, opening, closing, first, last, opcodes, -⟩ := stops (by simp [opcode])
    obtain rfl := Option.some.inj (found.symm.trans last)
    rcases opcodes with ⟨begun, -⟩ | ⟨-, stacked⟩
    · exact ⟨opening, first, begun⟩
    · cases opcode.symm.trans stacked

/-- A region is entered at its beginning only, and not from a zero cell. -/
theorem enters_of_encloses (found : text[now.machine.position]? = some instruction)
    (performed : Run.perform now.terminal (now.machine.step instruction) = .running next)
    (encloses : text.Encloses start region next.machine.position)
    (outside : ¬ text.Encloses start region now.machine.position) :
    now.machine.position = start ∧ now.cell ≠ 0 := by
  obtain ⟨begins, after, upto⟩ := id encloses
  rcases Run.position_of_perform_cases performed with behind | ⟨opcode, jumped⟩
  · have here : now.machine.position = start := by
      refine Nat.le_antisymm (Nat.le_of_not_lt fun late => outside ⟨begins, late, ?_⟩) ?_ <;> omega
    refine ⟨here, fun zero => ?_⟩
    rw [here] at found
    obtain rfl := Option.some.inj (begins.found.symm.trans found)
    rcases perform_of_zero begins zero with passed | lost
    · obtain rfl := Progress.running.inj (performed.symm.trans passed)
      simp only [Run.hop] at upto
      omega
    · cases performed.symm.trans lost
  · exfalso
    rw [jumped] at encloses after upto
    simp only [List.mem_cons, List.not_mem_nil, or_false] at opcode
    rcases opcode with opcode | opcode | opcode | opcode
    · obtain ⟨closing, last, ended⟩ := (opcode_of_link wellFormed found).1 opcode
      exact (begins.opcode_ne wellFormed (by omega) (by omega) last).2 ended
    · obtain ⟨opening, first, begun⟩ := (opcode_of_link wellFormed found).2 opcode
      exact (begins.opcode_ne wellFormed (by omega) (by omega) first).1 begun
    · exact outside (encloses.of_behind wellFormed ⟨found, .inl opcode⟩)
    · exact outside (encloses.of_behind wellFormed ⟨found, .inr opcode⟩)

/-- **A run in a region has entered it**, and has stayed in it since. The induction is on the
instructions that were done. -/
theorem exists_entry (first : run.machine.position = 0) {count : Nat}
    (reached : Run.advance text count run = .running now)
    (encloses : text.Encloses start region now.machine.position) :
    ∃ early steps entry, count = early + steps ∧ 0 < steps ∧
      Run.advance text early run = .running entry ∧ entry.machine.position = start ∧ entry.cell ≠ 0 ∧
      ∀ more, 0 < more → more ≤ steps → ∃ between, Run.advance text more entry = .running between ∧
        text.Encloses start region between.machine.position := by
  induction count generalizing now with
  | zero =>
    rw [Run.advance_zero] at reached
    split at reached
    · cases reached
    · cases reached
      have after := encloses.after
      omega
  | succ count ih =>
    obtain ⟨before, instruction, arrives, found, performed⟩ := Run.last_of_advance reached
    by_cases inside : text.Encloses start region before.machine.position
    · obtain ⟨early, steps, entry, rfl, positive, entered, here, marked, way⟩ := ih arrives inside
      refine ⟨early, steps + 1, entry, rfl, Nat.succ_pos _, entered, here, marked, fun more low high => ?_⟩
      by_cases last : more = steps + 1
      · subst last
        refine ⟨now, ?_, encloses⟩
        rw [← Run.advance_of_running entered]
        exact reached
      · exact way more low (by omega)
    · obtain ⟨here, marked⟩ := enters_of_encloses wellFormed found performed encloses inside
      refine ⟨count, 1, before, rfl, Nat.one_pos, arrives, here, marked, fun more low high => ?_⟩
      obtain rfl : more = 1 := by omega
      refine ⟨now, ?_, encloses⟩
      rw [← Run.advance_of_running arrives]
      exact reached

/-! ### On the way through a region -/

section Way

variable (level : text.Level) (begins : text.RegionAt start region)
  (here : entry.machine.position = start) (marked : entry.cell ≠ 0) {steps : Nat}
  (stays : ∀ more, 0 < more → more ≤ steps → ∃ between, Run.advance text more entry = .running between ∧
    text.Encloses start region between.machine.position)

include level begins here marked stays

/-- A run that stayed in a region since it was entered has not crossed it yet. -/
theorem exists_crossing : ∃ total, steps ≤ total ∧
    (∀ count, 0 < count → count ≤ total → ∃ between, Run.advance text count entry = .running between ∧
      OnWay text start region entry between) ∧
    ((∃ last, Run.advance text (total + 1) entry = .ended .overflow last) ∨
      ∃ last, Run.advance text (total + 1) entry = .running last ∧ Left region entry last) := by
  obtain ⟨total, way, ended⟩ := (crossing_of_enter wellFormed level begins here).exists_advance
  have found := begins.found
  rw [← here] at found
  have more := Run.advance_succ_of_running found (perform_of_marked begins marked)
  refine ⟨total, ?_, fun count low high => ?_, by rwa [more]⟩
  · refine Nat.le_of_not_lt fun short => ?_
    obtain ⟨between, running, inside⟩ := stays (total + 1) (Nat.succ_pos _) short
    rw [more] at running
    rcases ended with ⟨last, lost⟩ | ⟨last, arrived, gone⟩
    · cases lost.symm.trans running
    · obtain rfl := Progress.running.inj (arrived.symm.trans running)
      have upto := inside.upto
      rw [gone.position] at upto
      omega
  · obtain ⟨between, running, onWay⟩ := way (count - 1) (by omega)
    rw [← more, Nat.sub_add_cancel low] at running
    exact ⟨between, running, onWay⟩

theorem onWay_of_advance (positive : 0 < steps) (reached : Run.advance text steps entry = .running now) :
    OnWay text start region entry now := by
  obtain ⟨total, enough, way, -⟩ := exists_crossing wellFormed level begins here marked stays
  obtain ⟨between, running, onWay⟩ := way steps positive enough
  obtain rfl := Progress.running.inj (reached.symm.trans running)
  exact onWay

/-- Once it is out of the region, it has left it behind its end. -/
theorem left_of_outside (reached : Run.advance text (steps + 1) entry = .running now)
    (outside : ¬ text.Encloses start region now.machine.position) : Left region entry now := by
  obtain ⟨total, enough, way, ended⟩ := exists_crossing wellFormed level begins here marked stays
  have last : total = steps := by
    refine Nat.le_antisymm (Nat.le_of_not_lt fun more => ?_) enough
    obtain ⟨between, running, onWay⟩ := way (steps + 1) (Nat.succ_pos _) more
    obtain rfl := Progress.running.inj (reached.symm.trans running)
    exact outside ⟨begins, onWay.after, onWay.upto⟩
  subst last
  rcases ended with ⟨last, lost⟩ | ⟨last, arrived, gone⟩
  · cases lost.symm.trans reached
  · obtain rfl := Progress.running.inj (reached.symm.trans arrived)
    exact gone

theorem left_of_advance (reached : Run.advance text (steps + 1) entry = .running now)
    (behind : now.machine.position = region.link + 1) : Left region entry now := by
  refine left_of_outside wellFormed level begins here marked stays reached fun encloses => ?_
  have upto := encloses.upto
  omega

end Way

/-! ### What runs keep to -/

/-- A run at the beginning of a region gets behind it. -/
theorem leaves_of_begins (level : text.Level) (begins : text.RegionAt now.machine.position region) :
    ∃ steps, 0 < steps ∧
      (∀ count, 0 < count → count < steps → ∃ between, Run.advance text count now = .running between ∧
        now.machine.position < between.machine.position ∧
        between.machine.position ≤ region.link) ∧
      ((∃ last, Run.advance text steps now = .ended .overflow last) ∨
        ∃ last, Run.advance text steps now = .running last ∧
          last.machine.position = region.link + 1 ∧
          last.machine.head.index = now.machine.head.index ∧ last.cell = 0 ∧
          last.machine.stack = now.machine.stack) := by
  by_cases zero : now.cell = 0
  · refine ⟨1, Nat.one_pos, fun count low high => absurd high (by omega), ?_⟩
    rcases perform_of_zero begins zero with passed | lost
    · refine .inr ⟨now.hop (region.link + 1), ?_, rfl, rfl, zero, rfl⟩
      rw [Run.advance_succ_of_running begins.found passed]
      exact Run.advance_zero_of_getElem? (Array.getElem?_eq_getElem (begins.succ_link_lt wellFormed).2)
    · exact .inl ⟨now, Run.advance_succ_of_ended begins.found lost 0⟩
  · have stays (more : Nat) (low : 0 < more) (high : more ≤ 0) : ∃ between,
        Run.advance text more now = .running between ∧
          text.Encloses now.machine.position region between.machine.position :=
      absurd high (Nat.not_le.mpr low)
    obtain ⟨total, -, way, ended⟩ := exists_crossing wellFormed level begins rfl zero stays
    refine ⟨total + 1, Nat.succ_pos _, fun count low high => ?_, ended.imp_right ?_⟩
    · obtain ⟨between, running, after, upto, -⟩ := way count low (Nat.le_of_lt_succ high)
      exact ⟨between, running, after, upto⟩
    · rintro ⟨last, arrived, position, index, cell, stack, -⟩
      exact ⟨last, arrived, position, index, cell, stack⟩

omit wellFormed in
/-- Of the regions around a position, the one that begins last is the innermost. -/
theorem exists_innermost {position : Nat} (encloses : text.Encloses start region position) :
    ∃ first inner, text.Innermost first inner position := by
  generalize distance : position - start = left
  induction left using Nat.strongRecOn generalizing start region with
  | ind left ih =>
    by_cases last : ∀ other outer, text.Encloses other outer position → other ≤ start
    · exact ⟨start, region, encloses, last⟩
    · simp only [Classical.not_forall, Nat.not_le, exists_prop] at last
      obtain ⟨other, outer, around, later⟩ := last
      have after := around.after
      exact ih (position - other) (by omega) around rfl

/-- At a product, the register is the counter that the innermost region was entered with. -/
theorem register_of_advance (level : text.Level) (first : run.machine.position = 0) {count : Nat}
    (reached : Run.advance text count run = .running now)
    (found : text[now.machine.position]? = some instruction) (opcode : instruction.opcode = .multiply) :
    ∃ start region early entry, text.Innermost start region now.machine.position ∧ early < count ∧
      Run.advance text early run = .running entry ∧ entry.machine.position = start ∧
      entry.cell ≠ 0 ∧ now.machine.register = entry.cell ∧
      ∀ later, early < later → later ≤ count → ∃ between,
        Run.advance text later run = .running between ∧
        text.Encloses start region between.machine.position := by
  obtain ⟨outer, around, begun, after, held⟩ := wellFormed.multiplied _ _ found opcode
  have encloses : text.Encloses outer around now.machine.position := by
    rcases held with ⟨push, -, before⟩ | ⟨fast, upto⟩
    · exact ⟨⟨begun, .inl push⟩, after, Nat.le_of_lt before⟩
    · exact ⟨⟨begun, .inr fast⟩, after, upto⟩
  obtain ⟨start, region, innermost⟩ := exists_innermost encloses
  obtain ⟨early, steps, entry, rfl, positive, entered, here, marked, stays⟩ :=
    exists_entry wellFormed first reached innermost.encloses
  have since := Run.advance_of_running entered
  have onWay := onWay_of_advance wellFormed level innermost.encloses.begins here marked stays positive
    ((since steps).symm.trans reached)
  refine ⟨start, region, early, entry, innermost, by omega, entered, here, marked,
    (onWay.visit innermost).register, fun later low high => ?_⟩
  obtain ⟨between, running, inside⟩ := stays (later - early) (by omega) (by omega)
  rw [← since, Nat.add_sub_cancel' (Nat.le_of_lt low)] at running
  exact ⟨between, running, inside⟩

omit wellFormed in
/-- The instructions behind which the cell is zero, whether or not they had to do anything. -/
theorem cell_of_closes (level : text.Level) (found : text[run.machine.position]? = some instruction)
    (closes : instruction.opcode ∈ [.reset, .seek, .store, .pop] ∨
      instruction.opcode = .set ∧ instruction.value % 256 = 0)
    (performed : Run.perform run.terminal (run.machine.step instruction) = .running next) :
    next.cell = 0 := by
  by_cases pop : instruction.opcode = .pop
  · rcases run with ⟨⟨head, position, register, stack⟩, terminal⟩
    simp only [Machine.step, pop] at performed
    cases performed
    exact Head.read_write head 0
  · have unlinked : instruction.opcode.isBoundary = false := by
      rcases closes with opcode | ⟨opcode, -⟩
      · simp only [List.mem_cons, List.not_mem_nil, pop, or_false] at opcode
        rcases opcode with opcode | opcode | opcode <;>
          simp [opcode, Opcode.isBoundary, Opcode.operands]
      · simp [opcode, Opcode.isBoundary, Opcode.operands]
    have zero : instruction.leavesZero = true := by
      rcases closes with opcode | ⟨opcode, whole⟩
      · simp only [List.mem_cons, List.not_mem_nil, or_false] at opcode
        rcases opcode with opcode | opcode | opcode | opcode <;> simp [Instruction.leavesZero, opcode]
      · have none : UInt8.ofInt instruction.value = 0 := by
          show UInt8.ofNat (instruction.value % 256).toNat = 0
          rw [whole]
          rfl
        simp [Instruction.leavesZero, opcode, none]
    have sound := level.sound instruction (Array.mem_of_getElem? found) unlinked
    have completed : Behavior.act instruction 1 run = .finished 0 next := by
      simp only [Behavior.act, performed]
    exact Behavior.cell_of_act sound zero unlinked completed

omit wellFormed in
/-- What stands in front of a position with a zero cell. -/
theorem Text.BehindZero.cases {position : Nat} (behind : text.BehindZero (position + 1))
    (found : text[position]? = some instruction) :
    instruction.opcode = .loopEnd ∨
      (instruction.opcode ∈ [.reset, .seek, .store, .pop] ∨
        instruction.opcode = .set ∧ instruction.value % 256 = 0) ∨
      ∃ start region, text.RegionAt start region ∧ region.opcode = .pushFast ∧
        region.link = position := by
  rcases behind with ⟨before, other, place, there, closes⟩ | ⟨start, region, begun, fast, place⟩
  · obtain rfl : position = before := Nat.succ.inj place
    obtain rfl := Option.some.inj (found.symm.trans there)
    rw [List.mem_cons, or_assoc] at closes
    exact closes.imp_right .inl
  · exact .inr (.inr ⟨start, region, ⟨begun, .inr fast⟩, fast, (Nat.succ.inj place).symm⟩)

/-- Wherever the cell was just left zero, it is zero. -/
theorem cell_of_advance (level : text.Level) (first : run.machine.position = 0) {count : Nat}
    (reached : Run.advance text count run = .running now)
    (behind : text.BehindZero now.machine.position) : now.cell = 0 := by
  cases count with
  | zero =>
    rw [Run.advance_zero] at reached
    split at reached
    · cases reached
    · cases reached
      rcases behind with ⟨before, -, place, -⟩ | ⟨-, region, -, -, place⟩ <;> omega
  | succ count =>
    obtain ⟨before, instruction, early, found, performed⟩ := Run.last_of_advance reached
    rcases Run.cell_of_jump performed with ⟨after, other⟩ | zero | ⟨ended, jumped⟩
    · rw [after] at behind
      rcases behind.cases found with ended | closes | ⟨start, region, begins, fast, last⟩
      · exact absurd ended other
      · exact cell_of_closes level found closes performed
      · by_cases here : before.machine.position = start
        · -- There is nothing in the region.
          rw [here] at found
          obtain rfl := Option.some.inj (found.symm.trans begins.found)
          by_cases zero : before.cell = 0
          · rcases perform_of_zero begins zero with passed | lost
            · obtain rfl := Progress.running.inj (performed.symm.trans passed)
              exact zero
            · cases performed.symm.trans lost
          · obtain rfl := Progress.running.inj (performed.symm.trans (perform_of_marked begins zero))
            refine ((visit_enter begins here).1.left_fast level begins fast ?_).cell
            rw [after, last]
        · have order := (begins.succ_link_lt wellFormed).1
          have inside : text.Encloses start region before.machine.position :=
            ⟨begins, by omega, by omega⟩
          obtain ⟨sooner, steps, entry, rfl, -, entered, enters, marked, stays⟩ :=
            exists_entry wellFormed first early inside
          rw [Nat.add_assoc, Run.advance_of_running entered] at reached
          refine (left_of_advance wellFormed level begins enters marked stays reached ?_).cell
          rw [after, last]
    · exact zero
    · -- Behind the beginning of a loop, nothing is said about the cell.
      exfalso
      obtain ⟨opening, opened, opcode⟩ := (opcode_of_link wellFormed found).2 ended
      rw [jumped] at behind
      rcases behind.cases opened with other | closes | ⟨start, region, begins, fast, last⟩
      · cases opcode.symm.trans other
      · simp [opcode] at closes
      · have order := (begins.succ_link_lt wellFormed).1
        exact (begins.opcode_ne wellFormed (last ▸ order) (Nat.le_of_eq last.symm) opened).1 opcode

end Reaching

/-- **The text of every assembled source is disciplined.** -/
theorem disciplined_of_assemble {passes : Passes} {source : Source} {assembly : Assembly}
    (assembled : assemble passes source = .ok assembly) : assembly.text.Disciplined := by
  obtain ⟨code, reached, written⟩ := code_of_assembled assembled
  have wellFormed := wellFormed_of_emit reached.proper.1 written
  have level := level_of_emit reached.proper.1 written
  constructor
  · intro now region begins
    exact leaves_of_begins wellFormed level begins
  · intro run now count product first reached found opcode
    exact register_of_advance wellFormed level first reached found opcode
  · intro run now count first reached behind
    exact cell_of_advance wellFormed level first reached behind

/-- Products in two regions on the stack, and a cell that is cleared behind them. -/
theorem nested_regions_disciplined :
    let source : Source := ['+', '+', '[', '-', '>', '>', '+', '<', '[', '-', '>', '>', '+', '>', '+',
      '<', '<', '<', ']', '<', ']', '>', '[', '-', ']'].map Char.toUInt8
    ∃ assembly, assemble Passes.all source = .ok assembly ∧
      assembly.text.map (·.opcode) = #[.add, .push, .multiply, .move, .push, .multiply, .multiply, .pop,
        .move, .pop, .move, .reset, .stop] ∧
        assembly.text.Disciplined := by
  intro source
  have text : (assemble Passes.all source).toOption.map (fun assembly =>
      assembly.text.map (·.opcode)) = some #[.add, .push, .multiply, .move, .push, .multiply, .multiply,
        .pop, .move, .pop, .move, .reset, .stop] := by
    decide +kernel
  obtain ⟨assembly, found, opcodes⟩ := Option.map_eq_some_iff.mp text
  have assembled := toOption_eq_some.mp found
  exact ⟨assembly, assembled, opcodes, disciplined_of_assemble assembled⟩

end TapeMachine
