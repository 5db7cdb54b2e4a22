/-
**Reading a counted loop.**

What `Loop.Fusion` makes of a loop body is the woven body, and what it accepts is the body of a counted
loop.

* `Fusion.Follows`: how far a fusion has come when it has read a code;
* `Code.follows_of_folded`: reading a whole code, with the nested regions;
* `Code.counted_of_ofBody`: a body that is accepted is that of a counted loop.
-/

import TapeMachine.Loop.Counted
import TapeMachine.Proofs.Code.Closed
import TapeMachine.Proofs.Code.Link
import TapeMachine.Proofs.Counted.Region

namespace TapeMachine

open Loop

/-! ### Checked steps -/

theorem lift_eq_ok {α : Type} {checked : Except Fault α} {value : α} :
    (liftM checked : Except Obstacle α) = .ok value ↔ checked = .ok value := by
  cases checked with
  | error fault => constructor <;> rintro ⟨⟩
  | ok other =>
    constructor <;> rintro ⟨⟩
    all_goals rfl

/-! ### What a footprint must show -/

/-- The cells that a code touches, from an origin on, are in the footprint. What is added to the counter
itself is not. -/
structure Code.Prints (code : Code) (origin : Int) (footprint : Footprint) : Prop where
  adds : ∀ cell, code.Adds cell → origin + cell ≠ 0 → origin + cell ∈ footprint.added
  counts : ∀ cell, code.Counts cell → origin + cell ∈ footprint.counters
  targets : ∀ cell, code.Targets cell → origin + cell ∈ footprint.targets
  assigns : ∀ cell value, code.Assigns cell value → origin + cell ∈ footprint.assigned
  constants : ∀ cell value, code.Assigns cell value → value ≠ 0 →
    origin + cell ∈ footprint.constants

/-- What a single instruction must leave in the footprint. -/
structure Instruction.Prints (instruction : Instruction) (here : Int) (footprint : Footprint) :
    Prop where
  adds : instruction.opcode = .add → here ≠ 0 → here ∈ footprint.added
  counts : instruction.opcode = .store → here ∈ footprint.counters
  targets : ∀ cell, instruction.Targets cell → here + cell ∈ footprint.targets
  assigns : ∀ cell value, instruction.Assigns cell value → here + cell ∈ footprint.assigned
  constants : ∀ cell value, instruction.Assigns cell value → value ≠ 0 →
    here + cell ∈ footprint.constants

theorem Code.Prints.plain {before : Code} {instruction : Instruction} {origin : Int}
    {footprint : Footprint} (early : before.Prints origin footprint)
    (late : instruction.Prints (origin + before.shift) footprint) :
    (before.plain instruction).Prints origin footprint := by
  have place (cell : Int) : origin + before.shift + (cell - before.shift) = origin + cell := by omega
  constructor
  · rintro cell (adds | ⟨opcode, rfl⟩) off
    · exact early.adds cell adds off
    · exact late.adds opcode off
  · rintro cell (counted | ⟨opcode, rfl⟩)
    · exact early.counts cell counted
    · exact late.counts opcode
  · rintro cell (target | target)
    · exact early.targets cell target
    · exact place cell ▸ late.targets _ target
  · rintro cell value (assigned | assigned)
    · exact early.assigns cell value assigned
    · exact place cell ▸ late.assigns _ value assigned
  · rintro cell value (assigned | assigned) marked
    · exact early.constants cell value assigned marked
    · exact place cell ▸ late.constants _ value assigned marked

theorem Code.Prints.region {before body : Code} {fast : Bool} {origin : Int} {footprint : Footprint}
    (early : before.Prints origin footprint) (counter : origin + before.shift ∈ footprint.counters)
    (inside : body.Prints (origin + before.shift) footprint) :
    (before.region fast body).Prints origin footprint := by
  have place (cell : Int) : origin + before.shift + (cell - before.shift) = origin + cell := by omega
  constructor
  · exact early.adds
  · rintro cell (counted | rfl | counted)
    · exact early.counts cell counted
    · exact counter
    · exact place cell ▸ inside.counts _ counted
  · rintro cell (target | target)
    · exact early.targets cell target
    · exact place cell ▸ inside.targets _ target
  · rintro cell value (assigned | assigned)
    · exact early.assigns cell value assigned
    · exact place cell ▸ inside.assigns _ value assigned
  · rintro cell value (assigned | assigned) marked
    · exact early.constants cell value assigned marked
    · exact place cell ▸ inside.constants _ value assigned marked

/-- The one footprint has all cells of the other. -/
structure Loop.Footprint.Within (small large : Footprint) : Prop where
  added : small.added ⊆ large.added
  assigned : small.assigned ⊆ large.assigned
  constants : small.constants ⊆ large.constants
  counters : small.counters ⊆ large.counters
  targets : small.targets ⊆ large.targets

theorem Loop.Footprint.Within.refl (footprint : Footprint) : footprint.Within footprint where
  added _ := id
  assigned _ := id
  constants _ := id
  counters _ := id
  targets _ := id

theorem Loop.Footprint.Within.trans {first second third : Footprint} (here : first.Within second)
    (there : second.Within third) : first.Within third where
  added _ member := there.added (here.added member)
  assigned _ member := there.assigned (here.assigned member)
  constants _ member := there.constants (here.constants member)
  counters _ member := there.counters (here.counters member)
  targets _ member := there.targets (here.targets member)

theorem Code.Prints.mono {code : Code} {origin : Int} {small large : Footprint}
    (prints : code.Prints origin small) (within : small.Within large) : code.Prints origin large where
  adds cell adds off := within.added (prints.adds cell adds off)
  counts cell counted := within.counters (prints.counts cell counted)
  targets cell target := within.targets (prints.targets cell target)
  assigns cell value assigned := within.assigned (prints.assigns cell value assigned)
  constants cell value assigned marked := within.constants (prints.constants cell value assigned marked)

/-- A body whose footprint is repeatable can be repeated and leaves its counter alone. -/
theorem Code.repeats_of_repeatable {code : Code} {footprint : Footprint}
    (prints : code.Prints 0 footprint) (repeatable : footprint.Repeatable) :
    code.Repeats ∧ ¬ code.Touches 0 := by
  obtain ⟨touched, counters, targets⟩ := repeatable
  have place (cell : Int) : (0 : Int) + cell = cell := Int.zero_add cell
  have member (cell : Int) (touches : code.Touches cell) : cell ∈ footprint.touched := by
    simp only [Footprint.touched, List.mem_append]
    rcases touches with counted | target | ⟨value, assigned⟩
    · exact .inl (.inr (place cell ▸ prints.counts cell counted))
    · exact .inr (place cell ▸ prints.targets cell target)
    · exact .inl (.inl (place cell ▸ prints.assigns cell value assigned))
  refine ⟨⟨?_, ?_, ?_⟩, fun touches => (touched 0 (member 0 touches)).1 rfl⟩
  · intro cell touches adds
    obtain ⟨off, free⟩ := touched cell (member cell touches)
    exact free (place cell ▸ prints.adds cell adds ((place cell).symm ▸ off))
  · intro cell counted
    obtain ⟨noTarget, noConstant⟩ := counters cell (place cell ▸ prints.counts cell counted)
    refine ⟨fun target => noTarget (place cell ▸ prints.targets cell target), ?_⟩
    intro value assigned
    by_cases zero : value = 0
    · exact zero
    · exact (noConstant (place cell ▸ prints.constants cell value assigned zero)).elim
  · intro cell target value assigned
    exact targets cell (place cell ▸ prints.targets cell target)
      (place cell ▸ prints.assigns cell value assigned)

namespace Loop.Fusion

/-- The fusion has read a code from an origin on, and has written what is woven of it. -/
structure Follows (initial : Fusion) (code : Code) (woven : Woven) (fusion : Fusion) : Prop where
  operations : fusion.operations.toList = initial.operations.toList ++ woven.code.bare
  current : fusion.current = initial.current + code.shift
  cursor : fusion.cursor = initial.current + woven.cursor
  total : fusion.total = initial.total + code.gain (-initial.current)
  depth : fusion.depth = initial.depth
  leaf : fusion.leaf = true ↔ initial.leaf = true ∧ code.Leaf
  older : initial.footprint.Within fusion.footprint
  prints : code.Prints initial.current fusion.footprint

/-! ### Single steps -/

variable {initial fusion next : Fusion} {before : Code} {woven : Woven} {instruction : Instruction}

/-- The operations with the move that was put off. -/
def settled (fusion : Fusion) : Array Instruction :=
  if fusion.current = fusion.cursor then fusion.operations
  else fusion.operations.push { opcode := .move, value := fusion.current - fusion.cursor }

theorem flush_eq_ok (flushed : fusion.flush = .ok next) :
    next = { fusion with operations := fusion.settled, cursor := fusion.current } := by
  unfold flush at flushed
  unfold settled
  split at flushed
  · next same =>
    rw [if_pos same, ← pure_eq_ok.mp flushed]
    rcases fusion with ⟨operations, current, cursor, total, depth, leaf, footprint⟩
    obtain rfl : current = cursor := same
    rfl
  · next apart =>
    simp only [bind_eq_ok, operand_eq_ok_iff] at flushed
    obtain ⟨distance, ⟨-, rfl⟩, done⟩ := flushed
    rw [if_neg apart]
    exact (pure_eq_ok.mp done).symm

theorem writeHere_eq_ok (written : fusion.writeHere instruction = .ok next) :
    next = { fusion with
      operations := fusion.settled.push instruction, cursor := fusion.current } := by
  simp only [writeHere, bind_eq_ok] at written
  obtain ⟨flushed, done, same⟩ := written
  obtain rfl := flush_eq_ok done
  exact (pure_eq_ok.mp same).symm

theorem multiply_eq_ok {factor target : Int} (written : fusion.multiply factor target = .ok next) :
    next = { fusion with
      operations := fusion.operations.push
        { opcode := .multiply, value := factor, offset := target - fusion.cursor } } := by
  simp only [multiply, bind_eq_ok, operand_eq_ok_iff] at written
  obtain ⟨distance, ⟨-, rfl⟩, done⟩ := written
  exact (pure_eq_ok.mp done).symm

theorem toList_settled {origin here : Int} {written : List Instruction}
    (operations : fusion.operations.toList = written ++ woven.code.bare)
    (current : fusion.current = origin + here) (cursor : fusion.cursor = origin + woven.cursor) :
    fusion.settled.toList = written ++ (woven.moveTo here).code.bare := by
  unfold settled Woven.moveTo
  by_cases same : here = woven.cursor
  · rw [if_pos (by omega), if_pos same, operations]
  · have distance : fusion.current - fusion.cursor = here - woven.cursor := by omega
    rw [if_neg (by omega), if_neg same, Code.bare_plain rfl, Array.toList_push, operations, distance,
      List.append_assoc]

/-- An instruction is read, and the footprint shows what it does. -/
theorem Follows.plain {result : Woven} (follows : Follows initial before woven fusion)
    (operations : next.operations.toList = initial.operations.toList ++ result.code.bare)
    (current : next.current = fusion.current + instruction.shift)
    (cursor : next.cursor = initial.current + result.cursor)
    (total : next.total =
      fusion.total + if instruction.opcode = .add ∧ fusion.current = 0 then instruction.value else 0)
    (depth : next.depth = fusion.depth) (leaf : next.leaf = fusion.leaf)
    (older : fusion.footprint.Within next.footprint)
    (prints : instruction.Prints fusion.current next.footprint) :
    Follows initial (before.plain instruction) result next where
  operations := operations
  current := by rw [current, follows.current, Code.shift, Int.add_assoc]
  cursor := cursor
  total := by
    have under : fusion.current = 0 ↔ -initial.current = before.shift := by
      rw [follows.current]
      constructor <;> intro same <;> omega
    simp only [total, follows.total, Code.gain, under, Int.add_assoc]
  depth := depth.trans follows.depth
  leaf := by
    rw [leaf]
    exact follows.leaf
  older := follows.older.trans older
  prints := (follows.prints.mono older).plain (follows.current ▸ prints)

theorem Follows.move (follows : Follows initial before before.weave fusion)
    (opcode : instruction.opcode = .move) (taken : fusion.next instruction = .ok next) :
    Follows initial (before.plain instruction) (before.plain instruction).weave next := by
  rcases fusion with ⟨operations, current, cursor, total, depth, leaf, footprint⟩
  simp only [Fusion.next, opcode, bind_eq_ok, lift_eq_ok, operand_eq_ok_iff, pure_eq_ok] at taken
  obtain ⟨_, ⟨-, rfl⟩, rfl⟩ := taken
  have woven : (before.plain instruction).weave = before.weave := by simp [Code.weave, opcode]
  rw [woven]
  refine follows.plain follows.operations ?_ follows.cursor ?_ rfl rfl (.refl _) ?_
  · simp [Instruction.shift, opcode]
  · simp [opcode]
  · constructor <;> simp [opcode, Instruction.Targets, Instruction.Assigns]

theorem Follows.add (follows : Follows initial before before.weave fusion)
    (opcode : instruction.opcode = .add) (origin : initial.current = 0)
    (taken : fusion.next instruction = .ok next) :
    Follows initial (before.plain instruction) (before.plain instruction).weave next := by
  have here := follows.current
  rw [origin, Int.zero_add] at here
  rcases fusion with ⟨operations, current, cursor, total, depth, leaf, footprint⟩
  simp only at here
  simp only [Fusion.next, opcode] at taken
  by_cases counter : before.shift = 0
  · have woven : (before.plain instruction).weave = before.weave := by
      simp [Code.weave, opcode, counter]
    rw [if_pos (here.trans counter)] at taken
    simp only [bind_eq_ok, lift_eq_ok, operand_eq_ok_iff, pure_eq_ok] at taken
    obtain ⟨_, ⟨-, rfl⟩, rfl⟩ := taken
    rw [woven]
    refine follows.plain follows.operations ?_ follows.cursor ?_ rfl rfl (.refl _) ?_
    · simp [Instruction.shift, opcode]
    · simp [opcode, here, counter]
    · constructor <;> simp [opcode, Instruction.Targets, Instruction.Assigns, here, counter]
  · have woven : (before.plain instruction).weave =
        before.weave.multiply instruction.value before.shift := by
      simp [Code.weave, opcode, counter]
    rw [if_neg fun zero => counter (here.symm.trans zero)] at taken
    obtain rfl := multiply_eq_ok (lift_eq_ok.mp taken)
    rw [woven]
    refine follows.plain ?_ ?_ follows.cursor ?_ rfl rfl ?_ ?_
    · have cursor : cursor = before.weave.cursor := by
        have lag := follows.cursor
        rw [origin, Int.zero_add] at lag
        exact lag
      rw [Woven.multiply, Woven.write, Code.bare_plain rfl, ← List.append_assoc,
        ← follows.operations, here, cursor, Array.toList_push]
    · simp [Instruction.shift, opcode]
    · simp [here, counter]
    · exact { Footprint.Within.refl footprint with added := fun _ => List.mem_cons_of_mem _ }
    · constructor <;> simp [opcode, Instruction.Targets, Instruction.Assigns]

theorem Follows.multiply (follows : Follows initial before before.weave fusion)
    (opcode : instruction.opcode = .multiply) (taken : fusion.next instruction = .ok next) :
    Follows initial (before.plain instruction) (before.plain instruction).weave next := by
  have here := follows.current
  have lag := follows.cursor
  have woven : (before.plain instruction).weave =
      before.weave.multiply instruction.value (before.shift + instruction.offset) := by
    simp [Code.weave, opcode]
  rcases fusion with ⟨operations, current, cursor, total, depth, leaf, footprint⟩
  simp only at here lag
  simp only [Fusion.next, opcode, bind_eq_ok, lift_eq_ok, operand_eq_ok_iff] at taken
  obtain ⟨_, ⟨-, rfl⟩, taken⟩ := taken
  split at taken
  · cases taken
  · obtain rfl := multiply_eq_ok (lift_eq_ok.mp taken)
    rw [woven]
    refine follows.plain ?_ ?_ lag ?_ rfl rfl ?_ ?_
    · have distance : current + instruction.offset - cursor =
          before.shift + instruction.offset - before.weave.cursor := by omega
      rw [Woven.multiply, Woven.write, Code.bare_plain rfl, ← List.append_assoc,
        ← follows.operations, Array.toList_push, distance]
    · simp [Instruction.shift, opcode]
    · simp [opcode]
    · exact { Footprint.Within.refl footprint with targets := fun _ => List.mem_cons_of_mem _ }
    · constructor <;> simp [opcode, Instruction.Targets, Instruction.Assigns]

/-- A `store`, constant or reset is written where the body has the head, whatever is noted about it. -/
theorem Follows.writeHere (noted : Footprint) (follows : Follows initial before before.weave fusion)
    (busy : instruction.opcode ∈ [.store, .set, .reset]) (sound : instruction.Sound)
    (older : fusion.footprint.Within noted) (prints : instruction.Prints fusion.current noted) :
    Follows initial (before.plain instruction) (before.plain instruction).weave
      { fusion with
        operations := fusion.settled.push instruction
        current := fusion.current + instruction.shift
        cursor := fusion.current + instruction.shift
        footprint := noted } := by
  have woven : (before.plain instruction).weave =
      ⟨(before.weave.moveTo before.shift).code.plain instruction,
        before.shift + instruction.shift⟩ := by
    simp only [List.mem_cons, List.not_mem_nil, or_false] at busy
    rcases busy with opcode | opcode | opcode <;> simp [Code.weave, opcode]
  have idle : instruction.opcode ≠ .add := by
    intro opcode
    simp [opcode] at busy
  rw [woven]
  refine follows.plain ?_ rfl ?_ ?_ rfl rfl older prints
  · rw [Array.toList_push, toList_settled follows.operations follows.current follows.cursor,
      Code.bare_plain sound.unlinked, List.append_assoc]
  · exact (congrArg (· + instruction.shift) follows.current).trans (Int.add_assoc _ _ _)
  · rw [if_neg fun adds => idle adds.1, Int.add_zero]

theorem Follows.write (follows : Follows initial before before.weave fusion)
    (busy : instruction.opcode ∈ [.store, .set, .reset]) (sound : instruction.Sound)
    (taken : fusion.next instruction = .ok next) :
    Follows initial (before.plain instruction) (before.plain instruction).weave next := by
  have noted (noted : Footprint) := follows.writeHere noted busy sound
  simp only [List.mem_cons, List.not_mem_nil, or_false] at busy
  rcases fusion with ⟨operations, current, cursor, total, depth, leaf, footprint⟩
  rcases busy with opcode | opcode | opcode
  · have still : current + instruction.shift = current := by simp [Instruction.shift, opcode]
    simp only [Fusion.next, opcode, bind_eq_ok, lift_eq_ok, operand_eq_ok_iff] at taken
    obtain ⟨_, ⟨-, rfl⟩, written⟩ := taken
    obtain rfl := writeHere_eq_ok written
    simp only [still] at noted
    refine noted _ ?_ ?_
    · exact { Footprint.Within.refl footprint with
        counters := fun _ => List.mem_cons_of_mem _
        targets := fun _ => List.mem_cons_of_mem _ }
    · constructor <;> simp [opcode, Instruction.Targets, Instruction.Assigns]
  · have still : current + instruction.shift = current := by simp [Instruction.shift, opcode]
    simp only [Fusion.next, opcode, lift_eq_ok] at taken
    obtain rfl := writeHere_eq_ok taken
    simp only [still] at noted
    refine noted _ ?_ ?_
    · exact { Footprint.Within.refl footprint with
        assigned := fun _ => List.mem_cons_of_mem _
        constants := fun _ => List.mem_cons_of_mem _ }
    · constructor <;> simp [opcode, Instruction.Targets, Instruction.Assigns]
  · simp only [Fusion.next, opcode, bind_eq_ok, lift_eq_ok, operand_eq_ok_iff, pure_eq_ok] at taken
    obtain ⟨_, ⟨-, rfl⟩, _, ⟨-, rfl⟩, _, ⟨-, rfl⟩, _, written, rfl⟩ := taken
    obtain rfl := writeHere_eq_ok written
    have span : (instruction.value - 1) * instruction.offset = instruction.shift := by
      simp [Instruction.shift, opcode]
    rw [span]
    refine noted _ ?_ ?_
    · exact { Footprint.Within.refl footprint with
        assigned := fun _ => List.mem_append_right _ }
    · refine ⟨by simp [opcode], by simp [opcode], by simp [opcode, Instruction.Targets], ?_, ?_⟩
      · rintro cell value (⟨set, -⟩ | ⟨-, cleared, -⟩)
        · simp [opcode] at set
        · obtain ⟨count, member, rfl⟩ := List.mem_map.mp cleared
          exact List.mem_append_left _ (List.mem_map.mpr ⟨count, member, rfl⟩)
      · rintro cell value (⟨set, -⟩ | ⟨-, -, rfl⟩) marked
        · simp [opcode] at set
        · exact (marked rfl).elim

/-! ### Whole codes -/

/-- The beginning of a region is written where the body has the head, and its counter is noted. -/
theorem next_start {fast : Bool} {link : Nat}
    (taken : fusion.next (Code.regionStart fast link) = .ok next) :
    next = { fusion with
      operations := fusion.settled.push { opcode := .push }
      cursor := fusion.current
      depth := fusion.depth + 1
      leaf := false
      footprint := { fusion.footprint with
        counters := fusion.current :: fusion.footprint.counters } } := by
  rcases fusion with ⟨operations, current, cursor, total, depth, leaf, footprint⟩
  cases fast <;> exact writeHere_eq_ok (lift_eq_ok.mp taken)

/-- The end of a region is written where the body has the head. -/
theorem next_end {fast : Bool} {link depth : Nat} (opened : fusion.depth = depth + 1)
    (taken : fusion.next { opcode := if fast then .popFast else .pop, link := link } = .ok next) :
    next = { fusion with
      operations := fusion.settled.push { opcode := .pop }
      cursor := fusion.current
      depth := depth } := by
  rcases fusion with ⟨operations, current, cursor, total, level, leaf, footprint⟩
  obtain rfl : level = depth + 1 := opened
  cases fast <;> exact writeHere_eq_ok (lift_eq_ok.mp taken)

theorem Follows.region {body : Code} {fast : Bool} {base first last : Nat}
    (follows : Follows initial before before.weave fusion) (straight : body.Straight true)
    (inside : ∀ {fusion next : Fusion}, fusion.cursor = fusion.current →
      (body.emit true base).foldlM Fusion.next fusion = .ok next →
      Follows fusion body body.weave next)
    (taken : (Code.regionStart fast first ::
      (body.emit true base ++ Code.regionEnd true fast last)).foldlM Fusion.next fusion = .ok next) :
    Follows initial (before.region fast body) (before.region fast body).weave next := by
  rw [List.foldlM_cons, bind_eq_ok] at taken
  obtain ⟨entered, start, taken⟩ := taken
  rw [List.foldlM_append, bind_eq_ok] at taken
  obtain ⟨middle, folded, taken⟩ := taken
  obtain rfl := next_start start
  have within := inside rfl folded
  have closed : middle.next { opcode := if fast then .popFast else .pop, link := last } = .ok next := by
    simp only [Code.regionEnd, Bool.true_or, if_true, List.foldlM_cons, List.foldlM_nil, bind_eq_ok,
      pure_eq_ok] at taken
    obtain ⟨_, taken, rfl⟩ := taken
    exact taken
  obtain rfl := next_end within.depth closed
  have here := follows.current
  have noted : fusion.footprint.Within { fusion.footprint with
      counters := fusion.current :: fusion.footprint.counters } :=
    { Footprint.Within.refl fusion.footprint with counters := fun _ => List.mem_cons_of_mem _ }
  have idle (cell : Int) := Code.gain_eq_zero (Code.not_adds_of_straight straight cell)
  constructor
  · rw [Array.toList_push, toList_settled within.operations within.current within.cursor,
      Array.toList_push, toList_settled follows.operations follows.current follows.cursor, Code.weave,
      Code.bare_region]
    simp
  · rw [Code.shift, ← Int.add_assoc, ← here]
    exact within.current
  · rw [Code.weave, ← Int.add_assoc, ← here]
    exact within.current
  · refine within.total.trans ?_
    rw [idle, Int.add_zero]
    exact follows.total
  · exact follows.depth
  · have never : middle.leaf ≠ true := fun leaf => by cases (within.leaf.mp leaf).1
    exact ⟨fun leaf => (never leaf).elim, fun leaf => leaf.2.elim⟩
  · exact (follows.older.trans noted).trans within.older
  · refine ((follows.prints.mono noted).mono within.older).region ?_ (here ▸ within.prints)
    rw [← here]
    exact within.older.counters (List.mem_cons_self ..)

theorem follows_empty (level : initial.cursor = initial.current) :
    Follows initial .empty Code.empty.weave initial where
  operations := (List.append_nil _).symm
  current := (Int.add_zero _).symm
  cursor := level.trans (Int.add_zero _).symm
  total := (Int.add_zero _).symm
  depth := rfl
  leaf := ⟨fun leaf => ⟨leaf, trivial⟩, And.left⟩
  older := .refl _
  prints := by constructor <;> simp [Code.Adds, Code.Counts, Code.Targets, Code.Assigns]

/-- Reading the inside of a region. -/
theorem follows_of_straight {code : Code} (straight : code.Straight true) {base : Nat}
    (level : initial.cursor = initial.current)
    (folded : (code.emit true base).foldlM Fusion.next initial = .ok next) :
    Follows initial code code.weave next := by
  induction code generalizing base initial next with
  | empty =>
    obtain rfl := pure_eq_ok.mp folded
    exact follows_empty level
  | plain before instruction ih =>
    obtain ⟨early, opcode, sound⟩ := straight
    rw [Code.emit, List.foldlM_append, bind_eq_ok] at folded
    obtain ⟨fusion, folded, taken⟩ := folded
    have follows := ih early level folded
    simp only [List.foldlM_cons, List.foldlM_nil, bind_eq_ok, pure_eq_ok] at taken
    obtain ⟨_, taken, rfl⟩ := taken
    simp only [Opcode.IsStraight, List.mem_cons, List.not_mem_nil, or_false, if_true] at opcode
    rcases opcode with (opcode | opcode | opcode | opcode) | opcode
    · exact follows.move opcode taken
    · exact follows.write (by simp [opcode]) sound taken
    · exact follows.write (by simp [opcode]) sound taken
    · exact follows.write (by simp [opcode]) sound taken
    · exact follows.multiply opcode taken
  | loop before body _ _ => exact straight.elim
  | region before fast body ihBefore ihBody =>
    rw [Code.emit, List.foldlM_append, bind_eq_ok] at folded
    obtain ⟨fusion, folded, taken⟩ := folded
    exact (ihBefore straight.1 level folded).region straight.2.2.2.1
      (fun level folded => ihBody straight.2.2.2.1 level folded) taken

/-- Reading the body of a loop: what is read to its end is straight. -/
theorem follows_of_proper {code : Code} (proper : code.Proper) {base : Nat}
    (origin : initial.current = 0) (level : initial.cursor = initial.current)
    (folded : (code.emit true base).foldlM Fusion.next initial = .ok next) :
    code.Straight false ∧ Follows initial code code.weave next := by
  induction code generalizing base next with
  | empty =>
    obtain rfl := pure_eq_ok.mp folded
    exact ⟨trivial, follows_empty level⟩
  | plain before instruction ih =>
    obtain ⟨early, opcode, sound⟩ := proper
    rw [Code.emit, List.foldlM_append, bind_eq_ok] at folded
    obtain ⟨fusion, folded, taken⟩ := folded
    obtain ⟨straight, follows⟩ := ih early folded
    simp only [List.foldlM_cons, List.foldlM_nil, bind_eq_ok, pure_eq_ok] at taken
    obtain ⟨_, taken, rfl⟩ := taken
    have refused {opcode : Opcode} (same : instruction.opcode = opcode)
        (bad : opcode ∈ [.input, .output, .seek]) : False := by
      rcases fusion with ⟨operations, current, cursor, total, depth, leaf, footprint⟩
      simp only [List.mem_cons, List.not_mem_nil, or_false] at bad
      rcases bad with rfl | rfl | rfl <;> simp [Fusion.next, same] at taken
    have kept {opcode : Opcode} (same : instruction.opcode = opcode)
        (good : opcode.IsStraight false) : (before.plain instruction).Straight false :=
      ⟨straight, same ▸ good, sound⟩
    simp only [List.mem_cons, List.not_mem_nil, or_false] at opcode
    rcases opcode with opcode | opcode | opcode | opcode | opcode | opcode | opcode | opcode
    · exact ⟨kept opcode (by decide), follows.move opcode taken⟩
    · exact ⟨kept opcode (by decide), follows.add opcode origin taken⟩
    · exact (refused opcode (by decide)).elim
    · exact (refused opcode (by decide)).elim
    · exact ⟨kept opcode (by decide), follows.write (by simp [opcode]) sound taken⟩
    · exact ⟨kept opcode (by decide), follows.write (by simp [opcode]) sound taken⟩
    · exact (refused opcode (by decide)).elim
    · exact ⟨kept opcode (by decide), follows.write (by simp [opcode]) sound taken⟩
  | loop before body _ _ =>
    rw [Code.emit, List.foldlM_append, bind_eq_ok] at folded
    obtain ⟨fusion, -, taken⟩ := folded
    rw [List.foldlM_cons, bind_eq_ok] at taken
    obtain ⟨_, taken, -⟩ := taken
    rcases fusion with ⟨operations, current, cursor, total, depth, leaf, footprint⟩
    simp [Fusion.next] at taken
  | region before fast body ihBefore _ =>
    obtain ⟨early, leaf, inside, back, alone⟩ := proper
    rw [Code.emit, List.foldlM_append, bind_eq_ok] at folded
    obtain ⟨fusion, folded, taken⟩ := folded
    obtain ⟨straight, follows⟩ := ihBefore early folded
    exact ⟨⟨straight, by rintro ⟨⟩, leaf, inside, back, alone⟩,
      follows.region inside (fun level folded => follows_of_straight inside level folded) taken⟩

theorem ofInt_eq_neg_one {total : Int} (last : total % 256 = 255) : UInt8.ofInt total = -1 := by
  have whole : total = 256 * (total / 256) + 255 := by omega
  have none : UInt8.ofInt 256 = 0 := rfl
  rw [whole, UInt8.ofInt_add, UInt8.ofInt_mul, none, UInt8.zero_mul]
  rfl

/-- A body that is accepted is that of a counted loop, and the operations are the woven body. -/
theorem counted_of_finish {body : Code} (proper : body.Proper) {base : Nat} {read : Fusion}
    (folded : (body.emit true base).foldlM Fusion.next {} = .ok read)
    (finished : read.finish = .ok fusion) :
    body.Counted ∧ fusion.operations.toList = body.woven.bare ∧
      (fusion.leaf = true ↔ body.Leaf) := by
  obtain ⟨straight, follows⟩ := follows_of_proper proper rfl rfl folded
  simp only [finish] at finished
  split at finished
  · cases finished
  · next counts =>
    split at finished
    · cases finished
    · next repeats =>
      obtain rfl := flush_eq_ok (lift_eq_ok.mp finished)
      simp only [ne_eq, not_or, Decidable.not_not] at counts repeats
      obtain ⟨back, -, total⟩ := counts
      obtain ⟨repeats, apart⟩ := Code.repeats_of_repeatable follows.prints repeats
      have shift : body.shift = 0 := (Int.zero_add _).symm.trans (follows.current.symm.trans back)
      have gain : read.total = body.gain 0 := follows.total.trans (Int.zero_add _)
      refine ⟨⟨straight, shift, ?_, apart, repeats⟩, ?_, ?_⟩
      · rw [← gain]
        exact ofInt_eq_neg_one total
      · exact toList_settled follows.operations follows.current follows.cursor
      · exact follows.leaf.trans (and_iff_right rfl)

/-- What replaces the loop is the text of the region, or of the single `store`. -/
theorem toList_region {body : Code} (counted : body.Counted)
    (operations : fusion.operations.toList = body.woven.bare)
    (leaf : fusion.leaf = true ↔ body.Leaf) (base : Nat) :
    (fusion.region base).toList = body.fuse.emit true base := by
  have written : fusion.operations = body.woven.bare.toArray := Array.toList_inj.mp operations
  have ring : Region.link base ((#[({ opcode := if fusion.leaf then .pushFast else .push } :
      Instruction)] ++ fusion.operations).push { opcode := if fusion.leaf then .popFast else .pop }) =
        ((Code.empty.region (decide body.Leaf) body.woven).emit true base).toArray := by
    have fast : fusion.leaf = decide body.Leaf := by
      rw [Bool.eq_iff_iff, leaf, decide_eq_true_iff]
    rw [← Code.link_bare (Code.Counted.straight_region counted), Code.bare_region, fast, written]
    congr 1
    simp [Code.bare, Code.emit]
  have straight := Code.Counted.straight_woven counted
  rcases body.fuse_cases with ⟨product, sole, opcode, same⟩ | ⟨never, same⟩
  · rw [sole] at straight written
    have alone : fusion.operations = #[product] := by
      rw [written, Code.bare_plain straight.2.2.unlinked]
      rfl
    have lone : fusion.leaf = true := by
      rw [leaf, ← Code.Counted.leaf_woven counted, sole]
      trivial
    rw [same]
    simp [Fusion.region, lone, alone, opcode, Option.filter, Code.emit]
  · have other : (if fusion.leaf ∧ fusion.operations.size = 1 then fusion.operations[0]?
        else none).filter (·.opcode = .multiply) = none := by
      split
      · next single =>
        have one : body.woven.size true = 1 := by
          rw [← Code.length_bare, ← operations]
          exact single.2
        obtain ⟨first, alone⟩ := List.length_eq_one_iff.mp
          ((Code.length_emit true 0 body.woven).trans one)
        have sole := Code.eq_plain_of_emit_eq_singleton alone
        have apart := never first sole
        rw [sole] at straight written
        rw [written, Code.bare_plain straight.2.2.unlinked]
        simpa [Code.bare, Code.emit, Option.filter] using apart
      · rfl
    rw [same, Fusion.region]
    simp only [other, ring]

end Loop.Fusion

/-- **What is accepted is a counted loop.** It is replaced by its region, or by a single `store`. -/
theorem Loop.counted_eq_ok {outers : List Code} {outer body : Code} {text : Text} {start : Nat}
    {edit : Edit} (closed : Closed outers outer body text start) (proper : body.Proper)
    (accepted : counted text start = .ok edit) :
    body.Counted ∧ edit.keep = start ∧ edit.tail.toList = body.fuse.emit true start := by
  simp only [counted, Fusion.ofBody, bind_eq_ok, pure_eq_ok] at accepted
  obtain ⟨fusion, ⟨_, -, read, folded, finished⟩, rfl⟩ := accepted
  rw [Array.foldlM_start_stop, ← Array.foldlM_toList, closed.toList_extract] at folded
  obtain ⟨counts, operations, leaf⟩ := Fusion.counted_of_finish proper folded finished
  exact ⟨counts, rfl, Fusion.toList_region counts operations leaf start⟩

end TapeMachine
