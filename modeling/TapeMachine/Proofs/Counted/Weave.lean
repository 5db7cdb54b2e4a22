/-
**The inside of a region, woven from the body of a counted loop.**

`Code.weave` makes the code that stands inside of the region which replaces a counted loop: plain
additions become products, moves are put off until something has to happen under the head, and nested
regions use the stack.

* `Code.trails_sweep`: on the cells that the body does more with than adding to them, the woven code
  does in one go what the body does in one turn; to every other cell but the counter it adds, times
  the register, what the body adds; it takes no more instructions and gets to no other cells.
-/

import TapeMachine.Proofs.Code.Sweep

namespace TapeMachine

/-! ### Weaving -/

/-- What is woven so far, and where it has the head. -/
structure Woven where
  code : Code := .empty
  cursor : Int := 0

namespace Woven

/-- One more instruction, which leaves the head where it is. -/
def write (woven : Woven) (instruction : Instruction) : Woven :=
  { woven with code := woven.code.plain instruction }

/-- The move that was put off, if there is one. -/
def moveTo (woven : Woven) (target : Int) : Woven :=
  if target = woven.cursor then woven
  else ⟨woven.code.plain { opcode := .move, value := target - woven.cursor }, target⟩

/-- A product added to a cell. -/
def multiply (woven : Woven) (factor target : Int) : Woven :=
  woven.write { opcode := .multiply, value := factor, offset := target - woven.cursor }

@[simp] theorem cursor_write (woven : Woven) (instruction : Instruction) :
    (woven.write instruction).cursor = woven.cursor := rfl

@[simp] theorem cursor_moveTo (woven : Woven) (target : Int) :
    (woven.moveTo target).cursor = target := by
  unfold moveTo
  split
  · next same => exact same.symm
  · rfl

@[simp] theorem cursor_multiply (woven : Woven) (factor target : Int) :
    (woven.multiply factor target).cursor = woven.cursor := rfl

end Woven

/-- The inside of the region that is made of a loop body. -/
def Code.weave : Code → Woven
  | empty => {}
  | plain before instruction =>
    let woven := before.weave
    let here := before.shift
    match instruction.opcode with
    | .move => woven
    | .add => if here = 0 then woven else woven.multiply instruction.value here
    | .multiply => woven.multiply instruction.value (here + instruction.offset)
    | _ => ⟨(woven.moveTo here).code.plain instruction, here + instruction.shift⟩
  | loop before _ => before.weave
  | region before _ body =>
    let woven := before.weave.moveTo before.shift
    let inside := body.weave.moveTo body.shift
    ⟨woven.code.region false inside.code, before.shift + body.shift⟩

/-! ### What the woven code does -/

/-- The move that was put off takes an instruction and gets the head where it belongs. -/
theorem Woven.sweep_moveTo (woven : Woven) (target : Int) (keep : Bool) (register : UInt8)
    (sight : Sight) :
    (woven.moveTo target).code.sweep keep register sight =
      if target = woven.cursor then woven.code.sweep keep register sight
      else ((woven.code.sweep keep register sight).advance (target - woven.cursor)).tick := by
  unfold moveTo
  split <;> rfl

/-- How a code and what is woven from it have fared, from sights with the head on the same cell. The
trail has the head at the `cursor`. -/
structure Trails (kept : Int → Prop) (factor : UInt8) (start other : Sight) (code : Code)
    (cursor : Int) (sight trail : Sight) : Prop where
  here : sight.index = start.index + code.shift
  there : trail.index = start.index + cursor
  /-- The cells that are kept in step are the same. -/
  same : ∀ cell, kept cell → trail.cells cell = sight.cells cell
  /-- The code adds to the others, -/
  free : ∀ cell, ¬ kept cell → sight.cells cell =
    start.cells cell + UInt8.ofInt (code.gain (cell - start.index))
  /-- and what is woven adds the product, except to the counter. -/
  product : ∀ cell, ¬ kept cell → trail.cells cell = other.cells cell +
    if cell = start.index then 0 else factor * UInt8.ofInt (code.gain (cell - start.index))
  /-- A move that was put off is still to be paid for. -/
  cost : trail.cost + (if cursor = code.shift then 0 else 1) ≤ sight.cost
  visited : ∀ cell ∈ trail.visited, cell ∈ sight.visited
  /-- Unless the head has not moved at all, it got to the cell where it is. -/
  standing : cursor = 0 ∧ code.shift = 0 ∨ start.index + code.shift ∈ sight.visited

namespace Trails

variable {kept : Int → Prop} {factor register : UInt8} {start other sight : Sight} {before : Code}
  {instruction : Instruction}

/-- Only a plain addition adds to what a code adds. -/
theorem gain_idle (before : Code) (idle : instruction.opcode ≠ .add) (cell : Int) :
    (before.plain instruction).gain cell = before.gain cell := by
  rw [Code.gain, if_neg fun adds => idle adds.1, Int.add_zero]

/-- What a plain addition adds is added to the cell under the head. -/
theorem gain_add (opcode : instruction.opcode = .add) (cell : Int) :
    (before.plain instruction).gain cell =
      before.gain cell + if cell = before.shift then instruction.value else 0 := by
  simp [Code.gain, opcode]

theorem sweep_add (opcode : instruction.opcode = .add) (register : UInt8) (sight : Sight) :
    instruction.sweep register sight =
      (sight.write (sight.cell + UInt8.ofInt instruction.value)).tick := by
  simp [Instruction.sweep, opcode]

/-- Additions and products leave the head where it is. -/
theorem shift_plain (before : Code) (opcode : instruction.opcode ∈ [.add, .multiply]) :
    (before.plain instruction).shift = before.shift := by
  simp only [List.mem_cons, List.not_mem_nil, or_false] at opcode
  rcases opcode with opcode | opcode <;> simp [Code.shift, Instruction.shift, opcode]

/-- The move that was put off is made. -/
theorem moveTo {woven : Woven}
    (trails : Trails kept factor start other before woven.cursor sight
      (woven.code.sweep true factor other)) :
    Trails kept factor start other before before.shift sight
      ((woven.moveTo before.shift).code.sweep true factor other) := by
  rw [Woven.sweep_moveTo]
  by_cases same : before.shift = woven.cursor
  · rw [if_pos same]
    rwa [← same] at trails
  · rw [if_neg same]
    have cost := trails.cost
    rw [if_neg (Ne.symm same)] at cost
    have there := trails.there
    have target : (woven.code.sweep true factor other).index + (before.shift - woven.cursor) =
        start.index + before.shift := by omega
    refine { trails with
      there := target
      cost := by simpa [Sight.tick, Sight.advance] using cost
      visited := ?_
      standing := ?_ }
    · intro cell member
      rcases List.mem_cons.mp member with rfl | member
      · rw [target]
        exact trails.standing.resolve_left fun still => same (still.2.trans still.1.symm)
      · exact trails.visited cell member
    · exact .inr (trails.standing.resolve_left fun still => same (still.2.trans still.1.symm))

/-- A move of the body is put off. -/
theorem move {cursor : Int} {trail : Sight} (opcode : instruction.opcode = .move)
    (trails : Trails kept factor start other before cursor sight trail) :
    Trails kept factor start other (before.plain instruction) cursor
      (instruction.sweep register sight) trail := by
  have here := trails.here
  have cost := trails.cost
  have shift : (before.plain instruction).shift = before.shift + instruction.value := by
    simp [Code.shift, Instruction.shift, opcode]
  have swept : instruction.sweep register sight = (sight.advance instruction.value).tick := by
    simp [Instruction.sweep, opcode]
  have target : sight.index + instruction.value = start.index + (before.plain instruction).shift := by
    omega
  have gain := gain_idle before (show instruction.opcode ≠ .add by simp [opcode])
  rw [swept]
  refine ⟨target, trails.there, trails.same, ?_, ?_, ?_, ?_, ?_⟩
  · intro cell free
    rw [gain]
    exact trails.free cell free
  · intro cell free
    rw [gain]
    exact trails.product cell free
  · simp only [Sight.tick, Sight.advance]
    split <;> omega
  · exact fun cell member => List.mem_cons_of_mem _ (trails.visited cell member)
  · exact .inr (List.mem_cons.mpr (.inl target.symm))

/-- What is not kept in step is added to by a plain addition. -/
theorem free_add {cursor : Int} {trail : Sight} (opcode : instruction.opcode = .add)
    (trails : Trails kept factor start other before cursor sight trail) {cell : Int}
    (free : ¬ kept cell) :
    (instruction.sweep register sight).cells cell =
      start.cells cell + UInt8.ofInt ((before.plain instruction).gain (cell - start.index)) := by
  have here := trails.here
  have early := trails.free cell free
  rw [gain_add opcode, sweep_add opcode]
  simp only [Sight.tick, Sight.write]
  by_cases under : cell = sight.index
  · have place : cell - start.index = before.shift := by omega
    rw [if_pos place, UInt8.ofInt_add, under, Sight.put_self, Sight.cell, ← under, early,
      UInt8.add_assoc]
  · have place : ¬ cell - start.index = before.shift := by omega
    rw [if_neg place, Int.add_zero, Sight.put_of_ne under, early]

/-- An addition to the counter is left out. -/
theorem count {cursor : Int} {trail : Sight} (opcode : instruction.opcode = .add)
    (counter : before.shift = 0) (away : ¬ kept start.index)
    (trails : Trails kept factor start other before cursor sight trail) :
    Trails kept factor start other (before.plain instruction) cursor
      (instruction.sweep register sight) trail := by
  have here := trails.here
  have cost := trails.cost
  have shift := shift_plain before (show instruction.opcode ∈ [.add, .multiply] by simp [opcode])
  have swept := sweep_add opcode register sight
  refine ⟨?_, trails.there, ?_, fun cell free => trails.free_add opcode free, ?_, ?_, ?_, ?_⟩
  · rw [swept, shift]
    exact here
  · intro cell member
    have elsewhere : cell ≠ sight.index := by
      rintro rfl
      rw [here, counter, Int.add_zero] at member
      exact away member
    rw [swept, trails.same cell member]
    exact (Sight.put_of_ne elsewhere _).symm
  · intro cell free
    rw [trails.product cell free]
    by_cases under : cell = start.index
    · rw [if_pos under, if_pos under]
    · have place : ¬ cell - start.index = before.shift := by omega
      rw [if_neg under, if_neg under, gain_add opcode, if_neg place, Int.add_zero]
  · rw [swept, shift]
    simp only [Sight.tick, Sight.write]
    omega
  · rw [swept]
    exact trails.visited
  · rw [swept, shift]
    exact trails.standing

/-- An addition to another cell becomes a product. -/
theorem add {woven : Woven} (opcode : instruction.opcode = .add) (elsewhere : before.shift ≠ 0)
    (away : ¬ kept (start.index + before.shift))
    (trails : Trails kept factor start other before woven.cursor sight
      (woven.code.sweep true factor other)) :
    Trails kept factor start other (before.plain instruction) woven.cursor
      (instruction.sweep register sight)
      ((woven.multiply instruction.value before.shift).code.sweep true factor other) := by
  have here := trails.here
  have there := trails.there
  have cost := trails.cost
  have shift := shift_plain before (show instruction.opcode ∈ [.add, .multiply] by simp [opcode])
  have swept := sweep_add opcode register sight
  have multiplied : (woven.multiply instruction.value before.shift).code.sweep true factor other =
      ((woven.code.sweep true factor other).addAt (before.shift - woven.cursor)
        (factor * UInt8.ofInt instruction.value)).tick := rfl
  have target : (woven.code.sweep true factor other).index + (before.shift - woven.cursor) =
      sight.index := by omega
  rw [multiplied]
  refine ⟨?_, there, ?_, fun cell free => trails.free_add opcode free, ?_, ?_, ?_, ?_⟩
  · rw [swept, shift]
    exact here
  · intro cell member
    have off : cell ≠ sight.index := by
      rintro rfl
      rw [here] at member
      exact away member
    simp only [swept, Sight.addAt, Sight.tick, Sight.write, target]
    rw [Sight.put_of_ne off, Sight.put_of_ne off, trails.same cell member]
  · intro cell free
    have early := trails.product cell free
    simp only [Sight.addAt, Sight.tick, target]
    by_cases under : cell = sight.index
    · have outside : cell ≠ start.index := by omega
      have place : cell - start.index = before.shift := by omega
      rw [if_neg outside] at early ⊢
      rw [gain_add opcode, if_pos place, UInt8.ofInt_add, under, Sight.put_self, ← under, early]
      grind
    · have place : ¬ cell - start.index = before.shift := by omega
      rw [gain_add opcode, if_neg place, Int.add_zero, Sight.put_of_ne under, early]
  · rw [swept, shift]
    simp only [Sight.tick, Sight.write, Sight.addAt]
    omega
  · have stood : sight.index ∈ sight.visited := by
      rw [here]
      exact trails.standing.resolve_left fun still => elsewhere still.2
    intro cell member
    simp only [Sight.tick, Sight.addAt, target, List.mem_cons] at member
    rw [swept]
    rcases member with rfl | member
    · exact stood
    · exact trails.visited cell member
  · rw [swept, shift]
    exact trails.standing

/-- What is not kept in step is only added to. -/
theorem free_idle {cursor : Int} {trail : Sight} (idle : instruction.opcode ≠ .add)
    (untouched : ∀ cell, ¬ kept cell →
      (instruction.sweep register sight).cells cell = sight.cells cell)
    (trails : Trails kept factor start other before cursor sight trail) {cell : Int}
    (free : ¬ kept cell) :
    (instruction.sweep register sight).cells cell =
      start.cells cell + UInt8.ofInt ((before.plain instruction).gain (cell - start.index)) := by
  rw [untouched cell free, trails.free cell free, gain_idle before idle]

/-- A product of the body stays a product. -/
theorem multiply {woven : Woven} (opcode : instruction.opcode = .multiply)
    (target : kept (start.index + (before.shift + instruction.offset)))
    (trails : Trails kept factor start other before woven.cursor sight
      (woven.code.sweep true factor other)) :
    Trails kept factor start other (before.plain instruction) woven.cursor
      (instruction.sweep factor sight)
      ((woven.multiply instruction.value (before.shift + instruction.offset)).code.sweep true factor
        other) := by
  have here := trails.here
  have there := trails.there
  have cost := trails.cost
  have idle : instruction.opcode ≠ .add := by simp [opcode]
  have shift := shift_plain before (show instruction.opcode ∈ [.add, .multiply] by simp [opcode])
  have swept : instruction.sweep factor sight =
      (sight.addAt instruction.offset (factor * UInt8.ofInt instruction.value)).tick := by
    simp [Instruction.sweep, opcode]
  have multiplied : (woven.multiply instruction.value (before.shift + instruction.offset)).code.sweep
      true factor other = ((woven.code.sweep true factor other).addAt
        (before.shift + instruction.offset - woven.cursor)
        (factor * UInt8.ofInt instruction.value)).tick := rfl
  have place : (woven.code.sweep true factor other).index +
      (before.shift + instruction.offset - woven.cursor) = sight.index + instruction.offset := by
    omega
  have off (cell : Int) (free : ¬ kept cell) : cell ≠ sight.index + instruction.offset := by
    rintro rfl
    rw [here, Int.add_assoc] at free
    exact free target
  rw [multiplied]
  refine ⟨?_, there, ?_, fun cell free => trails.free_idle idle ?_ free, ?_, ?_, ?_, ?_⟩
  · rw [swept, shift]
    exact here
  · intro cell member
    simp only [swept, Sight.addAt, Sight.tick, place]
    by_cases under : cell = sight.index + instruction.offset
    · rw [under] at member ⊢
      rw [Sight.put_self, Sight.put_self, trails.same _ member]
    · rw [Sight.put_of_ne under, Sight.put_of_ne under, trails.same cell member]
  · intro cell free
    rw [swept]
    exact Sight.put_of_ne (off cell free) _
  · intro cell free
    simp only [Sight.addAt, Sight.tick, place, gain_idle before idle]
    rw [Sight.put_of_ne (off cell free), trails.product cell free]
  · rw [swept, shift]
    simp only [Sight.tick, Sight.addAt]
    omega
  · intro cell member
    simp only [Sight.tick, Sight.addAt, place, List.mem_cons] at member
    simp only [swept, Sight.tick, Sight.addAt, List.mem_cons]
    exact member.imp_right (trails.visited cell)
  · rw [swept, shift]
    exact trails.standing.imp_right (List.mem_cons_of_mem _)

/-- A `store`, constant or reset of the body stays as it is. -/
theorem write {trail : Sight} (busy : instruction.opcode ∈ [.store, .set, .reset])
    (sound : instruction.Sound)
    (work : ∀ cell, instruction.Works cell → kept (start.index + (before.shift + cell)))
    (trails : Trails kept factor start other before before.shift sight trail) :
    Trails kept factor start other (before.plain instruction) (before.shift + instruction.shift)
      (instruction.sweep register sight) (instruction.sweep factor trail) := by
  have here := trails.here
  have there := trails.there
  have cost := trails.cost
  have level : trail.index = sight.index := by omega
  have straight : instruction.opcode.IsStraight true := .inl (List.mem_cons_of_mem _ busy)
  have idle : instruction.opcode ≠ .add := by
    rintro opcode
    rw [opcode] at busy
    revert busy
    decide
  have member {cell : Int} (does : instruction.Works (cell - sight.index)) : kept cell := by
    have place : start.index + (before.shift + (cell - sight.index)) = cell := by omega
    exact place ▸ work _ does
  have counter (opcode : instruction.opcode = .store) : trail.cell = sight.cell := by
    rw [Sight.cell, level]
    exact trails.same _ (member (.inr (.inl ⟨opcode, Int.sub_self _⟩)))
  refine ⟨?_, ?_, ?_, fun cell free => trails.free_idle idle ?_ free, ?_, ?_, ?_, ?_⟩
  · rw [Instruction.index_sweep straight, here, Code.shift, Int.add_assoc]
  · rw [Instruction.index_sweep straight, there, Int.add_assoc]
  · exact fun cell member => Instruction.cells_sweep_congr busy level counter _ _
      (trails.same cell member)
  · intro cell free
    exact Instruction.cells_sweep_of_idle straight fun work => free (member work)
  · intro cell free
    rw [gain_idle before idle, ← trails.product cell free]
    refine Instruction.cells_sweep_of_idle straight fun work => free (member ?_)
    rwa [level] at work
  · rw [Instruction.cost_sweep straight, Instruction.cost_sweep straight, Code.shift, if_pos rfl]
    rw [if_pos rfl] at cost
    omega
  · exact Instruction.visited_sweep_congr busy level counter _ _ trails.visited
  · have stood := Instruction.mem_visited_sweep sound straight register sight
    rcases stood with still | moved
    · rw [Code.shift, still, Int.add_zero]
      exact trails.standing.imp_right (Instruction.visited_subset_sweep straight _ _ _)
    · right
      rw [Code.shift, ← Int.add_assoc, ← here]
      exact moved

/-- A nested region that its counter passes over. -/
theorem pass {trail : Sight} {body : Code} {fast : Bool} (back : body.shift = 0)
    (trails : Trails kept factor start other before before.shift sight trail) :
    Trails kept factor start other (before.region fast body) before.shift sight.tick trail.tick := by
  have shift : (before.region fast body).shift = before.shift := by
    rw [Code.shift, back, Int.add_zero]
  have cost := trails.cost
  rw [if_pos rfl] at cost
  refine ⟨shift ▸ trails.here, trails.there, trails.same, trails.free, trails.product, ?_,
    trails.visited, ?_⟩
  · rw [if_pos shift.symm]
    exact Nat.succ_le_succ cost
  · rw [shift]
    exact trails.standing

/-- A nested region is left with its counter at zero on both sides, and with what its body has made
of the other cells. -/
theorem leave {trail inner innerTrail : Sight} {body : Code} {fast : Bool} {held : UInt8}
    (counter : kept (start.index + before.shift)) (back : body.shift = 0)
    (straight : body.Straight true) (stays : ∀ cell ∈ sight.visited, cell ∈ inner.visited)
    (trails : Trails kept factor start other before before.shift sight trail)
    (entered : Trails (fun cell => kept cell ∧ cell ≠ start.index + before.shift) held
      (sight.enter fast) (trail.enter false) body body.shift inner innerTrail) :
    Trails kept factor start other (before.region fast body) before.shift
      (inner.leave true fast) (innerTrail.leave true false) := by
  have here := trails.here
  have level : trail.index = sight.index := trails.there.trans here.symm
  have idle (cell : Int) := Code.gain_eq_zero (Code.not_adds_of_straight straight cell)
  have none : UInt8.ofInt 0 = 0 := rfl
  have shift : (before.region fast body).shift = before.shift := by
    rw [Code.shift, back, Int.add_zero]
  have bodyIndex := entered.here
  have wovenIndex := entered.there
  rw [back, Int.add_zero, Sight.index_enter] at bodyIndex wovenIndex
  have bodyCost := entered.cost
  rw [if_pos rfl] at bodyCost
  refine ⟨?_, ?_, ?_, ?_, ?_, ?_, ?_, ?_⟩
  · rw [Sight.index_leave, bodyIndex, shift, here]
  · rw [Sight.index_leave, wovenIndex, here]
  · intro cell member
    by_cases under : cell = sight.index
    · -- Both leave the counter at zero: the one clears it, the other left it alone.
      have cleared : (inner.leave true fast).cells sight.index = 0 := by
        refine Sight.cells_leave_counter true fast bodyIndex fun _ => ?_
        have early := entered.free sight.index fun member => member.2 here
        rwa [idle, none, UInt8.add_zero] at early
      have emptied : (innerTrail.leave true false).cells trail.index = 0 :=
        Sight.cells_leave_counter true false (wovenIndex.trans level.symm)
          fun fast => absurd fast Bool.false_ne_true
      rw [under, cleared, ← level, emptied]
    · rw [Sight.cells_leave_of_ne true fast (bodyIndex ▸ under),
        Sight.cells_leave_of_ne true false (wovenIndex ▸ under)]
      exact entered.same cell ⟨member, here ▸ under⟩
  · intro cell free
    have off : cell ≠ sight.index := fun under => free (under ▸ here ▸ counter)
    have early := entered.free cell fun member => free member.1
    rw [idle, none, UInt8.add_zero] at early
    rw [Sight.cells_leave_of_ne true fast (bodyIndex ▸ off), early, Sight.cells_enter_of_ne fast off]
    exact trails.free cell free
  · intro cell free
    have off : cell ≠ sight.index := fun under => free (under ▸ here ▸ counter)
    have early := entered.product cell fun member => free member.1
    rw [idle, none, UInt8.mul_zero, ite_self, UInt8.add_zero] at early
    rw [Sight.cells_leave_of_ne true false (wovenIndex ▸ off), early]
    exact trails.product cell free
  · rw [if_pos shift.symm, Sight.cost_leave, Sight.cost_leave]
    exact Nat.succ_le_succ bodyCost
  · rw [Sight.visited_leave, Sight.visited_leave]
    exact entered.visited
  · rw [shift, Sight.visited_leave]
    exact trails.standing.imp_right (stays _)

/-- A nested region is done as well, on the stack. Inside of it all but its counter are kept in step,
since a region without the stack clears the counter at its beginning. -/
theorem region {trail : Sight} {body woven : Code} {fast : Bool}
    (counter : kept (start.index + before.shift)) (back : body.shift = 0)
    (straight : body.Straight true)
    (inside : ∀ (factor : UInt8) (sight trail : Sight), sight.index = start.index + before.shift →
      trail.index = sight.index →
      (∀ cell, kept cell ∧ cell ≠ start.index + before.shift →
        trail.cells cell = sight.cells cell) →
      trail.cost ≤ sight.cost → (∀ cell ∈ trail.visited, cell ∈ sight.visited) →
      Trails (fun cell => kept cell ∧ cell ≠ start.index + before.shift) factor sight trail body
        body.shift (body.sweep true factor sight) (woven.sweep true factor trail))
    (trails : Trails kept factor start other before before.shift sight trail) :
    Trails kept factor start other (before.region fast body) (before.shift + body.shift)
      (if sight.cell = 0 then sight.tick
        else (body.sweep true sight.cell (sight.enter fast)).leave true fast)
      (if trail.cell = 0 then trail.tick
        else (woven.sweep true trail.cell (trail.enter false)).leave true false) := by
  have here := trails.here
  have level : trail.index = sight.index := trails.there.trans here.symm
  have cost := trails.cost
  rw [if_pos rfl] at cost
  have same : trail.cell = sight.cell := by
    rw [Sight.cell, level]
    exact trails.same _ (here ▸ counter)
  rw [back, Int.add_zero, same]
  by_cases zero : sight.cell = 0
  · rw [if_pos zero, if_pos zero]
    exact trails.pass back
  · rw [if_neg zero, if_neg zero]
    have stays := body.visited_subset_sweep straight true sight.cell (sight.enter fast)
    rw [Sight.visited_enter] at stays
    refine trails.leave counter back straight stays
      (inside sight.cell (sight.enter fast) (trail.enter false) ?_ ?_ ?_ ?_ ?_)
    · rw [Sight.index_enter, here]
    · rw [Sight.index_enter, Sight.index_enter, level]
    · rintro cell ⟨member, off⟩
      rw [← here] at off
      rw [Sight.cells_enter_of_ne fast off, Sight.cells_enter_of_ne false (level ▸ off)]
      exact trails.same cell member
    · rw [Sight.cost_enter, Sight.cost_enter]
      exact Nat.succ_le_succ cost
    · rw [Sight.visited_enter, Sight.visited_enter]
      exact trails.visited

end Trails

theorem Code.trails_sweep {inner : Bool} {code : Code} (straight : code.Straight inner)
    {kept : Int → Prop} {start other : Sight} (level : other.index = start.index)
    (same : ∀ cell, kept cell → other.cells cell = start.cells cell)
    (cost : other.cost ≤ start.cost) (visited : ∀ cell ∈ other.visited, cell ∈ start.visited)
    (touched : ∀ cell, code.Touches cell → kept (start.index + cell))
    (added : ∀ cell, code.Adds cell → ¬ kept (start.index + cell)) {register factor : UInt8}
    (agree : inner = true → register = factor) :
    Trails kept factor start other code code.weave.cursor (code.sweep true register start)
      (code.weave.code.sweep true factor other) := by
  induction code generalizing inner kept start other register factor with
  | empty =>
    have none : UInt8.ofInt 0 = 0 := rfl
    refine ⟨(Int.add_zero _).symm, ?_, same, ?_, ?_, cost, visited, .inl ⟨rfl, rfl⟩⟩
    · exact level.trans (Int.add_zero _).symm
    · intro cell _
      rw [gain, none, UInt8.add_zero]
      rfl
    · intro cell _
      rw [gain, none, UInt8.mul_zero, ite_self, UInt8.add_zero]
      rfl
  | plain before instruction ih =>
    obtain ⟨early, opcode, sound⟩ := straight
    have trails := ih early level same cost visited
      (fun cell touches => touched cell (touches_plain.mpr (.inl touches)))
      (fun cell adds => added cell (.inl adds)) agree
    have works (cell : Int) (work : instruction.Works cell) :
        kept (start.index + (before.shift + cell)) := by
      refine touched _ (touches_plain.mpr (.inr ?_))
      rwa [Int.add_comm, Int.add_sub_cancel]
    have put (busy : instruction.opcode ∈ [.store, .set, .reset]) :
        Trails kept factor start other (before.plain instruction)
          (before.shift + instruction.shift)
          (instruction.sweep register (before.sweep true register start)) _ :=
      trails.moveTo.write busy sound works
    rcases instruction with ⟨kind, value, offset, link⟩
    cases kind with
    | move => exact trails.move rfl
    | add =>
      have away := added _ (.inr ⟨rfl, rfl⟩)
      by_cases counter : before.shift = 0
      · rw [counter, Int.add_zero] at away
        simp only [weave, if_pos counter]
        exact trails.count rfl counter away
      · simp only [weave, if_neg counter]
        exact trails.add rfl counter away
    | multiply =>
      cases inner with
      | true => exact agree rfl ▸ trails.multiply rfl (works _ (.inl ⟨.inr rfl, rfl⟩))
      | false => simp [Opcode.IsStraight] at opcode
    | store | set | reset => exact put (by simp)
    | _ => cases inner <;> simp [Opcode.IsStraight] at opcode
  | loop before body _ _ => exact straight.elim
  | region before fast body ihBefore ihBody =>
    obtain ⟨early, -, -, inside, back, alone⟩ := straight
    have trails := (ihBefore early level same cost visited
      (fun cell touches => touched cell (touches_region.mpr (.inl touches)))
      (fun cell adds => added cell adds) agree).moveTo
    refine trails.region (touched _ (touches_region.mpr (.inr (.inl rfl)))) back inside ?_
    intro factor sight trail here level same cost visited
    refine (ihBody inside level same cost visited ?_ ?_ fun _ => rfl).moveTo
    · intro cell touches
      have place : start.index + (before.shift + cell) = sight.index + cell := by omega
      refine ⟨?_, ?_⟩
      · rw [← place]
        refine touched _ (touches_region.mpr (.inr (.inr ?_)))
        rwa [Int.add_comm, Int.add_sub_cancel]
      · intro under
        have zero : cell = 0 := by omega
        exact alone (zero ▸ touches)
    · exact fun cell adds => (not_adds_of_straight inside cell adds).elim

end TapeMachine
