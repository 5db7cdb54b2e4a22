/-
**Texts in which nothing is left to improve.**

Every loop is looked at when it is closed, and never again; what stands next to it in the finished text
may have come later, or come closer when something in between was deleted. Still, no loop and no addition
is left that a pass that was asked for should not have left.

* `Instruction.Apart`: what may stand next to each other;
* `Code.isChain_emit`: in the text of a thorough code everything does;
* `Code.spared_at`: every loop of the text was spared;
* `Code.leaves_at`: what stands where a region without the stack is left;
* `Text.WellFormed.link_eq`: a loop without others inside ends with the next `loopEnd`;
* `Text.Exhausted`: a text in which nothing is left, pass by pass;
* `exhausted_of_assemble`: every finished text is one.
-/

import Mathlib.Data.List.Chain
import TapeMachine.Proofs.Assembly.Thorough
import TapeMachine.Proofs.Assembly.WellFormed

namespace TapeMachine

/-! ### Neighbours -/

/-- The second instruction may stand behind the first. -/
structure Instruction.Apart (passes : Passes) (first second : Instruction) : Prop where
  /-- Loops are not entered on a cell that is known to be zero. -/
  entered : passes .commentBlock = true → second.opcode = .loopStart → first.leavesZero = false
  /-- Additions that can be joined are. -/
  joined : second.opcode = .add → ¬ first.TakesAdd (passes .setFolding)

section Neighbours

variable {passes : Passes} {outermost : Bool} {first second : Instruction}

/-- Only loops and additions care for what stands before them. -/
theorem Instruction.apart_of_other (loop : second.opcode ≠ .loopStart) (add : second.opcode ≠ .add) :
    first.Apart passes second where
  entered _ same := (loop same).elim
  joined same := (add same).elim

/-- The ends of loops and regions are not joined. -/
theorem Instruction.not_takesAdd_of_boundary {instruction : Instruction} {folding : Bool}
    (boundary : instruction.opcode.isBoundary = true) : ¬ instruction.TakesAdd folding := by
  rintro (opcode | ⟨-, opcode | ⟨opcode, -⟩⟩) <;> rw [opcode] at boundary <;> cases boundary

theorem isChain_of_others {rest : List Instruction}
    (others : ∀ instruction ∈ rest, instruction.opcode ≠ .loopStart ∧ instruction.opcode ≠ .add) :
    (first :: rest).IsChain (Instruction.Apart passes) := by
  induction rest generalizing first with
  | nil => exact .singleton _
  | cons second rest ih =>
    obtain ⟨loop, add⟩ := others second (List.mem_cons_self ..)
    exact .cons_cons (Instruction.apart_of_other loop add)
      (ih fun instruction member => others instruction (List.mem_cons_of_mem _ member))

namespace Code

/-- The last instruction of a code, or what stands before it, if it is empty. -/
theorem leavesZero_of_getLast? {code : Code} {base : Nat} {last : Instruction}
    (known : ¬ code.EndsAtZero) (found : last ∈ (first :: code.emit false base).getLast?) :
    last.leavesZero = false ∨ code = .empty ∧ last = first := by
  cases code with
  | empty => exact .inr ⟨rfl, (Option.some.inj found).symm⟩
  | plain before instruction =>
    rw [emit, ← List.cons_append, List.getLast?_concat] at found
    obtain rfl := Option.some.inj found
    exact .inl (Bool.eq_false_iff.mpr known)
  | loop before body => exact (known trivial).elim
  | region before fast body => exact (known trivial).elim

/-- The last instruction inside of a region that comes back to its counter is none that an addition
joins: it would have worked on the counter. -/
theorem not_takesAdd_of_straight {code : Code} {folding : Bool} {before : Code} {last : Instruction}
    (same : code = before.plain last) (straight : code.Straight true) (back : code.shift = 0)
    (alone : ¬ code.Touches 0) : ¬ last.TakesAdd folding := by
  subst same
  have works : ¬ last.Works (0 - before.shift) := fun works => alone (touches_plain.mpr (.inr works))
  have opcode := straight.2.1
  rintro (add | ⟨-, set | ⟨reset, single⟩⟩)
  · rw [add] at opcode
    revert opcode
    decide
  · have here : before.shift = 0 := by simpa [shift, Instruction.shift, set] using back
    exact works (.inr (.inr ⟨_, .inl ⟨set, by rw [here]; rfl, rfl⟩⟩))
  · have here : before.shift = 0 := by simpa [shift, Instruction.shift, reset, single] using back
    refine works (.inr (.inr ⟨0, .inr ⟨reset, ?_, rfl⟩⟩))
    simp [here, Instruction.distances, single]

/-- An addition joins the last instruction of a text only if it joins that of the code. -/
theorem not_takesAdd_of_getLast? {code : Code} {base : Nat} {last : Instruction} {folding : Bool}
    (proper : code.Proper) (apart : ¬ code.TakesAdd folding) (start : ¬ first.TakesAdd folding)
    (found : last ∈ (first :: code.emit false base).getLast?) : ¬ last.TakesAdd folding := by
  cases code with
  | empty =>
    obtain rfl := Option.some.inj found
    exact start
  | plain before instruction =>
    rw [emit, ← List.cons_append, List.getLast?_concat] at found
    obtain rfl := Option.some.inj found
    exact apart
  | loop before body =>
    rw [emit, ← List.cons_append, ← List.cons_append, ← List.append_assoc,
      List.getLast?_concat] at found
    obtain rfl := Option.some.inj found
    exact Instruction.not_takesAdd_of_boundary rfl
  | region before fast body =>
    cases fast with
    | false =>
      rw [emit, ← List.cons_append, ← List.cons_append, ← List.append_assoc] at found
      obtain rfl := Option.some.inj (List.getLast?_concat .. ▸ found)
      exact Instruction.not_takesAdd_of_boundary rfl
    | true =>
      obtain ⟨-, leaf, straight, back, alone⟩ := proper
      rw [emit, ← List.cons_append, List.getLast?_append_cons,
        show regionEnd false true (base + before.size false) = [] from rfl, List.append_nil] at found
      cases body with
      | empty =>
        obtain rfl := Option.some.inj found
        exact Instruction.not_takesAdd_of_boundary rfl
      | plain inner instruction =>
        rw [emit, ← List.cons_append, List.getLast?_concat] at found
        obtain rfl := Option.some.inj found
        exact not_takesAdd_of_straight rfl straight back alone
      | loop inner body => exact straight.elim
      | region inner fast body => exact (leaf rfl).elim

/-- **In the text of a thorough code all neighbours may stand next to each other**, also behind an
instruction that could stand there. -/
theorem isChain_emit {code : Code} {base : Nat} (proper : code.Proper)
    (thorough : code.Thorough passes outermost) (start : ¬ first.TakesAdd (passes .setFolding))
    (zero : outermost = false → first.leavesZero = false) :
    (first :: code.emit false base).IsChain (Instruction.Apart passes) := by
  induction code generalizing first base outermost with
  | empty => exact .singleton _
  | plain before last ih =>
    have opcode := proper.2.1
    refine (ih proper.1 thorough.1 start zero).append (.singleton _) ?_
    rintro previous found _ ⟨⟩
    refine ⟨fun _ loop => ?_, fun add => ?_⟩
    · rw [loop] at opcode
      exact absurd opcode (by decide)
    · exact not_takesAdd_of_getLast? proper.1 (thorough.2 add) start found
  | loop before body ihBefore ihBody =>
    obtain ⟨early, inside, spared⟩ := thorough
    refine (ihBefore proper.1 early start zero).append ?_ ?_
    · have inner (link : Nat) : (({ opcode := .loopStart, link := link } : Instruction) ::
          body.emit false (base + before.size false + 1)).IsChain (Instruction.Apart passes) :=
        ihBody proper.2 inside (Instruction.not_takesAdd_of_boundary rfl) fun _ => rfl
      refine (inner _).append (.singleton _) ?_
      rintro previous - _ ⟨⟩
      exact Instruction.apart_of_other nofun nofun
    · rintro previous found _ ⟨⟩
      refine ⟨fun enabled _ => ?_, nofun⟩
      obtain ⟨known, inner⟩ := spared.entered enabled
      rcases leavesZero_of_getLast? known found with unknown | ⟨empty, rfl⟩
      · exact unknown
      · exact zero (Bool.eq_false_iff.mpr fun outer => inner ⟨outer, empty⟩)
  | region before fast body ihBefore _ =>
    refine (ihBefore proper.1 thorough start zero).append (isChain_of_others ?_) ?_
    · intro instruction member
      rcases List.mem_append.mp member with inner | ended
      · have regional := regional_of_mem_emit proper.2.2.1 inner
        constructor <;> intro same <;> rw [same] at regional <;> exact absurd regional (by decide)
      · cases fast with
        | true => cases ended
        | false =>
          obtain rfl := List.mem_singleton.mp ended
          exact ⟨nofun, nofun⟩
    · rintro previous - _ ⟨⟩
      cases fast <;> exact Instruction.apart_of_other nofun nofun

/-! ### Loops and regions of a text -/

section Places

variable {code : Code} {text : Text} {base position : Nat} (proper : code.Proper)
  (thorough : code.Thorough passes outermost) (carried : Carries text base (code.emit false base))
  (lower : base ≤ position) (upper : position < base + code.size false)

include proper thorough carried lower upper

/-- Every loop of the text was spared. -/
theorem spared_at {start : Instruction} (found : text[position]? = some start)
    (opcode : start.opcode = .loopStart) :
    ∃ first outer body, Spared passes first outer body ∧
      Carries text (position + 1) (body.emit false (position + 1)) ∧
      start.link = position + 1 + body.size false := by
  induction code generalizing base outermost with
  | empty => exact absurd upper (Nat.not_lt.mpr lower)
  | plain before last ih =>
    rcases place_plain carried upper found with early | rfl
    · exact ih proper.1 thorough.1 carried.append_left lower early
    · have plain := proper.2.1
      rw [opcode] at plain
      exact absurd plain (by decide)
  | loop before body ihBefore ihBody =>
    obtain ⟨early, inside, spared⟩ := thorough
    obtain ⟨behind, opening, inner, closing⟩ := carries_loop carried
    rcases place_cases upper with prior | rfl | ⟨low, high⟩ | rfl
    · exact ihBefore proper.1 early behind lower prior
    · obtain rfl := Option.some.inj (opening.symm.trans found)
      exact ⟨_, _, _, spared, inner, rfl⟩
    · exact ihBody proper.2 inside inner low high
    · obtain rfl := Option.some.inj (closing.symm.trans found)
      cases opcode
  | region before fast body ihBefore _ =>
    rcases place_region carried upper found with early | ⟨-, opener⟩ | ⟨inner, low, high⟩ | pop
    · exact ihBefore proper.1 thorough carried.append_left lower early
    · cases fast <;> cases opcode.symm.trans opener
    · have member := inner.mem low (by rwa [length_emit]) found
      have regional := regional_of_mem_emit proper.2.2.1 member
      rw [opcode] at regional
      exact absurd regional (by decide)
    · cases opcode.symm.trans pop

/-- A region without the stack is left at the end of the code, which tells then that the cell is zero, or
where no loop begins. -/
theorem leaves_at (enabled : passes .commentBlock = true) {region : Instruction}
    (found : text[position]? = some region) (opcode : region.opcode = .pushFast) :
    region.link + 1 = base + code.size false ∧ code.EndsAtZero ∨
      ∃ next, text[region.link + 1]? = some next ∧ next.opcode ≠ .loopStart := by
  induction code generalizing base outermost with
  | empty => exact absurd upper (Nat.not_lt.mpr lower)
  | plain before last ih =>
    obtain ⟨behind, here⟩ := carries_plain carried
    have plain := proper.2.1
    rcases place_plain carried upper found with early | rfl
    · rcases ih proper.1 thorough.1 behind lower early with ⟨place, -⟩ | away
      · refine .inr ⟨last, place ▸ here, fun loop => ?_⟩
        rw [loop] at plain
        exact absurd plain (by decide)
      · exact .inr away
    · rw [opcode] at plain
      exact absurd plain (by decide)
  | loop before body ihBefore ihBody =>
    obtain ⟨early, inside, spared⟩ := thorough
    obtain ⟨behind, opening, inner, closing⟩ := carries_loop carried
    rcases place_cases upper with prior | rfl | ⟨low, high⟩ | rfl
    · rcases ihBefore proper.1 early behind lower prior with ⟨-, zero⟩ | away
      · exact ((spared.entered enabled).1 zero).elim
      · exact .inr away
    · obtain rfl := Option.some.inj (opening.symm.trans found)
      cases opcode
    · rcases ihBody proper.2 inside inner low high with ⟨place, -⟩ | away
      · refine .inr ⟨_, place ▸ closing, ?_⟩
        exact nofun
      · exact .inr away
    · obtain rfl := Option.some.inj (closing.symm.trans found)
      cases opcode
  | region before fast body ihBefore _ =>
    obtain ⟨behind, here, -⟩ := carries_region carried
    rcases place_region carried upper found with early | ⟨place, start⟩ | ⟨inner, low, high⟩ | pop
    · rcases ihBefore proper.1 thorough behind lower early with ⟨place, -⟩ | away
      · refine .inr ⟨_, place ▸ here, ?_⟩
        cases fast <;> exact nofun
      · exact .inr away
    · subst place
      obtain rfl := Option.some.inj (here.symm.trans found)
      cases fast with
      | false => cases opcode
      | true =>
        refine .inl ⟨?_, trivial⟩
        simp only [regionStart, size, regionEnd]
        simp
        omega
    · have member := inner.mem low (by rwa [length_emit]) found
      have regional := regional_of_mem_emit proper.2.2.1 member
      rw [opcode] at regional
      exact absurd regional (by decide)
    · cases opcode.symm.trans pop

end Places

end Code

end Neighbours

/-- A loop without others inside ends where the next `loopEnd` stands. -/
theorem Text.WellFormed.link_eq {text : Text} (wellFormed : text.WellFormed) {start stop : Nat}
    {first last : Instruction} (order : start < stop) (begins : text[start]? = some first)
    (opens : first.opcode = .loopStart) (ends : text[stop]? = some last)
    (closes : last.opcode = .loopEnd)
    (alone : ∀ position (instruction : Instruction), start < position → position < stop →
      text[position]? = some instruction →
        instruction.opcode ≠ .loopStart ∧ instruction.opcode ≠ .loopEnd) : first.link = stop := by
  have outer := (wellFormed.paired start first begins).1 (by simp [opens])
  have inner := (wellFormed.paired stop last ends).2 (by simp [closes])
  obtain ⟨before, opening, closing, here, there, opcodes, -⟩ := id inner
  obtain rfl := Option.some.inj (there.symm.trans ends)
  have loop : opening.opcode = .loopStart := by
    rcases opcodes with ⟨opcode, -⟩ | ⟨-, opcode⟩
    · exact opcode
    · cases closes.symm.trans opcode
  rcases Nat.lt_trichotomy closing.link start with early | same | late
  · -- The loop that ends at `stop` is around the one that begins at `start`.
    have within := wellFormed.nested _ _ _ _ inner outer early order
    obtain ⟨after, other, finish, opened, closed, kinds, -⟩ := id outer
    obtain rfl := Option.some.inj (opened.symm.trans begins)
    rcases kinds with ⟨-, opcode⟩ | ⟨opcode, -⟩
    · exact ((alone _ _ after within closed).2 opcode).elim
    · cases opens.symm.trans opcode
  · rw [same] at inner
    exact (inner.begins begins).2
  · exact ((alone _ _ late before here).1 loop).elim

/-! ### Texts -/

/-- Nothing is left in the text that a pass that was asked for would have improved. -/
structure Text.Exhausted (passes : Passes) (text : Text) : Prop where
  /-- No loop begins at the start of the text, nor where a region without the stack is left, -/
  entered : passes .commentBlock = true → ∀ position (start : Instruction),
    text[position]? = some start → start.opcode = .loopStart →
      position ≠ 0 ∧ ∀ region ∈ text, region.opcode = .pushFast → position ≠ region.link + 1
  /-- nor behind an instruction that leaves a zero. -/
  unknown : passes .commentBlock = true → ∀ previous start : Instruction,
    [previous, start] <:+: text.toList → start.opcode = .loopStart →
      previous.opcode ∉ [.loopEnd, .reset, .seek, .store, .pop] ∧
        ¬ (previous.opcode = .set ∧ previous.value % 256 = 0)
  /-- No loop only adds an odd number. -/
  cleared : passes .reset = true → ∀ start step stop : Instruction,
    [start, step, stop] <:+: text.toList → start.opcode = .loopStart → stop.opcode = .loopEnd →
      ¬ (step.opcode = .add ∧ step.value % 2 = 1)
  /-- No loop only moves once. -/
  sought : passes .seek = true → ∀ start step stop : Instruction,
    [start, step, stop] <:+: text.toList → start.opcode = .loopStart → stop.opcode = .loopEnd →
      step.opcode ≠ .move
  /-- No loop is without a body. -/
  filled : passes .emptyLoop = true → ∀ start stop : Instruction,
    [start, stop] <:+: text.toList → start.opcode = .loopStart → stop.opcode ≠ .loopEnd
  /-- No loop only moves and adds, comes back and counts down. -/
  counted : passes .multiplication = true → ∀ (start stop : Instruction) (body : List Instruction),
    start :: (body ++ [stop]) <:+: text.toList → start.opcode = .loopStart →
      stop.opcode = .loopEnd → Loop.OnlyAdds body → ¬ Loop.CountsDown body
  /-- No addition stands behind a constant, or behind a reset of one cell. -/
  folded : passes .setFolding = true → ∀ previous addition : Instruction,
    [previous, addition] <:+: text.toList → addition.opcode = .add →
      previous.opcode ≠ .set ∧ ¬ (previous.opcode = .reset ∧ previous.value = 1)
  /-- No addition stands behind another one, whatever was asked for. -/
  joined : ∀ first second : Instruction, [first, second] <:+: text.toList →
    ¬ (first.opcode = .add ∧ second.opcode = .add)

/-- A multiple of 256 is a zero. -/
theorem ofInt_eq_zero {value : Int} (none : value % 256 = 0) : UInt8.ofInt value = 0 := by
  have whole : value = 256 * (value / 256) := by omega
  have zero : UInt8.ofInt 256 = 0 := rfl
  rw [whole, UInt8.ofInt_mul, zero, UInt8.zero_mul]

section Finished

variable {passes : Passes} {code : Code} {text : Text} (proper : code.Proper)
  (thorough : code.Thorough passes true) (written : text.toList = code.emit false 0 ++ [.final])

include proper thorough written

/-- A loop that only moves and adds is one that was spared. -/
theorem spared_of_stretch (body : List Instruction) {start stop : Instruction}
    (within : start :: (body ++ [stop]) <:+: text.toList) (opens : start.opcode = .loopStart)
    (closes : stop.opcode = .loopEnd) (simple : Loop.OnlyAdds body) :
    ∃ first outer inner, Spared passes first outer inner ∧
      ∀ base, inner.emit true base = body := by
  obtain ⟨before, after, whole⟩ := within
  have stretch : Carries text before.length (start :: (body ++ [stop])) :=
    ⟨after, by rw [← whole, List.append_assoc, List.drop_left]⟩
  have begins := stretch.getElem?
  have inside := stretch.tail.append_left
  have ends := stretch.tail.append_right.getElem?
  obtain ⟨carried, size, -⟩ := Code.carries_of_written written
  have link : start.link = before.length + 1 + body.length := by
    refine (wellFormed_of_emit proper written).link_eq (by omega) begins opens ends closes ?_
    intro position instruction after before found
    rcases simple _ (inside.mem after before found) with opcode | opcode <;> rw [opcode] <;> decide
  have upper := (Array.getElem?_eq_some_iff.mp ends).1
  obtain ⟨first, outer, inner, spared, fits, jump⟩ :=
    Code.spared_at proper thorough carried (Nat.zero_le _) (by omega) begins opens
  have length : body.length = (inner.emit false (before.length + 1)).length := by
    rw [Code.length_emit]
    omega
  have same : body = inner.emit false (before.length + 1) :=
    (List.prefix_of_prefix_length_le inside fits (Nat.le_of_eq length)).eq_of_length length
  exact ⟨first, outer, inner, spared, fun base =>
    (Code.emit_of_onlyAdds (same ▸ simple) true base).trans same.symm⟩

/-- All neighbours may stand next to each other, and the start is on a cell that is zero, as behind a
`seek`. -/
theorem isChain_of_written :
    (({ opcode := .seek } : Instruction) :: text.toList).IsChain (Instruction.Apart passes) := by
  have chain : (({ opcode := .seek } : Instruction) :: code.emit false 0).IsChain
      (Instruction.Apart passes) :=
    Code.isChain_emit proper thorough (by simp [Instruction.TakesAdd]) nofun
  rw [written, ← List.cons_append]
  refine chain.append (.singleton _) ?_
  rintro previous - _ ⟨⟩
  exact Instruction.apart_of_other nofun nofun

/-- What stands next to each other may do so. -/
theorem apart_of_neighbours {first second : Instruction} (within : [first, second] <:+: text.toList) :
    first.Apart passes second := by
  have chain := (isChain_of_written proper thorough written).tail
  exact List.isChain_pair.mp <| List.IsChain.infix chain within

/-- No region without the stack is left to where a loop begins. -/
theorem ne_succ_link (enabled : passes .commentBlock = true) {position : Nat}
    {start region : Instruction} (found : text[position]? = some start)
    (opcode : start.opcode = .loopStart) (member : region ∈ text)
    (fast : region.opcode = .pushFast) : position ≠ region.link + 1 := by
  rintro rfl
  obtain ⟨carried, size, last⟩ := Code.carries_of_written written
  obtain ⟨place, there⟩ := Array.mem_iff_getElem?.mp member
  have inside : place < 0 + code.size false := by
    have upper := (Array.getElem?_eq_some_iff.mp there).1
    by_contra final
    obtain rfl : place = code.size false := by omega
    obtain rfl := Option.some.inj (last.symm.trans there)
    cases fast
  rcases Code.leaves_at proper thorough carried (Nat.zero_le _) inside enabled there fast with
    ⟨behind, -⟩ | ⟨next, here, other⟩
  · rw [behind, Nat.zero_add, last] at found
    obtain rfl := Option.some.inj found
    cases opcode
  · obtain rfl := Option.some.inj (here.symm.trans found)
    exact other opcode

/-- The finished text of a thorough code is exhausted. -/
theorem exhausted_of_emit : text.Exhausted passes where
  entered enabled position start found opcode := by
    refine ⟨?_, fun region => ne_succ_link proper thorough written enabled found opcode⟩
    rintro rfl
    have first : start ∈ text.toList.head? := by
      rw [List.head?_eq_getElem?, Array.getElem?_toList]
      exact found
    have chain := isChain_of_written proper thorough written
    cases ((List.isChain_cons.mp chain).1 start first).entered enabled opcode
  unknown enabled previous start within opcode := by
    have zero := (apart_of_neighbours proper thorough written within).entered enabled opcode
    unfold Instruction.leavesZero at zero
    constructor
    · intro member
      simp only [List.mem_cons, List.not_mem_nil, or_false] at member
      rcases member with same | same | same | same | same <;> simp [same] at zero
    · rintro ⟨same, none⟩
      simp [same, ofInt_eq_zero none] at zero
  cleared enabled start step stop within opens closes := by
    rintro ⟨add, odd⟩
    obtain ⟨first, outer, inner, spared, same⟩ :=
      spared_of_stretch proper thorough written [step] within opens closes
        (by simp [Loop.OnlyAdds, add])
    have even := spared.cleared enabled step (Code.eq_plain_of_emit_eq_singleton (same 0))
    simp [Loop.addsOdd, add, odd] at even
  sought enabled start step stop within opens closes := by
    intro move
    obtain ⟨first, outer, inner, spared, same⟩ :=
      spared_of_stretch proper thorough written [step] within opens closes
        (by simp [Loop.OnlyAdds, move])
    exact spared.sought enabled step (Code.eq_plain_of_emit_eq_singleton (same 0)) move
  filled enabled start stop within opens closes := by
    obtain ⟨first, outer, inner, spared, same⟩ :=
      spared_of_stretch proper thorough written [] within opens closes (by simp [Loop.OnlyAdds])
    exact spared.filled enabled (Code.emit_eq_nil_iff.mp (same 0))
  counted enabled start stop body within opens closes simple counts := by
    obtain ⟨first, outer, inner, spared, same⟩ :=
      spared_of_stretch proper thorough written body within opens closes simple
    have still := spared.counted enabled 0
    rw [same 0] at still
    exact still simple counts
  folded enabled previous addition within opcode := by
    have apart := (apart_of_neighbours proper thorough written within).joined opcode
    exact ⟨fun set => apart (.inr ⟨enabled, .inl set⟩),
      fun reset => apart (.inr ⟨enabled, .inr reset⟩)⟩
  joined first second within := by
    rintro ⟨add, also⟩
    exact (apart_of_neighbours proper thorough written within).joined also (.inl add)

end Finished

/-- **Nothing is left to improve** in any assembled text, whatever was asked for: where a pass was, there is
no loop any more that is known not to be entered, that clears its cell, looks for a zero, does nothing, or
only adds and counts down, and no addition that would join what stands before it. -/
theorem exhausted_of_assemble {passes : Passes} {source : Source} {assembly : Assembly}
    (assembled : assemble passes source = .ok assembly) : assembly.text.Exhausted passes := by
  obtain ⟨code, reached, written⟩ := code_of_assembled assembled
  exact exhausted_of_emit reached.proper.1 reached.thorough.1 written

/-- A loop that stays, one that is deleted behind it, and a constant. -/
theorem kept_loop_exhausted :
    let source : Source := ['+', '[', '>', '+', '.', '<', '-', ']', '[', '-', ']', '>', '[', '-', ']',
      '+'].map Char.toUInt8
    ∃ assembly, assemble Passes.all source = .ok assembly ∧
      assembly.text.map (·.opcode) = #[.add, .loopStart, .move, .add, .output, .move, .add, .loopEnd,
        .move, .set, .stop] ∧
        assembly.text.Exhausted Passes.all := by
  intro source
  have text : (assemble Passes.all source).toOption.map (fun assembly =>
      assembly.text.map (·.opcode)) = some #[.add, .loopStart, .move, .add, .output, .move, .add,
        .loopEnd, .move, .set, .stop] := by
    decide +kernel
  obtain ⟨assembly, found, opcodes⟩ := Option.map_eq_some_iff.mp text
  have assembled := toOption_eq_some.mp found
  exact ⟨assembly, assembled, opcodes, exhausted_of_assemble assembled⟩

end TapeMachine
