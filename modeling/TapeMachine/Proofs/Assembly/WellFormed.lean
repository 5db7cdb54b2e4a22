/-
**Well-formed texts.**

* `Text.Pair`: the two ends of a loop or of a region on the stack, linked to each other;
* `Text.WellFormed`: a text ends with its only `stop`, its pairs are nested, regions hold what may
  stand in them, products stand in regions, and operands are such as are written;
* `Text.Sits`: a stretch of text that keeps its loops and regions to itself;
* `Code.place_plain`, `Code.place_loop`, `Code.place_region`: where a position is in the stretch of a
  code;
* `Code.regional_of_mem_emit`: what stands inside of a region;
* `wellFormed_of_emit`: the finished text of every code that is made as drafts are is well-formed;
* `Text.WellFormed.never_overrun`: no run of a well-formed text leaves it;
* `wellFormed_of_assemble`: so the text of an assembled source is well-formed and never left.
-/

import TapeMachine.Proofs.Assembly.Finished

namespace TapeMachine

/-! ### What is well-formed -/

/-- The opcodes that stand in a region besides the ends of others. -/
def Opcode.regional : List Opcode := [.move, .multiply, .store, .set, .reset]

/-- The operands of an instruction in a finished text: no move, addition or search is by nothing, and a
reset clears at least one cell, without a stride if it is one and else with a stride of one. -/
structure Instruction.Written (instruction : Instruction) : Prop where
  opcode : instruction.opcode ≠ .popFast ∧ instruction.opcode ≠ .nop
  moving : instruction.opcode ∈ [.move, .add, .seek] → instruction.value ≠ 0
  clearing : instruction.opcode = .reset → 1 ≤ instruction.value ∧
    (instruction.offset = 0 ↔ instruction.value = 1) ∧
    (instruction.value ≠ 1 → instruction.offset = 1 ∨ instruction.offset = -1)

namespace Text

/-- The ends of a loop, or of a region on the stack, each linked to the other. -/
structure Pair (text : Text) (start stop : Nat) : Prop where
  order : start < stop
  ends : ∃ opening closing, text[start]? = some opening ∧ text[stop]? = some closing ∧
    (opening.opcode = .loopStart ∧ closing.opcode = .loopEnd ∨
      opening.opcode = .push ∧ closing.opcode = .pop) ∧ opening.link = stop ∧ closing.link = start

/-- The position is inside of a region. -/
def InRegion (text : Text) (position : Nat) : Prop :=
  ∃ start region, text[start]? = some region ∧ start < position ∧
    (region.opcode = .push ∧ text.Pair start region.link ∧ position < region.link ∨
      region.opcode = .pushFast ∧ position ≤ region.link)

/-- What every finished text is like. -/
structure WellFormed (text : Text) : Prop where
  /-- The only `stop` is the last instruction. -/
  stops : ∃ before, text.toList = before ++ [.final] ∧
    ∀ instruction ∈ before, instruction.opcode ≠ .stop
  /-- The ends of loops and of regions on the stack come in pairs, -/
  paired : ∀ position (instruction : Instruction), text[position]? = some instruction →
    (instruction.opcode ∈ [.loopStart, .push] → text.Pair position instruction.link) ∧
      (instruction.opcode ∈ [.loopEnd, .pop] → text.Pair instruction.link position)
  /-- which are nested. -/
  nested : ∀ start stop inner other, text.Pair start stop → text.Pair inner other →
    start < inner → inner < stop → other < stop
  /-- A region without the stack holds no other region. -/
  fast : ∀ start (region : Instruction), text[start]? = some region → region.opcode = .pushFast →
    start ≤ region.link ∧ region.link + 1 < text.size ∧
      ∀ position (instruction : Instruction), start < position → position ≤ region.link →
        text[position]? = some instruction → instruction.opcode ∈ Opcode.regional
  /-- A region on the stack may hold others on the stack. -/
  stacked : ∀ start (region : Instruction), text[start]? = some region → region.opcode = .push →
    ∀ position (instruction : Instruction), start < position → position < region.link →
      text[position]? = some instruction → instruction.opcode ∈ Opcode.regional ++ [.push, .pop]
  /-- Products need a register. -/
  multiplied : ∀ position (product : Instruction), text[position]? = some product →
    product.opcode = .multiply → text.InRegion position
  written : ∀ instruction ∈ text, instruction.Written

/-! ### Stretches -/

/-- What an instruction says about loops and regions holds, and they do not leave the positions from
`low` to `high`. -/
structure SitsAt (text : Text) (low high position : Nat) (instruction : Instruction) : Prop where
  starts : instruction.opcode ∈ [.loopStart, .push] →
    instruction.link < high ∧ text.Pair position instruction.link ∧
      ∀ inner other, text.Pair inner other → position < inner → inner < instruction.link →
        other < instruction.link
  stops : instruction.opcode ∈ [.loopEnd, .pop] →
    low ≤ instruction.link ∧ text.Pair instruction.link position
  fast : instruction.opcode = .pushFast → position ≤ instruction.link ∧ instruction.link < high ∧
    ∀ inner (other : Instruction), position < inner → inner ≤ instruction.link →
      text[inner]? = some other → other.opcode ∈ Opcode.regional
  stacked : instruction.opcode = .push → ∀ inner (other : Instruction), position < inner →
    inner < instruction.link → text[inner]? = some other →
      other.opcode ∈ Opcode.regional ++ [.push, .pop]

/-- The positions from `low` to `high` keep their loops and regions to themselves. -/
def Sits (text : Text) (low high : Nat) : Prop :=
  ∀ position (instruction : Instruction), low ≤ position → position < high →
    text[position]? = some instruction → text.SitsAt low high position instruction

section Stretches

variable {text : Text} {low middle high : Nat}

/-- The beginning of a pair determines its end. -/
theorem Pair.begins {start stop : Nat} (pair : text.Pair start stop) {instruction : Instruction}
    (found : text[start]? = some instruction) :
    instruction.opcode ∈ [.loopStart, .push] ∧ instruction.link = stop := by
  obtain ⟨-, opening, closing, here, -, opcodes, link, -⟩ := pair
  obtain rfl := Option.some.inj (here.symm.trans found)
  refine ⟨?_, link⟩
  rcases opcodes with ⟨opcode, -⟩ | ⟨opcode, -⟩ <;> simp [opcode]

theorem SitsAt.mono {position : Nat} {instruction : Instruction} {lower higher : Nat}
    (sits : text.SitsAt low high position instruction) (below : lower ≤ low) (above : high ≤ higher) :
    text.SitsAt lower higher position instruction where
  starts opcode := (sits.starts opcode).imp_left fun less => Nat.lt_of_lt_of_le less above
  stops opcode := (sits.stops opcode).imp_left (Nat.le_trans below)
  fast opcode := (sits.fast opcode).imp_right
    (And.imp_left fun less => Nat.lt_of_lt_of_le less above)
  stacked := sits.stacked

theorem sits_self (text : Text) (low : Nat) : Sits text low low :=
  fun _ _ _ _ => by omega

theorem Sits.append (first : Sits text low middle) (second : Sits text middle high)
    (below : low ≤ middle) (above : middle ≤ high) : Sits text low high := by
  intro position instruction lower upper found
  by_cases early : position < middle
  · exact (first position instruction lower early found).mono (Nat.le_refl _) above
  · exact (second position instruction (by omega) upper found).mono below (Nat.le_refl _)

/-- An instruction that stands on its own. -/
theorem sits_single {instruction : Instruction} (found : text[low]? = some instruction)
    (unlinked : instruction.opcode.isBoundary = false) : Sits text low (low + 1) := by
  intro position other lower upper there
  obtain rfl : position = low := by omega
  obtain rfl := Option.some.inj (found.symm.trans there)
  have plain : instruction.opcode ∉ [.loopStart, .loopEnd, .push, .pushFast, .pop, .popFast] := by
    rw [← Opcode.isBoundary_iff, unlinked]
    exact Bool.false_ne_true
  simp only [List.mem_cons, List.not_mem_nil, or_false, not_or] at plain
  constructor <;> simp [plain]

/-- A pair around a stretch. -/
theorem Sits.enclose (inside : Sits text (low + 1) high) (pair : text.Pair low high)
    (stacked : ∀ (region : Instruction), text[low]? = some region → region.opcode = .push →
      ∀ position (instruction : Instruction), low < position → position < high →
        text[position]? = some instruction →
          instruction.opcode ∈ Opcode.regional ++ [.push, .pop]) :
    Sits text low (high + 1) := by
  intro position instruction lower upper found
  obtain ⟨-, opening, closing, first, last, opcodes, link, back⟩ := id pair
  by_cases start : position = low
  · subst start
    obtain rfl := Option.some.inj (first.symm.trans found)
    constructor
    · intro _
      rw [link]
      refine ⟨Nat.lt_succ_self _, pair, fun inner other nested after before => ?_⟩
      obtain ⟨-, begun, -, there, -⟩ := id nested
      obtain ⟨opcode, same⟩ := nested.begins there
      exact same ▸ ((inside inner begun after before there).starts opcode).1
    · rcases opcodes with ⟨opcode, -⟩ | ⟨opcode, -⟩ <;> simp [opcode]
    · rcases opcodes with ⟨opcode, -⟩ | ⟨opcode, -⟩ <;> simp [opcode]
    · rw [link]
      exact stacked opening first
  · by_cases stop : position = high
    · subst stop
      obtain rfl := Option.some.inj (last.symm.trans found)
      constructor
      · rcases opcodes with ⟨-, opcode⟩ | ⟨-, opcode⟩ <;> simp [opcode]
      · intro _
        rw [back]
        exact ⟨Nat.le_refl _, pair⟩
      · rcases opcodes with ⟨-, opcode⟩ | ⟨-, opcode⟩ <;> simp [opcode]
      · rcases opcodes with ⟨-, opcode⟩ | ⟨-, opcode⟩ <;> simp [opcode]
    · exact (inside position instruction (by omega) (by omega) found).mono (Nat.le_succ _)
        (Nat.le_succ _)

/-- A region without the stack, and without its idle end, around a stretch. -/
theorem Sits.enter (inside : Sits text (low + 1) (high + 1)) (above : low ≤ high)
    {region : Instruction} (first : text[low]? = some region) (opcode : region.opcode = .pushFast)
    (link : region.link = high)
    (held : ∀ position (instruction : Instruction), low < position → position ≤ high →
      text[position]? = some instruction → instruction.opcode ∈ Opcode.regional) :
    Sits text low (high + 1) := by
  intro position instruction lower upper found
  by_cases start : position = low
  · subst start
    obtain rfl := Option.some.inj (first.symm.trans found)
    constructor
    · simp [opcode]
    · simp [opcode]
    · intro _
      rw [link]
      exact ⟨above, Nat.lt_succ_self _, held⟩
    · simp [opcode]
  · exact (inside position instruction (by omega) upper found).mono (Nat.le_succ _) (Nat.le_refl _)

end Stretches

end Text

/-! ### The text of a code -/

theorem Carries.mem {α : Type} {text : Array α} {base position : Nat} {stretch : List α}
    (carried : Carries text base stretch) (lower : base ≤ position)
    (upper : position < base + stretch.length) {item : α} (found : text[position]? = some item) :
    item ∈ stretch := by
  obtain ⟨rest, whole⟩ := carried
  obtain ⟨distance, rfl⟩ := Nat.exists_eq_add_of_le lower
  rw [← Array.getElem?_toList, ← List.getElem?_drop, ← whole,
    List.getElem?_append_left (by omega)] at found
  exact List.mem_of_getElem? found

namespace Code

variable {code : Code}

section Places

variable {before body : Code} {fast : Bool} {last instruction : Instruction} {text : Text}
  {base position : Nat}

/-- Where a position is in the stretch of a code and an instruction behind it. -/
theorem place_plain (carried : Carries text base ((before.plain last).emit false base))
    (upper : position < base + (before.plain last).size false)
    (found : text[position]? = some instruction) :
    position < base + before.size false ∨ instruction = last := by
  by_cases early : position < base + before.size false
  · exact .inl early
  · simp only [size] at upper
    obtain rfl : position = base + before.size false := by omega
    exact .inr (Option.some.inj (found.symm.trans (carries_plain carried).2))

/-- The positions of a code and a loop behind it. -/
theorem place_cases (upper : position < base + (before.loop body).size false) :
    position < base + before.size false ∨ position = base + before.size false ∨
      base + before.size false + 1 ≤ position ∧
        position < base + before.size false + 1 + body.size false ∨
      position = base + before.size false + 1 + body.size false := by
  simp only [size] at upper
  omega

/-- Where a position is in the stretch of a code and a loop behind it. -/
theorem place_loop (carried : Carries text base ((before.loop body).emit false base))
    (upper : position < base + (before.loop body).size false)
    (found : text[position]? = some instruction) :
    position < base + before.size false ∨ instruction.opcode ∈ [.loopStart, .loopEnd] ∨
      ∃ inner, Carries text inner (body.emit false inner) ∧ inner ≤ position ∧
        position < inner + body.size false := by
  obtain ⟨-, start, inner, stop⟩ := carries_loop carried
  rcases place_cases upper with early | rfl | ⟨low, high⟩ | rfl
  · exact .inl early
  · obtain rfl := Option.some.inj (start.symm.trans found)
    exact .inr (.inl (List.mem_cons_self ..))
  · exact .inr (.inr ⟨_, inner, low, high⟩)
  · obtain rfl := Option.some.inj (stop.symm.trans found)
    exact .inr (.inl (by simp))

/-- Where a position is in the stretch of a code and a region behind it. -/
theorem place_region (carried : Carries text base ((before.region fast body).emit false base))
    (upper : position < base + (before.region fast body).size false)
    (found : text[position]? = some instruction) :
    position < base + before.size false ∨
      position = base + before.size false ∧ instruction.opcode = (if fast then .pushFast else .push) ∨
      Carries text (base + before.size false + 1) (body.emit false (base + before.size false + 1)) ∧
        base + before.size false + 1 ≤ position ∧
        position < base + before.size false + 1 + body.size false ∨
      instruction.opcode = .pop := by
  obtain ⟨-, start, inner, ended⟩ := carries_region carried
  by_cases early : position < base + before.size false
  · exact .inl early
  by_cases first : position = base + before.size false
  · subst first
    obtain rfl := Option.some.inj (start.symm.trans found)
    exact .inr (.inl ⟨rfl, rfl⟩)
  by_cases within : position < base + before.size false + 1 + body.size false
  · exact .inr (.inr (.inl ⟨inner, by omega, within⟩))
  · cases fast with
    | true =>
      simp [size, regionEnd] at upper
      omega
    | false =>
      simp [size, regionEnd] at upper
      rw [show base + before.size false + 1 + body.size false = position by omega] at ended
      obtain rfl := Option.some.inj (ended.getElem?.symm.trans found)
      exact .inr (.inr (.inr rfl))

end Places

/-- What stands inside of a region. -/
theorem opcode_of_mem_emit (straight : code.Straight true) {keep : Bool} {base : Nat}
    {instruction : Instruction} (member : instruction ∈ code.emit keep base) :
    instruction.opcode ∈ Opcode.regional ∧ instruction.Sound ∨
      ¬ code.Leaf ∧ instruction.opcode ∈ [.push, .pop] := by
  induction code generalizing base with
  | empty => cases member
  | plain before last ih =>
    rcases List.mem_append.mp member with early | late
    · exact ih straight.1 early
    · obtain rfl := List.mem_singleton.mp late
      have opcode := straight.2.1
      refine .inl ⟨?_, straight.2.2⟩
      generalize instruction.opcode = opcode at opcode
      revert opcode
      cases opcode <;> decide
  | loop before body _ _ => exact straight.elim
  | region before fast body ihBefore ihBody =>
    obtain ⟨outer, stacked, -, inside, -⟩ := straight
    obtain rfl := stacked rfl
    rcases List.mem_append.mp member with early | late
    · exact (ihBefore outer early).imp_right fun found => ⟨id, found.2⟩
    · rcases List.mem_cons.mp late with rfl | late
      · exact .inr ⟨id, List.mem_cons_self ..⟩
      · rcases List.mem_append.mp late with nested | ended
        · exact (ihBody inside nested).imp_right fun found => ⟨id, found.2⟩
        · have stays : regionEnd keep false (base + before.size keep) =
              [{ opcode := .pop, link := base + before.size keep }] := by cases keep <;> rfl
          rw [stays] at ended
          obtain rfl := List.mem_singleton.mp ended
          exact .inr ⟨id, List.mem_cons_of_mem _ (List.mem_cons_self ..)⟩

/-- Inside of a region there are neither loops, nor additions, nor regions without the stack. -/
theorem regional_of_mem_emit (straight : code.Straight true) {keep : Bool} {base : Nat}
    {instruction : Instruction} (member : instruction ∈ code.emit keep base) :
    instruction.opcode ∈ Opcode.regional ++ [.push, .pop] :=
  List.mem_append.mpr ((opcode_of_mem_emit straight member).imp And.left And.right)

variable {text : Text} {base : Nat}

/-- The stretch of a region, if its body sits. -/
theorem sits_region {before body : Code} {fast : Bool} (leaf : fast = true → body.Leaf)
    (straight : body.Straight true)
    (carried : Carries text base ((before.region fast body).emit false base))
    (outer : text.Sits base (base + before.size false))
    (inside : ∀ {place : Nat}, Carries text place (body.emit false place) →
      text.Sits place (place + body.size false)) :
    text.Sits base (base + (before.region fast body).size false) := by
  obtain ⟨-, start, nested, back⟩ := carries_region carried
  have inner := inside nested
  have mem {position : Nat} {instruction : Instruction} (after : base + before.size false < position)
      (upper : position < base + before.size false + 1 + body.size false)
      (found : text[position]? = some instruction) :=
    nested.mem after (by rwa [length_emit]) found
  cases fast with
  | false =>
    have ended : base + before.size false + body.size false + 1 =
        base + before.size false + 1 + body.size false := by omega
    have pair : text.Pair (base + before.size false) (base + before.size false + 1 +
        body.size false) := by
      refine ⟨by omega, _, _, start, back.getElem?, .inr ⟨rfl, rfl⟩, ?_, rfl⟩
      exact ended
    have whole := inner.enclose pair fun region found opcode position instruction after upper there =>
      regional_of_mem_emit straight (mem after upper there)
    have extent : base + (before.region false body).size false =
        base + before.size false + 1 + body.size false + 1 := by
      simp only [size, regionEnd, Bool.not_false, Bool.or_true, if_true, List.length_singleton]
      omega
    rw [extent]
    exact outer.append whole (Nat.le_add_right _ _) (by omega)
  | true =>
    have place : base + before.size false + 1 + body.size false =
        base + before.size false + body.size false + 1 := by omega
    rw [place] at inner
    have whole := inner.enter (Nat.le_add_right _ _) start rfl rfl
      fun position instruction after upper there =>
        ((opcode_of_mem_emit straight (mem after (by omega) there)).resolve_right fun deep =>
          deep.1 (leaf rfl)).1
    have extent : base + (before.region true body).size false =
        base + before.size false + body.size false + 1 := by
      simp only [size, regionEnd, Bool.not_true, Bool.or_false, Bool.false_eq_true, if_false,
        List.length_nil]
      omega
    rw [extent]
    exact outer.append whole (Nat.le_add_right _ _) (by omega)

/-- What stands inside of a region sits. -/
theorem sits_of_straight (straight : code.Straight true)
    (carried : Carries text base (code.emit false base)) :
    text.Sits base (base + code.size false) := by
  induction code generalizing base with
  | empty => exact Text.sits_self text base
  | plain before last ih =>
    obtain ⟨early, here⟩ := carries_plain carried
    exact (ih straight.1 early).append (Text.sits_single here (unlinked_of_straight straight).2)
      (Nat.le_add_right _ _) (Nat.le_succ _)
  | loop before body _ _ => exact straight.elim
  | region before fast body ihBefore ihBody =>
    exact sits_region straight.2.2.1 straight.2.2.2.1 carried
      (ihBefore straight.1 carried.append_left) (ihBody straight.2.2.2.1)

/-- Every code that is made as drafts are sits. -/
theorem sits_of_proper (proper : code.Proper) (carried : Carries text base (code.emit false base)) :
    text.Sits base (base + code.size false) := by
  induction code generalizing base with
  | empty => exact Text.sits_self text base
  | plain before last ih =>
    obtain ⟨early, here⟩ := carries_plain carried
    exact (ih proper.1 early).append (Text.sits_single here (unlinked_of_proper proper).2)
      (Nat.le_add_right _ _) (Nat.le_succ _)
  | loop before body ihBefore ihBody =>
    obtain ⟨early, start, inner, stop⟩ := carries_loop carried
    have pair : text.Pair (base + before.size false) (base + before.size false + 1 +
        body.size false) :=
      ⟨by omega, _, _, start, stop, .inl ⟨rfl, rfl⟩, rfl, rfl⟩
    have whole := (ihBody proper.2 inner).enclose pair fun region found opcode => by
      obtain rfl := Option.some.inj (start.symm.trans found)
      cases opcode
    have sits := (ihBefore proper.1 early).append whole (Nat.le_add_right _ _) (by omega)
    simpa [size, Nat.add_assoc, Nat.add_comm 1] using sits
  | region before fast body ihBefore _ =>
    exact sits_region proper.2.1 proper.2.2.1 carried (ihBefore proper.1 carried.append_left)
      (sits_of_straight proper.2.2.1)

/-- What stands in the body of a region is in the region. -/
theorem inRegion_of_carries {before body : Code} {fast : Bool} {position : Nat}
    (sits : text.Sits base (base + (before.region fast body).size false))
    (carried : Carries text base ((before.region fast body).emit false base))
    (lower : base + before.size false + 1 ≤ position)
    (upper : position < base + before.size false + 1 + body.size false) :
    text.InRegion position := by
  obtain ⟨-, start, -⟩ := carries_region carried
  refine ⟨_, _, start, lower, ?_⟩
  cases fast with
  | true => exact .inr ⟨rfl, by simp [regionStart, regionEnd]; omega⟩
  | false =>
    have sat := sits _ _ (Nat.le_add_right _ _) (by simp only [size]; omega) start
    exact .inl ⟨rfl, (sat.starts (by simp [regionStart])).2.1, by simp [regionStart, regionEnd]; omega⟩

/-- Products stand in regions. -/
theorem inRegion_of_proper (proper : code.Proper) (carried : Carries text base (code.emit false base))
    {position : Nat} (lower : base ≤ position) (upper : position < base + code.size false)
    {product : Instruction} (found : text[position]? = some product)
    (opcode : product.opcode = .multiply) : text.InRegion position := by
  have sits := sits_of_proper proper carried
  induction code generalizing base with
  | empty => exact absurd upper (Nat.not_lt.mpr lower)
  | plain before last ih =>
    have outer := carried.append_left
    rcases place_plain carried upper found with early | rfl
    · exact ih proper.1 outer lower early (sits_of_proper proper.1 outer)
    · have plain := proper.2.1
      simp [opcode] at plain
  | loop before body ihBefore ihBody =>
    have outer := carried.append_left
    rcases place_loop carried upper found with early | loop | ⟨place, inner, low, high⟩
    · exact ihBefore proper.1 outer lower early (sits_of_proper proper.1 outer)
    · simp [opcode] at loop
    · exact ihBody proper.2 inner low high (sits_of_proper proper.2 inner)
  | region before fast body ihBefore _ =>
    have outer := carried.append_left
    rcases place_region carried upper found with early | ⟨-, start⟩ | ⟨-, low, high⟩ | pop
    · exact ihBefore proper.1 outer lower early (sits_of_proper proper.1 outer)
    · cases fast <;> cases opcode.symm.trans start
    · exact inRegion_of_carries sits carried low high
    · cases opcode.symm.trans pop

/-- The operands are such as are written, and there is no `stop`. -/
theorem written_of_sound {instruction : Instruction} (sound : instruction.Sound)
    (opcode : instruction.opcode ∉ [.nop, .popFast, .stop]) :
    instruction.Written ∧ instruction.opcode ≠ .stop := by
  simp only [List.mem_cons, List.not_mem_nil, or_false, not_or] at opcode
  refine ⟨⟨⟨opcode.2.1, opcode.1⟩, sound.moving, fun reset => ?_⟩, opcode.2.2⟩
  obtain ⟨one, ⟨single, none⟩ | ⟨several, stride⟩⟩ := sound.clearing reset
  · exact ⟨one, ⟨fun _ => single, fun _ => none⟩, fun other => (other single).elim⟩
  · exact ⟨one, ⟨fun none => by omega, fun single => (several single).elim⟩, fun _ => stride⟩

theorem written_of_boundary {instruction : Instruction}
    (opcode : instruction.opcode ∈ [.loopStart, .loopEnd, .push, .pushFast, .pop]) :
    instruction.Written ∧ instruction.opcode ≠ .stop := by
  simp only [List.mem_cons, List.not_mem_nil, or_false] at opcode
  refine ⟨⟨?_, ?_, ?_⟩, ?_⟩ <;>
    rcases opcode with opcode | opcode | opcode | opcode | opcode <;> simp [opcode]

/-- What a code that is made as drafts are is written with. -/
theorem stands_of_mem_emit (proper : code.Proper) {base : Nat} {instruction : Instruction}
    (member : instruction ∈ code.emit false base) :
    instruction.opcode ∉ [.nop, .popFast, .stop] ∧ instruction.Sound ∨
      instruction.opcode ∈ [.loopStart, .loopEnd, .push, .pushFast, .pop] := by
  induction code generalizing base with
  | empty => cases member
  | plain before last ih =>
    rcases List.mem_append.mp member with early | late
    · exact ih proper.1 early
    · obtain rfl := List.mem_singleton.mp late
      refine .inl ⟨?_, proper.2.2⟩
      have opcode := proper.2.1
      generalize instruction.opcode = opcode at opcode
      revert opcode
      cases opcode <;> decide
  | loop before body ihBefore ihBody =>
    rcases List.mem_append.mp member with early | late
    · exact ihBefore proper.1 early
    · rcases List.mem_cons.mp late with rfl | late
      · exact .inr (by simp)
      · rcases List.mem_append.mp late with inside | ended
        · exact ihBody proper.2 inside
        · obtain rfl := List.mem_singleton.mp ended
          exact .inr (by simp)
  | region before fast body ihBefore _ =>
    rcases List.mem_append.mp member with early | late
    · exact ihBefore proper.1 early
    · rcases List.mem_cons.mp late with rfl | late
      · exact .inr (by cases fast <;> simp [regionStart])
      · rcases List.mem_append.mp late with inside | ended
        · rcases opcode_of_mem_emit proper.2.2.1 inside with ⟨opcode, sound⟩ | ⟨-, opcode⟩
          · refine .inl ⟨?_, sound⟩
            generalize instruction.opcode = opcode at opcode
            revert opcode
            cases opcode <;> decide
          · refine .inr ?_
            generalize instruction.opcode = opcode at opcode
            revert opcode
            cases opcode <;> decide
        · cases fast with
          | true => cases ended
          | false =>
            obtain rfl := List.mem_singleton.mp ended
            exact .inr (by simp)

theorem written_of_mem_emit (proper : code.Proper) {base : Nat} {instruction : Instruction}
    (member : instruction ∈ code.emit false base) :
    instruction.Written ∧ instruction.opcode ≠ .stop := by
  rcases stands_of_mem_emit proper member with ⟨opcode, sound⟩ | opcode
  · exact written_of_sound sound opcode
  · exact written_of_boundary opcode

/-- A finished text carries its code, and `stop` behind it. -/
theorem carries_of_written (written : text.toList = code.emit false 0 ++ [.final]) :
    Carries text 0 (code.emit false 0) ∧ text.size = code.size false + 1 ∧
      text[code.size false]? = some .final := by
  have whole : Carries text 0 (code.emit false 0 ++ [.final]) := by
    refine ⟨[], ?_⟩
    rw [written, List.drop_zero, List.append_nil]
  refine ⟨whole.append_left, ?_, ?_⟩
  · rw [← Array.length_toList, written, List.length_append, length_emit]
    rfl
  · have behind := whole.append_right.getElem?
    rwa [length_emit, Nat.zero_add] at behind

end Code

/-- The finished text of a code is well-formed. -/
theorem wellFormed_of_emit {code : Code} (proper : code.Proper) {text : Text}
    (written : text.toList = code.emit false 0 ++ [.final]) : text.WellFormed := by
  obtain ⟨carried, size, last⟩ := Code.carries_of_written written
  have sits := Code.sits_of_proper proper carried
  rw [Nat.zero_add] at sits
  have place {position : Nat} {instruction : Instruction}
      (found : text[position]? = some instruction) (other : instruction.opcode ≠ .stop) :
      text.SitsAt 0 (code.size false) position instruction := by
    have inside := (Array.getElem?_eq_some_iff.mp found).1
    by_cases final : position = code.size false
    · subst final
      obtain rfl := Option.some.inj (last.symm.trans found)
      exact (other rfl).elim
    · exact sits position instruction (Nat.zero_le _) (by omega) found
  constructor
  · exact ⟨_, written, fun instruction member => (Code.written_of_mem_emit proper member).2⟩
  · intro position instruction found
    refine ⟨fun opcode => ?_, fun opcode => ?_⟩
    · refine ((place found ?_).starts opcode).2.1
      rintro stop
      simp [stop] at opcode
    · refine ((place found ?_).stops opcode).2
      rintro stop
      simp [stop] at opcode
  · intro start stop inner other outer nested after before
    obtain ⟨-, opening, -, here, -⟩ := id outer
    obtain ⟨opcode, rfl⟩ := outer.begins here
    refine ((place here ?_).starts opcode).2.2 inner other nested after before
    rintro stop
    simp [stop] at opcode
  · intro start region found opcode
    have sat := (place found (by simp [opcode])).fast opcode
    exact ⟨sat.1, by omega, sat.2.2⟩
  · intro start region found opcode
    exact (place found (by simp [opcode])).stacked opcode
  · intro position product found opcode
    have inside := (Array.getElem?_eq_some_iff.mp found).1
    have other : position ≠ code.size false := by
      rintro rfl
      obtain rfl := Option.some.inj (last.symm.trans found)
      cases opcode
    exact Code.inRegion_of_proper proper carried (Nat.zero_le _) (by omega) found opcode
  · intro instruction member
    rw [← Array.mem_toList_iff, written] at member
    rcases List.mem_append.mp member with early | final
    · exact (Code.written_of_mem_emit proper early).1
    · obtain rfl := List.mem_singleton.mp final
      exact ⟨by decide, by decide, by decide⟩

/-! ### Runs of well-formed texts -/

/-- No single instruction reports that the text was left. -/
theorem Run.perform_ne_overrun {terminal : Terminal} {step : Step} {position : Nat} {last : Run} :
    perform terminal step ≠ .ended (.overrun position) last := by
  intro performed
  rcases perform_ended_cases performed with same | ⟨same, -⟩ | ⟨same, -⟩ <;> cases same

/-- A run goes on behind its instruction, or behind the linked one. -/
theorem Run.position_of_perform_cases {instruction : Instruction} {run next : Run}
    (performed : perform run.terminal (run.machine.step instruction) = .running next) :
    next.machine.position = run.machine.position + 1 ∨
      instruction.opcode ∈ [.loopStart, .loopEnd, .push, .pushFast] ∧
        next.machine.position = instruction.link + 1 := by
  have jumped {machine : Machine} {link : Nat}
      (performed : perform run.terminal (machine.jump link) = .running next) :
      next.machine.position = link + 1 := by
    unfold Machine.jump at performed
    split at performed
    · cases performed
      rfl
    · cases performed
  cases boundary : instruction.opcode.isBoundary with
  | false => exact .inl (position_of_perform boundary performed)
  | true =>
    rcases run with ⟨⟨head, position, register, stack⟩, terminal⟩
    rcases instruction with ⟨opcode, value, offset, link⟩
    cases opcode with
    | loopStart | loopEnd | push | pushFast =>
      simp only [Machine.step] at performed
      split at performed
      all_goals first
        | exact .inr ⟨by simp, jumped performed⟩
        | cases performed; exact .inl rfl
    | pop | popFast =>
      cases performed
      exact .inl rfl
    | _ => cases boundary

namespace Text.WellFormed

variable {text : Text} (wellFormed : text.WellFormed)

include wellFormed

theorem succ_lt_size {position : Nat} {instruction : Instruction}
    (found : text[position]? = some instruction) (other : instruction.opcode ≠ .stop) :
    position + 1 < text.size := by
  obtain ⟨before, written, -⟩ := wellFormed.stops
  have size := congrArg List.length written
  rw [Array.length_toList, List.length_append, List.length_singleton] at size
  have inside := (Array.getElem?_eq_some_iff.mp found).1
  by_cases last : position = before.length
  · rw [← Array.getElem?_toList, written, last, List.getElem?_concat_length] at found
    obtain rfl := Option.some.inj found
    exact (other rfl).elim
  · omega

theorem size_pos : 0 < text.size := by
  obtain ⟨before, written, -⟩ := wellFormed.stops
  rw [← Array.length_toList, written, List.length_append, List.length_singleton]
  exact Nat.succ_pos _

/-- Where an instruction may lead, there is another one. -/
theorem succ_link_lt_size {position : Nat} {instruction : Instruction}
    (found : text[position]? = some instruction)
    (opcode : instruction.opcode ∈ [.loopStart, .loopEnd, .push, .pushFast]) :
    instruction.link + 1 < text.size := by
  obtain ⟨starts, stops⟩ := wellFormed.paired _ _ found
  have fast := wellFormed.fast _ _ found
  have paired {start stop : Nat} (pair : text.Pair start stop) :
      start + 1 < text.size ∧ stop + 1 < text.size := by
    obtain ⟨order, opening, closing, -, last, opcodes, -⟩ := pair
    have ended : closing.opcode ≠ .stop := by
      rcases opcodes with ⟨-, opcode⟩ | ⟨-, opcode⟩ <;> rw [opcode] <;> decide
    have behind := wellFormed.succ_lt_size last ended
    exact ⟨by omega, behind⟩
  simp only [List.mem_cons, List.not_mem_nil, or_false] at opcode starts stops
  rcases opcode with opcode | opcode | opcode | opcode
  · exact (paired (starts (.inl opcode))).2
  · exact (paired (stops (.inl opcode))).1
  · exact (paired (starts (.inr opcode))).2
  · exact (fast opcode).2.1

/-- No instruction leads out of the text. -/
theorem position_lt_of_perform {run next : Run} {instruction : Instruction}
    (found : text[run.machine.position]? = some instruction)
    (performed : Run.perform run.terminal (run.machine.step instruction) = .running next) :
    next.machine.position < text.size := by
  have other : instruction.opcode ≠ .stop := by
    rcases run with ⟨⟨head, position, register, stack⟩, terminal⟩
    rcases instruction with ⟨opcode, value, offset, link⟩
    rintro rfl
    simp only [Machine.step, Run.perform, Run.close] at performed
    split at performed <;> cases performed
  rcases Run.position_of_perform_cases performed with behind | ⟨opcode, jumped⟩
  · rw [behind]
    exact wellFormed.succ_lt_size found other
  · rw [jumped]
    exact wellFormed.succ_link_lt_size found opcode

/-- **No run leaves the text.** -/
theorem never_overrun {run : Run} (inside : run.machine.position < text.size) (count position : Nat)
    (last : Run) : Run.advance text count run ≠ .ended (.overrun position) last := by
  induction count generalizing run with
  | zero =>
    rw [Run.advance_zero, Array.getElem?_eq_getElem inside]
    exact nofun
  | succ count ih =>
    rw [Run.advance_succ, Array.getElem?_eq_getElem inside]
    simp only
    cases performed : Run.perform run.terminal
        (run.machine.step text[run.machine.position]) with
    | running next =>
      have found := Array.getElem?_eq_getElem inside
      exact ih (wellFormed.position_lt_of_perform found performed)
    | stuck final => exact nofun
    | ended ending final =>
      rintro same
      cases same
      exact Run.perform_ne_overrun performed

/-- Nor does a run with a limit, or without one. -/
theorem complete_ne_overrun {run : Run} (inside : run.machine.position < text.size)
    (limit : Option Nat) (patience position : Nat) (last : Run) :
    run.complete text limit patience ≠ .ended (.overrun position) last := by
  cases limit with
  | none => exact wellFormed.never_overrun inside patience position last
  | some limit =>
    intro same
    exact wellFormed.never_overrun inside (UInt64.ofNat limit).toNat position last
      (Run.advance_of_within same ⟨nofun, nofun, nofun⟩)

end Text.WellFormed

/-- **Every assembled text is well-formed**, and no run of it leaves the text, from whatever head,
register, stack and terminal, with or without a limit. -/
theorem wellFormed_of_assemble {passes : Passes} {source : Source} {assembly : Assembly}
    (assembled : assemble passes source = .ok assembly) :
    assembly.text.WellFormed ∧
      ∀ (head : Head) (register : UInt8) (stack : List UInt8) (terminal : Terminal)
        (limit : Option Nat) (patience position : Nat) (last : Run),
        Run.complete assembly.text limit patience ⟨⟨head, 0, register, stack⟩, terminal⟩ ≠
          .ended (.overrun position) last := by
  obtain ⟨code, reached, written⟩ := code_of_assembled assembled
  have wellFormed := wellFormed_of_emit reached.proper.1 written
  refine ⟨wellFormed, fun head register stack terminal limit patience position last => ?_⟩
  exact wellFormed.complete_ne_overrun wellFormed.size_pos limit patience position last

/-- The products of a counted loop, without the idle end of their region. -/
theorem product_text_wellFormed :
    let source : Source := ['+', '+', '[', '-', '>', '+', '>', '+', '<', '<', ']'].map Char.toUInt8
    ∃ assembly, assemble Passes.all source = .ok assembly ∧
      assembly.text.map (·.opcode) = #[.add, .pushFast, .multiply, .multiply, .stop] ∧
        assembly.text.WellFormed := by
  intro source
  have text : (assemble Passes.all source).toOption.map (fun assembly =>
      assembly.text.map (·.opcode)) = some #[.add, .pushFast, .multiply, .multiply, .stop] := by
    decide +kernel
  obtain ⟨assembly, found, opcodes⟩ := Option.map_eq_some_iff.mp text
  have assembled := toOption_eq_some.mp found
  exact ⟨assembly, assembled, opcodes, (wellFormed_of_assemble assembled).1⟩

end TapeMachine
