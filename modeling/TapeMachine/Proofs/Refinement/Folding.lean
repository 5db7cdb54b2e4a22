/-
**Moves and additions that join across what was removed.**

Without passes, a move or an addition joins the one before it. With them, it may also join what comes to
stand before it because a loop in between was removed, or become a part of a constant. It never leaves
an instruction behind that it would have joined, so what is written in parts adds up.

* `Code.Folded`: no instruction stands behind another that it would have joined;
* `Code.constants`: a reset of one cell does what the constant zero does;
* `extend_extend`: writing two amounts is writing their sum.
-/

import TapeMachine.Proofs.Assembly.Folding
import TapeMachine.Proofs.Refinement.Closing

namespace TapeMachine

/-! ### What joins what -/

/-- A move or an addition joins the last instruction. -/
def Instruction.Joins (last : Instruction) (folding : Bool) (opcode : Opcode) : Prop :=
  last.opcode = opcode ∨ folding = true ∧ opcode = .add ∧
    (last.opcode = .set ∨ last.opcode = .reset ∧ last.value = 1)

namespace Code

/-- A move or an addition behind the code joins its last instruction. -/
def JoinedBy (folding : Bool) (opcode : Opcode) : Code → Prop
  | plain _ last => last.Joins folding opcode
  | _ => False

/-- No move or addition stands behind an instruction that it would have joined. -/
def Folded (folding : Bool) : Code → Prop
  | empty => True
  | plain before last =>
    before.Folded folding ∧
      (last.opcode = .move ∨ last.opcode = .add → ¬ before.JoinedBy folding last.opcode)
  | loop before _ => before.Folded folding
  | region before _ _ => before.Folded folding

/-- The code with every reset of one cell as a constant. -/
def constants : Code → Code
  | empty => empty
  | plain before last =>
    before.constants.plain (if last.opcode = .reset ∧ last.value = 1 then { opcode := .set } else last)
  | loop before body => before.constants.loop body
  | region before fast body => before.constants.region fast body

variable {folding : Bool} {opcode : Opcode} {amount : Int} {code : Code}

theorem extend_of_not_joinedBy (apart : ¬ code.JoinedBy folding opcode) :
    code.extend folding opcode amount = code.plain { opcode := opcode, value := amount } := by
  cases code with
  | plain before last =>
    have other : ¬ last.opcode = opcode := fun same => apart (.inl same)
    have constant : ¬ (folding = true ∧ opcode = .add ∧ last.opcode = .set) :=
      fun same => apart (.inr ⟨same.1, same.2.1, .inl same.2.2⟩)
    have cleared : ¬ (folding = true ∧ opcode = .add ∧ last.opcode = .reset ∧ last.value = 1) :=
      fun same => apart (.inr ⟨same.1, same.2.1, .inr same.2.2⟩)
    rw [extend, if_neg other, if_neg constant, if_neg cleared]
  | empty | loop before body | region before fast body => rfl

theorem extend_of_same {before : Code} {last : Instruction} (same : last.opcode = opcode) :
    (before.plain last).extend folding opcode amount =
      if last.value + amount = 0 then before
      else before.plain { last with value := last.value + amount } := by
  rw [extend, if_pos same]

theorem extend_of_set {before : Code} {last : Instruction} (enabled : folding = true)
    (adds : opcode = .add) (set : last.opcode = .set) :
    (before.plain last).extend folding opcode amount =
      before.plain { last with value := last.value + amount } := by
  have other : ¬ last.opcode = opcode := by
    rw [adds, set]
    exact nofun
  rw [extend, if_neg other, if_pos ⟨enabled, adds, set⟩]

theorem extend_of_reset {before : Code} {last : Instruction} (enabled : folding = true)
    (adds : opcode = .add) (reset : last.opcode = .reset) (single : last.value = 1) :
    (before.plain last).extend folding opcode amount =
      before.plain { opcode := .set, value := amount } := by
  have other : ¬ last.opcode = opcode := by
    rw [adds, reset]
    exact nofun
  have constant : ¬ (folding = true ∧ opcode = .add ∧ last.opcode = .set) := by
    rw [reset]
    exact fun same => nomatch same.2.2
  rw [extend, if_neg other, if_neg constant, if_pos ⟨enabled, adds, reset, single⟩]

/-! ### Folded codes -/

theorem folded_extend (folded : code.Folded folding) : (code.extend folding opcode amount).Folded folding := by
  by_cases joined : code.JoinedBy folding opcode
  · cases code with
    | plain before last =>
      rcases joined with same | ⟨enabled, adds, set | ⟨reset, single⟩⟩
      · rw [extend_of_same same]
        split
        · exact folded.1
        · exact folded
      · rw [extend_of_set enabled adds set]
        exact folded
      · rw [extend_of_reset enabled adds reset single]
        exact ⟨folded.1, fun other => by rcases other with other | other <;> cases other⟩
    | empty | loop before body | region before fast body => exact joined.elim
  · rw [extend_of_not_joinedBy joined]
    exact ⟨folded, fun _ => joined⟩

theorem folded_plain {instruction : Instruction} (folded : code.Folded folding)
    (other : instruction.opcode ≠ .move ∧ instruction.opcode ≠ .add) :
    (code.plain instruction).Folded folding :=
  ⟨folded, fun same => same.elim (absurd · other.1) (absurd · other.2)⟩

theorem folded_append_fuse {body : Code} (folded : code.Folded folding) :
    (code ++ body.fuse).Folded folding := by
  rcases body.fuse_cases with ⟨product, -, -, same⟩ | ⟨-, same⟩
  · rw [same]
    exact folded_plain folded ⟨nofun, nofun⟩
  · rw [same]
    exact folded

theorem folded_of_closes {passes : Passes} {may : Code → Prop} {outermost : Bool}
    {outer body : Code} (closes : Closes passes may outermost outer body code)
    (folded : outer.Folded folding) : code.Folded folding := by
  cases closes with
  | kept => exact folded
  | first | dead | again | emptied => exact folded
  | wider enabled sole odd behind opcode =>
    rw [behind] at folded
    exact folded_plain folded.1.1 (by simp [opcode])
  | cleared | sought => exact folded_plain folded ⟨nofun, nofun⟩
  | fused => exact folded_append_fuse folded

/-! ### Resets of one cell as constants -/

/-- The constant zero does what a reset of one cell does. -/
theorem act_constant {last : Instruction} (reset : last.opcode = .reset) (single : last.value = 1) :
    Behavior.act { opcode := .set } = Behavior.act last := by
  funext left run
  cases left with
  | zero => rfl
  | succ left =>
    rcases run with ⟨⟨head, position, register, stack⟩, terminal⟩
    simp only [Behavior.act, Machine.step, reset, single]
    rfl

theorem exec_constants (keep : Bool) (code : Code) : code.constants.exec keep = code.exec keep := by
  induction code with
  | empty => rfl
  | plain before last ih =>
    rw [constants, exec, exec, ih]
    split
    · next reset => rw [act_constant reset.1 reset.2]
    · rfl
  | loop before body ihBefore _ => rw [constants, exec, exec, ihBefore]
  | region before fast body ihBefore _ => rw [constants, exec, exec, ihBefore]

theorem proper_constants (proper : code.Proper) : code.constants.Proper := by
  induction code with
  | empty => trivial
  | plain before last ih =>
    refine ⟨ih proper.1, ?_⟩
    split
    · exact ⟨by simp, .of_constant 0⟩
    · exact proper.2
  | loop before body ihBefore _ => exact ⟨ihBefore proper.1, proper.2⟩
  | region before fast body ihBefore _ => exact ⟨ihBefore proper.1, proper.2⟩

theorem constants_constants (code : Code) : code.constants.constants = code.constants := by
  induction code with
  | empty => rfl
  | plain before last ih =>
    rw [constants, constants, ih]
    congr 1
    by_cases reset : last.opcode = .reset ∧ last.value = 1
    · rw [if_pos reset, if_neg (by simp)]
    · rw [if_neg reset, if_neg reset]
  | loop before body ihBefore _ => rw [constants, constants, ihBefore]
  | region before fast body ihBefore _ => rw [constants, constants, ihBefore]

/-- A constant is joined by what its reset is joined by. -/
theorem joinedBy_constants (written : opcode = .move ∨ opcode = .add) :
    code.constants.JoinedBy folding opcode ↔ code.JoinedBy folding opcode := by
  cases code with
  | plain before last =>
    unfold constants JoinedBy Instruction.Joins
    by_cases reset : last.opcode = .reset ∧ last.value = 1
    · rw [if_pos reset]
      rcases written with rfl | rfl <;> simp [reset]
    · rw [if_neg reset]
  | empty | loop before body | region before fast body => rfl

theorem folded_constants (folded : code.Folded folding) : code.constants.Folded folding := by
  induction code with
  | empty => trivial
  | plain before last ih =>
    refine ⟨ih folded.1, ?_⟩
    split
    · rintro (same | same) <;> cases same
    · intro written
      rw [joinedBy_constants written]
      exact folded.2 written
  | loop before body ihBefore _ => exact ihBefore folded
  | region before fast body ihBefore _ => exact ihBefore folded

theorem constants_extend (written : opcode = .move ∨ opcode = .add) :
    (code.extend folding opcode amount).constants = code.constants.extend folding opcode amount := by
  have appended (before : Code) (amount : Int) :
      (before.plain { opcode := opcode, value := amount }).constants =
        before.constants.plain { opcode := opcode, value := amount } := by
    rw [constants, if_neg]
    rcases written with rfl | rfl <;> simp
  by_cases joined : code.JoinedBy folding opcode
  · cases code with
    | plain before last =>
      rcases joined with same | ⟨enabled, adds, set | ⟨reset, single⟩⟩
      · have other (value : Int) : ¬ (({ last with value := value } : Instruction).opcode = .reset ∧
            ({ last with value := value } : Instruction).value = 1) := by
          rcases written with rfl | rfl <;> simp [same]
        rw [extend_of_same same, constants, if_neg (other last.value), extend_of_same same]
        split
        · rfl
        · rw [constants, if_neg (other _)]
      · have other (value : Int) : ¬ (({ last with value := value } : Instruction).opcode = .reset ∧
            ({ last with value := value } : Instruction).value = 1) := by simp [set]
        rw [extend_of_set enabled adds set, constants, constants, if_neg (other _),
          if_neg (other last.value), extend_of_set enabled adds set]
      · have constant : (before.constants.plain { opcode := .set }).extend folding opcode amount =
            before.constants.plain { opcode := .set, value := 0 + amount } :=
          extend_of_set enabled adds (show ({ opcode := .set } : Instruction).opcode = .set from rfl)
        rw [extend_of_reset enabled adds reset single, constants, constants,
          if_pos (show last.opcode = .reset ∧ last.value = 1 from ⟨reset, single⟩), if_neg (by simp),
          constant, Int.zero_add]
    | empty | loop before body | region before fast body => exact joined.elim
  · have apart : ¬ code.constants.JoinedBy folding opcode := by
      rwa [joinedBy_constants written]
    rw [extend_of_not_joinedBy joined, extend_of_not_joinedBy apart, appended]

/-! ### Amounts that add up -/

/-- Two amounts put to an instruction that writes such amounts are their sum put to it. When the first
takes the instruction away, the second brings it back. -/
theorem extend_extend_of_same {before : Code} {last : Instruction}
    (apart : ¬ before.JoinedBy folding opcode) (sound : last.Sound)
    (written : opcode = .move ∨ opcode = .add) (same : last.opcode = opcode)
    (first : Int) {second : Int} (marked : second ≠ 0) :
    ((before.plain last).extend folding opcode first).extend folding opcode second =
      if first + second = 0 then before.plain last
      else (before.plain last).extend folding opcode (first + second) := by
  have nonzero : last.value ≠ 0 := sound.moving (by
    rw [same]
    rcases written with rfl | rfl <;> simp)
  have alone (value : Int) :
      ({ last with value := value } : Instruction) = { opcode := opcode, value := value } := by
    rcases last with ⟨kind, number, offset, link⟩
    obtain rfl : kind = opcode := same
    obtain rfl : link = 0 := sound.unlinked
    obtain rfl : offset = 0 := sound.plain (by rcases written with rfl | rfl <;> simp [Opcode.operands])
    rfl
  have again (value : Int) : (before.plain { last with value := value }).extend folding opcode
      second = if value + second = 0 then before
        else before.plain { last with value := value + second } :=
    extend_of_same (show ({ last with value := value } : Instruction).opcode = opcode from same)
  rw [extend_of_same same, extend_of_same same]
  by_cases gone : last.value + first = 0
  · rw [if_pos gone, extend_of_not_joinedBy apart]
    by_cases none : first + second = 0
    · rw [if_pos none, ← alone second]
      have value : second = last.value := by omega
      rw [value]
    · rw [if_neg none, if_neg (by omega), alone]
      have value : last.value + (first + second) = second := by omega
      rw [value]
  · rw [if_neg gone, again]
    by_cases none : first + second = 0
    · have value : last.value + first + second = last.value := by omega
      rw [if_pos none, value, if_neg nonzero]
    · rw [if_neg none]
      simp only [Int.add_assoc]

/-- A constant takes in both amounts, and stays a constant. -/
theorem extend_extend_of_set {before : Code} {last : Instruction} (enabled : folding = true)
    (adds : opcode = .add) (set : last.opcode = .set) (first second : Int) :
    ((before.plain last).extend folding opcode first).extend folding opcode second =
      if first + second = 0 then before.plain last
      else (before.plain last).extend folding opcode (first + second) := by
  have again (value : Int) : (before.plain { last with value := value }).extend folding opcode
      second = before.plain { last with value := value + second } :=
    extend_of_set enabled adds
      (show ({ last with value := value } : Instruction).opcode = .set from set)
  rw [extend_of_set enabled adds set, extend_of_set enabled adds set, again]
  split
  · next none =>
    have value : last.value + first + second = last.value := by omega
    rw [value]
  · rw [Int.add_assoc]

/-- Writing two amounts is writing their sum. -/
theorem extend_extend (folded : code.Folded folding) (proper : code.Proper)
    (fixed : code.constants = code) (written : opcode = .move ∨ opcode = .add) (first : Int)
    {second : Int} (marked : second ≠ 0) :
    (code.extend folding opcode first).extend folding opcode second =
      if first + second = 0 then code else code.extend folding opcode (first + second) := by
  by_cases joined : code.JoinedBy folding opcode
  · cases code with
    | plain before last =>
      rcases joined with same | ⟨enabled, adds, set | ⟨reset, single⟩⟩
      · have apart : ¬ before.JoinedBy folding opcode := same ▸ folded.2 (same ▸ written)
        exact extend_extend_of_same apart proper.2.2 written same first marked
      · exact extend_extend_of_set enabled adds set first second
      · rw [constants, if_pos ⟨reset, single⟩] at fixed
        have same := (Code.plain.inj fixed).2
        rw [← same] at reset
        cases reset
    | empty | loop before body | region before fast body => exact joined.elim
  · have again : (code.plain { opcode := opcode, value := first }).extend folding opcode second =
        if first + second = 0 then code
        else code.plain { opcode := opcode, value := first + second } :=
      extend_of_same (show ({ opcode := opcode, value := first } : Instruction).opcode = opcode from rfl)
    rw [extend_of_not_joinedBy joined, again, extend_of_not_joinedBy joined]

end Code

end TapeMachine
