/-
**Codes that grow in step.**

With and without passes, the same moves and additions are written, but not behind the same instructions.
What is kept in step is therefore the list of amounts since the last instruction that nothing joins.

* `improves_extend`: a move or an addition that joins does what it would do on its own;
* `Code.written`, `Code.joined`: amounts behind a base, each on its own or joining the last;
* `Code.Follows`: one base refines another behind which the same amounts were written;
* `Follows.refines`, `Follows.extend`, `follows_of_refines`: what such codes do, and how they go on.
-/

import TapeMachine.Proofs.Refinement.Folding

namespace TapeMachine

/-! ### Joining is doing both -/

namespace Instruction

variable {last : Instruction} {opcode : Opcode} {amount : Int}

/-- Moves and additions add up. -/
theorem sweep_joined (same : last.opcode = opcode) (written : opcode = .move ∨ opcode = .add)
    (sight : Sight) :
    (sweep 0 { last with value := last.value + amount } sight).Improves
      (sweep 0 { opcode := opcode, value := amount } (sweep 0 last sight)) := by
  rcases written with rfl | rfl
  · simp only [sweep, same, Sight.advance, Sight.tick]
    refine ⟨rfl, (Int.add_assoc ..).symm, by simp only; omega, fun cell member => ?_⟩
    rw [← Int.add_assoc] at member
    rcases List.mem_cons.mp member with here | early
    · exact List.mem_cons.mpr (.inl here)
    · exact List.mem_cons_of_mem _ (List.mem_cons_of_mem _ early)
  · simp only [sweep, same, Sight.write, Sight.tick, Sight.cell, Sight.put_self]
    refine ⟨?_, rfl, by simp only; omega, fun _ => id⟩
    funext cell
    by_cases here : cell = sight.index
    · simp only [here, Sight.put_self]
      rw [UInt8.ofInt_add, UInt8.add_assoc]
    · simp only [Sight.put_of_ne here]

/-- Moves and additions cancel. -/
theorem sweep_cancelled (same : last.opcode = opcode) (written : opcode = .move ∨ opcode = .add)
    (gone : last.value + amount = 0) (sight : Sight) :
    sight.Improves (sweep 0 { opcode := opcode, value := amount } (sweep 0 last sight)) := by
  rcases written with rfl | rfl
  · simp only [sweep, same, Sight.advance, Sight.tick]
    refine ⟨rfl, ?_, by simp only; omega, fun cell member => ?_⟩
    · simp only
      omega
    · exact List.mem_cons_of_mem _ (List.mem_cons_of_mem _ member)
  · simp only [sweep, same, Sight.write, Sight.tick, Sight.cell, Sight.put_self]
    refine ⟨?_, rfl, by simp only; omega, fun _ => id⟩
    funext cell
    by_cases here : cell = sight.index
    · simp only [here, Sight.put_self]
      rw [UInt8.add_assoc, ← UInt8.ofInt_add, gone, show UInt8.ofInt 0 = 0 from rfl, UInt8.add_zero]
    · simp only [Sight.put_of_ne here]

/-- An addition to a constant is a constant. -/
theorem sweep_set (set : last.opcode = .set) (sight : Sight) :
    (sweep 0 { last with value := last.value + amount } sight).Improves
      (sweep 0 { opcode := .add, value := amount } (sweep 0 last sight)) := by
  simp only [sweep, set, Sight.write, Sight.tick, Sight.cell, Sight.put_self]
  refine ⟨?_, rfl, by simp only; omega, fun _ => id⟩
  funext cell
  by_cases here : cell = sight.index
  · simp only [here, Sight.put_self]
    rw [UInt8.ofInt_add]
  · simp only [Sight.put_of_ne here]

end Instruction

namespace Code

variable {clear folding : Bool} {opcode : Opcode} {amount : Int} {code : Code}

theorem straight_of_written (written : opcode = .move ∨ opcode = .add) : opcode.IsStraight false := by
  rcases written with rfl | rfl
  · exact .inl (by simp)
  · exact .inr rfl

/-- What stands in for an instruction and an amount behind it may stand for them behind any code. -/
theorem improves_joined {before one : Code} {last : Instruction} (here : one.Straight false)
    (kind : last.opcode.IsStraight false) (sound : last.Sound)
    (written : opcode = .move ∨ opcode = .add) (marked : amount ≠ 0)
    (improves : ∀ sight, (one.sweep true 0 sight).Improves
      (Instruction.sweep 0 { opcode := opcode, value := amount } (Instruction.sweep 0 last sight))) :
    Behavior.Improves clear ((before ++ one).exec true)
      (((before.plain last).plain { opcode := opcode, value := amount }).exec true) := by
  have alone : ({ opcode := opcode, value := amount } : Instruction).Sound :=
    .of_amount (by rcases written with rfl | rfl <;> simp) marked
  have straight := straight_of_written written
  have there : ((empty.plain last).plain { opcode := opcode, value := amount }).Straight false :=
    ⟨⟨trivial, kind, sound⟩, straight, alone⟩
  have refined : Behavior.Refines false _ _ := refines_of_sweep here there improves
  have later : Behavior.Improves clear ((before ++ one).exec true)
      ((before ++ (empty.plain last).plain { opcode := opcode, value := amount }).exec true) :=
    improves_append refined.improves
  exact later

/-- An amount that a constant takes in. -/
theorem improves_set {before : Code} {last : Instruction} (set : last.opcode = .set)
    (sound : last.Sound) (marked : amount ≠ 0) :
    Behavior.Improves clear
      ((before.plain { last with value := last.value + amount }).exec true)
      (((before.plain last).plain { opcode := .add, value := amount }).exec true) := by
  have wider : ({ last with value := last.value + amount } : Instruction).Sound :=
    sound.joined (by simp [set]) fun other => absurd set other
  have kind : last.opcode.IsStraight false := .inl (by simp [set])
  have constant : (empty.plain { last with value := last.value + amount }).Straight false :=
    ⟨trivial, kind, wider⟩
  have improved : Behavior.Improves clear ((before ++ _).exec true) _ :=
    improves_joined constant kind sound (.inr rfl) marked fun sight => Instruction.sweep_set set sight
  exact improved

/-- A move or an addition that joins does what it would do on its own. -/
theorem improves_extend (proper : code.Proper) (written : opcode = .move ∨ opcode = .add)
    (marked : amount ≠ 0) :
    Behavior.Improves clear ((code.extend folding opcode amount).exec true)
      ((code.plain { opcode := opcode, value := amount }).exec true) := by
  by_cases joined : code.JoinedBy folding opcode
  · cases code with
    | plain before last =>
      have sound := proper.2.2
      rcases joined with same | ⟨enabled, adds, set | ⟨reset, single⟩⟩
      · have kind : last.opcode.IsStraight false := same ▸ straight_of_written written
        rw [extend_of_same same]
        split
        · next gone =>
          have improved : Behavior.Improves clear ((before ++ empty).exec true) _ :=
            improves_joined trivial kind sound written marked fun sight =>
              Instruction.sweep_cancelled same written gone sight
          exact improved
        · next remains =>
          have joined : ({ last with value := last.value + amount } : Instruction).Sound :=
            sound.joined (by rcases written with rfl | rfl <;> simp [same]) fun _ => remains
          have one : (empty.plain { last with value := last.value + amount }).Straight false :=
            ⟨trivial, kind, joined⟩
          have improved : Behavior.Improves clear ((before ++ _).exec true) _ :=
            improves_joined one kind sound written marked fun sight =>
              Instruction.sweep_joined same written sight
          exact improved
      · subst adds
        rw [extend_of_set enabled rfl set]
        exact improves_set set sound marked
      · subst adds
        rw [extend_of_reset enabled rfl reset single]
        have zero : ({ opcode := .set } : Instruction).Sound := .of_constant 0
        have improved : Behavior.Improves clear
            ((before.plain { opcode := .set, value := 0 + amount }).exec true)
            (((before.plain { opcode := .set }).plain { opcode := .add, value := amount }).exec true) :=
          improves_set rfl zero marked
        have same : (before.plain last).exec true = (before.plain { opcode := .set }).exec true := by
          rw [exec, exec, act_constant reset single]
        rw [Int.zero_add] at improved
        rw [show ((before.plain last).plain _).exec true = _ from
          congrArg (Behavior.andThen · (Behavior.act { opcode := .add, value := amount })) same]
        exact improved
    | empty | loop before body | region before fast body => exact joined.elim
  · rw [extend_of_not_joinedBy joined]
    exact .refl _

/-! ### Amounts behind a base -/

/-- The amounts behind the code, each on its own; the newest is the first. -/
def written (base : Code) : List (Opcode × Int) → Code
  | [] => base
  | (opcode, amount) :: earlier => (base.written earlier).plain { opcode := opcode, value := amount }

/-- The amounts behind the code, each joining what stands before it. -/
def joined (folding : Bool) (base : Code) : List (Opcode × Int) → Code
  | [] => base
  | (opcode, amount) :: earlier => (base.joined folding earlier).extend folding opcode amount

/-- One more amount, which adds to the newest one if that is of its kind. -/
def amounts (opcode : Opcode) (amount : Int) : List (Opcode × Int) → List (Opcode × Int)
  | [] => [(opcode, amount)]
  | (kind, value) :: earlier =>
    if kind = opcode then if value + amount = 0 then earlier else (kind, value + amount) :: earlier
    else (opcode, amount) :: (kind, value) :: earlier

/-- The amounts are moves and additions, and none is zero. -/
def Amounts (pending : List (Opcode × Int)) : Prop :=
  ∀ opcode amount, (opcode, amount) ∈ pending → (opcode = .move ∨ opcode = .add) ∧ amount ≠ 0

/-- Nothing joins the last instruction without passes. -/
def Apart (model : Code) : Prop :=
  ∀ opcode, opcode = .move ∨ opcode = .add → ¬ model.JoinedBy false opcode

variable {base model : Code} {pending : List (Opcode × Int)}

theorem amounts_cons {value : Int} {earlier : List (Opcode × Int)}
    (sound : Amounts ((opcode, value) :: earlier)) :
    (opcode = .move ∨ opcode = .add) ∧ value ≠ 0 ∧ Amounts earlier := by
  have newest := sound opcode value (List.mem_cons_self ..)
  exact ⟨newest.1, newest.2, fun kind other member => sound kind other (List.mem_cons_of_mem _ member)⟩

theorem amounts_amounts (sound : Amounts pending) (written : opcode = .move ∨ opcode = .add)
    (marked : amount ≠ 0) : Amounts (amounts opcode amount pending) := by
  intro kind value member
  unfold amounts at member
  split at member
  · cases List.mem_singleton.mp member
    exact ⟨written, marked⟩
  · next last before earlier =>
    obtain ⟨newest, nonzero, others⟩ := amounts_cons sound
    split at member
    · split at member
      · exact others kind value member
      · next remains =>
        rcases List.mem_cons.mp member with same | old
        · cases same
          exact ⟨newest, remains⟩
        · exact others kind value old
    · rcases List.mem_cons.mp member with same | old
      · cases same
        exact ⟨written, marked⟩
      · exact sound kind value old

/-- Without passes, an amount behind those that are written is written too. -/
theorem extend_written (apart : model.Apart) (written : opcode = .move ∨ opcode = .add) :
    (model.written pending).extend false opcode amount = model.written (amounts opcode amount pending) := by
  cases pending with
  | nil => exact extend_of_not_joinedBy (apart opcode written)
  | cons newest earlier =>
    obtain ⟨kind, value⟩ := newest
    rw [amounts]
    by_cases same : kind = opcode
    · rw [if_pos same, Code.written, extend_of_same same]
      split <;> rfl
    · have alone : ¬ (model.written ((kind, value) :: earlier)).JoinedBy false opcode := by
        rintro (joins | ⟨never, -⟩)
        · exact same joins
        · cases never
      rw [if_neg same, extend_of_not_joinedBy alone]
      rfl

theorem folded_joined (folded : base.Folded folding) : (base.joined folding pending).Folded folding := by
  induction pending with
  | nil => exact folded
  | cons newest earlier ih => exact folded_extend ih

theorem proper_joined (proper : base.Proper) (sound : Amounts pending) :
    (base.joined folding pending).Proper := by
  induction pending with
  | nil => exact proper
  | cons newest earlier ih =>
    obtain ⟨written, marked, others⟩ := amounts_cons sound
    exact proper_extend (ih others) written marked

theorem constants_joined (fixed : base.constants = base) (sound : Amounts pending) :
    (base.joined folding pending).constants = base.joined folding pending := by
  induction pending with
  | nil => exact fixed
  | cons newest earlier ih =>
    obtain ⟨written, -, others⟩ := amounts_cons sound
    rw [joined, constants_extend written, ih others]

/-- With passes, an amount behind those that joined adds to the newest of them. -/
theorem extend_joined (folded : base.Folded folding) (proper : base.Proper)
    (fixed : base.constants = base) (sound : Amounts pending)
    (marked : amount ≠ 0) :
    (base.joined folding pending).extend folding opcode amount =
      base.joined folding (amounts opcode amount pending) := by
  cases pending with
  | nil => rfl
  | cons newest earlier =>
    obtain ⟨kind, value⟩ := newest
    obtain ⟨written, -, others⟩ := amounts_cons sound
    rw [amounts]
    by_cases same : kind = opcode
    · subst same
      rw [if_pos rfl, joined, extend_extend (folded_joined folded) (proper_joined proper others)
        (constants_joined fixed others) written value marked]
      split <;> rfl
    · rw [if_neg same]
      rfl

/-- The same amounts behind codes of which one refines the other. -/
theorem refines_joined (refines : Behavior.Refines clear (base.exec true) (model.exec true))
    (proper : base.Proper) (sound : Amounts pending) :
    Behavior.Refines clear ((base.joined folding pending).exec true)
      ((model.written pending).exec true) := by
  induction pending with
  | nil => exact refines
  | cons newest earlier ih =>
    obtain ⟨opcode, amount⟩ := newest
    obtain ⟨written, marked, others⟩ := amounts_cons sound
    have alone : ({ opcode := opcode, value := amount } : Instruction).Sound :=
      .of_amount (by rcases written with rfl | rfl <;> simp) marked
    have same : Behavior.Refines false (Behavior.act { opcode := opcode, value := amount }) _ :=
      Behavior.refines_straight (straight_of_written written) alone
    have appended : Behavior.Refines clear
        (((base.joined folding earlier).plain { opcode := opcode, value := amount }).exec true)
        (((model.written earlier).plain { opcode := opcode, value := amount }).exec true) :=
      (ih others).andThen same (Behavior.extends_act _)
    exact (improves_extend (proper_joined proper others) written marked).refines appended

/-! ### Codes that follow others -/

/-- Both codes are those of bases behind which the same amounts were written, and one base refines the
other. -/
structure Follows (folding clear : Bool) (model code : Code) : Prop where
  proper : code.Proper
  folded : code.Folded folding
  parts : ∃ (pending : List (Opcode × Int)) (base plain : Code), Amounts pending ∧
    model = plain.written pending ∧ code.constants = base.joined folding pending ∧ plain.Apart ∧
      base.constants = base ∧ base.Folded folding ∧ base.Proper ∧
        Behavior.Refines clear (base.exec true) (plain.exec true)

/-- What follows refines. -/
theorem Follows.refines (follows : Follows folding clear model code) :
    Behavior.Refines clear (code.exec true) (model.exec true) := by
  obtain ⟨pending, base, plain, sound, rfl, same, -, -, -, proper, refines⟩ := follows.parts
  rw [← exec_constants, same]
  exact refines_joined refines proper sound

/-- What refines follows, as long as nothing joins what it ends in. -/
theorem follows_of_refines (proper : code.Proper) (folded : code.Folded folding) (apart : model.Apart)
    (refines : Behavior.Refines clear (code.exec true) (model.exec true)) :
    Follows folding clear model code := by
  refine ⟨proper, folded, [], code.constants, model, ?_, rfl, rfl, apart, constants_constants code,
    folded_constants folded, proper_constants proper, ?_⟩
  · exact fun _ _ member => absurd member List.not_mem_nil
  · rwa [exec_constants]

/-- A move or an addition behind both keeps them so. -/
theorem Follows.extend (follows : Follows folding clear model code)
    (written : opcode = .move ∨ opcode = .add) (marked : amount ≠ 0) :
    Follows folding clear (model.extend false opcode amount) (code.extend folding opcode amount) := by
  obtain ⟨pending, base, plain, sound, rfl, same, apart, fixed, tidy, proper, refines⟩ := follows.parts
  refine ⟨proper_extend follows.proper written marked, folded_extend follows.folded,
    amounts opcode amount pending, base, plain, amounts_amounts sound written marked, ?_, ?_, apart,
    fixed, tidy, proper, refines⟩
  · exact extend_written apart written
  · rw [constants_extend written, same, extend_joined tidy proper fixed sound marked]

end Code

end TapeMachine
