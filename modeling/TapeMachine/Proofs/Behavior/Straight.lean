/-
**A straight code does what its sweep says.**

* `Code.reaches_exec`: behind a behavior that comes to what a sight says, a straight code comes to what
  its sweep makes of it;
* `Code.reaches_loop`: and a counted loop to what all its turns make of it.
-/

import TapeMachine.Proofs.Behavior.Reaches
import TapeMachine.Proofs.Counted.Rounds

namespace TapeMachine

/-- The stack is as it was, and inside of a region so is the register. -/
def Machine.Holds (inner : Bool) (stack : List UInt8) (register : UInt8) (machine : Machine) : Prop :=
  machine.stack = stack ∧ (inner = true → machine.register = register)

namespace Reaches

variable {behavior : Behavior} {start : Run} {sight : Sight} {inner fast keep : Bool}
  {stack : List UInt8} {register : UInt8}

theorem act {instruction : Instruction} (straight : instruction.opcode.IsStraight inner)
    (sound : instruction.Sound)
    (reaches : Reaches behavior start sight (Machine.Holds inner stack register)) :
    Reaches (behavior.andThen (Behavior.act instruction)) start (instruction.sweep register sight)
      (Machine.Holds inner stack register) := by
  refine reaches.step (Instruction.cost_sweep straight register sight)
    (Instruction.visited_sweep register instruction sight) (fun _ => rfl) ?_ ?_
  · intro run shows holds inside
    obtain ⟨next, performed, shown, terminal, kept, stacked, grows⟩ :=
      Instruction.perform_of_isIndex straight sound shows holds.2 inside
    refine ⟨next, shown, terminal, ⟨stacked.trans holds.1, fun inside => kept.trans (holds.2 inside)⟩,
      grows, fun left => ?_⟩
    rw [Behavior.act, performed]
  · intro run shows _ outside
    obtain ⟨last, performed, terminal⟩ :=
      Instruction.perform_of_not_isIndex straight sound shows outside
    refine ⟨last, terminal, fun left => ?_⟩
    rw [Behavior.act, performed]

/-- What only goes on elsewhere takes an instruction and changes nothing. -/
theorem hop {last : Behavior} (waits : ∀ run, last 0 run = .broken (.running run))
    (moves : ∀ run : Run, run.cell = sight.cell →
      ∃ position, ∀ left, last (left + 1) run = .finished left (run.hop position))
    (reaches : Reaches behavior start sight (Machine.Holds inner stack register)) :
    Reaches (behavior.andThen last) start sight.tick (Machine.Holds inner stack register) := by
  refine reaches.stay rfl rfl waits fun run shows holds => ?_
  have under : run.cell = sight.cell := shows.cell
  obtain ⟨position, done⟩ := moves run under
  exact ⟨run.hop position, ⟨shows.cells, shows.index⟩, rfl, holds, Head.Grows.refl _, done⟩

end Reaches

namespace Behavior

/-- Enters a region. -/
def entry (fast : Bool) : Behavior
  | 0, run => .broken (.running run)
  | left + 1, run => .finished left (enter fast run)

theorem region_of_ne_zero {keep fast : Bool} {size : Nat} {body : Behavior} {run : Run}
    (marked : run.cell ≠ 0) (left : Nat) :
    region keep fast size body left run =
      (entry fast).andThen (body.andThen (leave keep fast)) left run := by
  cases left with
  | zero => rfl
  | succ left =>
    simp only [region, if_neg marked]
    rfl

theorem andThen_skip (behavior : Behavior) : behavior.andThen skip = behavior := by
  funext left run
  simp only [Behavior.andThen]
  cases behavior left run <;> rfl

theorem andThen_assoc (first second third : Behavior) :
    (first.andThen second).andThen third = first.andThen (second.andThen third) := by
  funext left run
  exact Outcome.andThen_assoc (first left run) second third

end Behavior

namespace Reaches

variable {behavior : Behavior} {start : Run} {sight : Sight} {inner fast keep : Bool}
  {stack : List UInt8} {register : UInt8}

/-- Entering a region puts the counter into the register, and on the stack unless the region is
fast. -/
theorem entry (fast : Bool) (inside : Bool)
    (reaches : Reaches behavior start sight (Machine.Holds inner stack register)) :
    Reaches (behavior.andThen (Behavior.entry fast)) start (sight.enter fast)
      (Machine.Holds inside (if fast then stack else sight.cell :: stack) sight.cell) := by
  refine reaches.stay (Sight.cost_enter fast sight) (Sight.visited_enter fast sight) (fun _ => rfl) ?_
  intro run shows holds
  have under : run.cell = sight.cell := shows.cell
  refine ⟨Behavior.enter fast run, ?_, ?_, ?_, ?_, fun _ => rfl⟩
  all_goals
    rcases run with ⟨⟨head, position, factor, rest⟩, terminal⟩
    obtain rfl : rest = stack := holds.1
    replace under : head.read = sight.cell := under
    obtain ⟨cells, index⟩ := shows
    cases fast
  · exact ⟨cells, index⟩
  · exact ⟨Head.get_write cells index 0, index⟩
  · rfl
  · rfl
  · exact ⟨congrArg (· :: _) under, fun _ => under⟩
  · exact ⟨rfl, fun _ => under⟩
  · exact Head.Grows.refl _
  · exact Head.grows_write head 0

/-- Leaving a region that does not use the stack leaves everything as it is. -/
theorem leave_fast {counter : UInt8}
    (reaches : Reaches behavior start sight (Machine.Holds true stack counter)) :
    Reaches (behavior.andThen (Behavior.leave keep true)) start (sight.leave keep true)
      (Machine.Holds false stack register) := by
  cases keep with
  | true =>
    refine reaches.stay rfl rfl (fun _ => rfl) fun run shows holds => ?_
    exact ⟨run.hop (run.machine.position + 1), ⟨shows.cells, shows.index⟩, rfl,
      ⟨holds.1, by rintro ⟨⟩⟩, Head.Grows.refl _, fun _ => rfl⟩
  | false =>
    have done : Behavior.leave false true = Behavior.skip := rfl
    rw [done, Behavior.andThen_skip]
    exact reaches.imp fun machine holds => ⟨holds.1, by rintro ⟨⟩⟩

/-- Leaving a region that uses the stack clears the counter, and the register is again that of the
region around. -/
theorem leave_stacked {counter : UInt8} (anchored : inner = true → stack.headD 0 = register)
    (reaches : Reaches behavior start sight (Machine.Holds true (counter :: stack) counter)) :
    Reaches (behavior.andThen (Behavior.leave keep false)) start (sight.leave keep false)
      (Machine.Holds inner stack register) := by
  have stays : keep || !false = true := by cases keep <;> rfl
  have done : Behavior.leave keep false = Behavior.act { opcode := .pop } := if_pos stays
  have single : (Code.regionEnd keep false 0).length = 1 := by cases keep <;> rfl
  rw [done]
  refine reaches.stay (congrArg _ single) rfl (fun _ => rfl) fun run shows holds => ?_
  rcases run with ⟨⟨head, position, factor, rest⟩, terminal⟩
  obtain rfl : rest = counter :: stack := holds.1
  refine ⟨⟨⟨head.write 0, position + 1, stack.headD 0, stack⟩, terminal⟩,
    ⟨Head.get_write shows.cells shows.index 0, shows.index⟩, rfl, ⟨rfl, anchored⟩,
    Head.grows_write head 0, fun _ => rfl⟩

theorem leave (keep : Bool) {counter : UInt8} (stacked : inner = true → fast = false)
    (anchored : inner = true → stack.headD 0 = register)
    (reaches : Reaches behavior start sight
      (Machine.Holds true (if fast then stack else counter :: stack) counter)) :
    Reaches (behavior.andThen (Behavior.leave keep fast)) start (sight.leave keep fast)
      (Machine.Holds inner stack register) := by
  cases fast with
  | false => exact reaches.leave_stacked anchored
  | true =>
    have outermost : inner = false := by
      cases inner with
      | true => cases stacked rfl
      | false => rfl
    exact outermost ▸ reaches.leave_fast

end Reaches

/-- Behind a behavior that comes to what a sight says, a straight code comes to what its sweep makes of
it. Inside of a region with others inside of it, the register must be on the stack. -/
theorem Code.reaches_exec {inner : Bool} {code : Code} (straight : code.Straight inner) (keep : Bool)
    {behavior : Behavior} {start : Run} {sight : Sight} {stack : List UInt8} {register : UInt8}
    (anchored : inner = true → code.Leaf ∨ stack.headD 0 = register)
    (reaches : Reaches behavior start sight (Machine.Holds inner stack register)) :
    Reaches (behavior.andThen (code.exec keep)) start (code.sweep keep register sight)
      (Machine.Holds inner stack register) := by
  induction code generalizing inner behavior sight stack register with
  | empty =>
    rw [exec, Behavior.andThen_skip]
    exact reaches
  | plain before instruction ih =>
    have early := ih straight.1 anchored reaches
    rw [exec, ← Behavior.andThen_assoc]
    exact early.act straight.2.1 straight.2.2
  | loop before body _ _ => exact straight.elim
  | region before fast body ihBefore ihBody =>
    obtain ⟨outer, stacked, leaf, inside, -, -⟩ := straight
    have deep : inner = true → stack.headD 0 = register := fun within =>
      (anchored within).resolve_left id
    have early := ihBefore outer (fun within => .inr (deep within)) reaches
    rw [exec, ← Behavior.andThen_assoc]
    simp only [sweep]
    by_cases zero : (before.sweep keep register sight).cell = 0
    · rw [if_pos zero]
      refine early.hop (fun _ => rfl) fun run under => ?_
      refine ⟨run.machine.position + 1 + body.size keep + (regionEnd keep fast 0).length, ?_⟩
      exact fun left => if_pos (under.trans zero)
    · rw [if_neg zero]
      have within := ihBody inside (fun _ => by
        cases fast with
        | true => exact .inl (leaf rfl)
        | false => exact .inr rfl) (early.entry fast true)
      have behind := within.leave keep stacked deep
      rw [Behavior.andThen_assoc, Behavior.andThen_assoc] at behind
      refine early.congr (fun run shows _ left => ?_) behind
      have under : run.cell = (before.sweep keep register sight).cell :=
        shows.cell
      exact Behavior.region_of_ne_zero (fun none => zero (under.symm.trans none)) left

/-! ### Counted loops -/

/-- Goes on elsewhere. -/
def Behavior.goTo (target : Run → Nat) : Behavior
  | 0, run => .broken (.running run)
  | left + 1, run => .finished left (run.hop (target run))

namespace Code

variable {body : Code} {behavior : Behavior} {start : Run} {sight : Sight} {stack : List UInt8}
  (counted : body.Counted)

include counted

/-- One turn: the body and what is done behind it, if that does the other turns. -/
theorem reaches_turn {last : Behavior} (rest : Behavior) (target : Run → Nat) {turns : Nat}
    (count : sight.cell.toNat = turns + 1)
    (reaches : Reaches behavior start sight (Machine.Holds false stack 0))
    (agree : ∀ run, run.Shows sight → run.cell ≠ 0 →
      (∀ left, behavior (left + sight.cost) start = .finished left run) → ∀ left, last left run =
        (Behavior.goTo target).andThen ((body.exec true).andThen rest) left run)
    (others : ∀ {behavior : Behavior} {sight : Sight}, sight.cell.toNat = turns →
      Reaches behavior start sight (Machine.Holds false stack 0) →
      Reaches (behavior.andThen rest) start (body.rounds turns sight.tick)
        (Machine.Holds false stack 0)) :
    Reaches (behavior.andThen last) start (body.rounds (turns + 1) sight.tick)
      (Machine.Holds false stack 0) := by
  have jumped : Reaches (behavior.andThen (Behavior.goTo target)) start sight.tick
      (Machine.Holds false stack 0) :=
    reaches.hop (fun _ => rfl) fun run _ => ⟨target run, fun _ => rfl⟩
  have turned := reaches_exec counted.straight true (by rintro ⟨⟩) jumped
  have fewer : (body.sweep true 0 sight.tick).cell.toNat = turns := by
    have taken : (body.sweep true 0 sight.tick).cell = sight.cell - 1 := cell_turn counted sight.tick
    have one : (1 : UInt8) ≤ sight.cell := by
      rw [UInt8.le_iff_toNat_le, count]
      exact Nat.le_add_left 1 turns
    rw [taken, UInt8.toNat_sub_of_le _ _ one, count]
    rfl
  have behind := others fewer turned
  rw [Behavior.andThen_assoc, Behavior.andThen_assoc] at behind
  refine reaches.congr (fun run shows done => agree run shows ?_ done) behind
  intro zero
  have under : run.cell = sight.cell := shows.cell
  rw [← under, zero] at count
  cases count

/-- At the end of the loop the other turns are done. -/
theorem reaches_again (back : Nat)
    (reaches : Reaches behavior start sight (Machine.Holds false stack 0)) :
    Reaches (behavior.andThen (Behavior.again back (body.exec true))) start
      (body.rounds sight.cell.toNat sight.tick) (Machine.Holds false stack 0) := by
  have spends := body.spends_exec true
  generalize count : sight.cell.toNat = turns
  induction turns generalizing behavior sight with
  | zero =>
    have zero : sight.cell = 0 := UInt8.toNat_inj.mp count
    refine reaches.hop (fun _ => rfl) fun run under => ⟨run.machine.position + 1, fun left => ?_⟩
    rw [Behavior.again_succ spends, if_pos (under.trans zero)]
  | succ turns ih =>
    refine reaches_turn counted _ (fun _ => back) count reaches ?_ fun fewer turned => ih turned fewer
    intro run _ marked _ left
    cases left with
    | zero => rfl
    | succ left =>
      rw [Behavior.again_succ spends, if_neg marked]
      rfl

/-- A counted loop comes to what all its turns make of a sight. -/
theorem reaches_loop (reaches : Reaches behavior start sight (Machine.Holds false stack 0)) :
    Reaches (behavior.andThen (Behavior.loop (body.size true) (body.exec true))) start
      (body.rounds sight.cell.toNat sight.tick) (Machine.Holds false stack 0) := by
  have spends := body.spends_exec true
  cases count : sight.cell.toNat with
  | zero =>
    have zero : sight.cell = 0 := UInt8.toNat_inj.mp count
    refine reaches.hop (fun _ => rfl) fun run under =>
      ⟨run.machine.position + 1 + body.size true + 1, fun left => ?_⟩
    rw [Behavior.loop_succ spends, if_pos (under.trans zero)]
  | succ turns =>
    -- The body begins behind the place to which the behavior comes, if it comes to one.
    obtain ⟨back, there⟩ : ∃ back, ∀ run : Run,
        (∀ left, behavior (left + sight.cost) start = .finished left run) →
          run.machine.position + 1 = back := by
      by_cases arrives : ∃ run, ∀ left, behavior (left + sight.cost) start = .finished left run
      · obtain ⟨run, done⟩ := arrives
        refine ⟨run.machine.position + 1, fun other same => ?_⟩
        have equal := (done 0).symm.trans (same 0)
        cases equal
        rfl
      · exact ⟨0, fun run done => (arrives ⟨run, done⟩).elim⟩
    refine reaches_turn counted (Behavior.again back (body.exec true))
      (fun run => run.machine.position + 1) count reaches ?_ fun fewer turned => ?_
    · intro run _ marked done left
      cases left with
      | zero => rfl
      | succ left =>
        rw [Behavior.loop_succ spends, if_neg marked, there run done]
        simp only [Behavior.andThen, Behavior.goTo, Outcome.andThen_finished, there run done]
    · exact fewer ▸ reaches_again counted back turned

end Code

end TapeMachine
