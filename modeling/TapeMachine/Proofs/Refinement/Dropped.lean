/-
**Leaving out the idle ends of regions.**

A region without the stack ends in an instruction that does nothing. Finished texts leave it out, and
so do one instruction less for every such region they come through.

* `Sight.Improves.sweep`: what improves goes on to improve;
* `Code.refines_dropped`: a code without idle ends refines the code with them.
-/

import TapeMachine.Proofs.Refinement.Closing

namespace TapeMachine

namespace Sight.Improves

variable {better worse : Sight} (improves : better.Improves worse)

include improves

theorem cell : better.cell = worse.cell := by
  unfold Sight.cell
  rw [improves.cells, improves.index]

theorem tick : better.tick.Improves worse.tick :=
  ⟨improves.cells, improves.index, Nat.succ_le_succ improves.cost, improves.visited⟩

theorem enter (fast : Bool) : (better.enter fast).Improves (worse.enter fast) := by
  obtain ⟨cells, index, cost, visited⟩ := improves
  unfold Sight.enter
  split
  · exact ⟨by simp only [Sight.tick, Sight.write, cells, index], index, Nat.succ_le_succ cost, visited⟩
  · exact ⟨cells, index, Nat.succ_le_succ cost, visited⟩

/-- Leaving without the idle end. -/
theorem leave (fast : Bool) : (better.leave false fast).Improves (worse.leave true fast) := by
  obtain ⟨cells, index, cost, visited⟩ := improves
  cases fast with
  | true => exact ⟨cells, index, Nat.le_succ_of_le cost, visited⟩
  | false =>
    exact ⟨by simp only [Sight.leave, Sight.write, cells, index, Bool.false_eq_true, if_false], index,
      Nat.succ_le_succ cost, visited⟩

theorem sweep {inner : Bool} {instruction : Instruction}
    (straight : instruction.opcode.IsStraight inner) (register : UInt8) :
    (instruction.sweep register better).Improves (instruction.sweep register worse) := by
  have one := Instruction.cost_sweep straight register better
  have two := Instruction.cost_sweep straight register worse
  have cost := improves.cost
  have visits : instruction.visits better = instruction.visits worse := by
    unfold Instruction.visits
    simp only [improves.index, improves.cell]
  have cells : (instruction.sweep register better).cells = (instruction.sweep register worse).cells := by
    unfold Instruction.sweep
    have under := improves.cell
    cases instruction.opcode with
    | store =>
      simp only [under]
      split <;> simp only [Sight.tick, Sight.write, Sight.addAt, improves.cells, improves.index]
    | _ =>
      simp only [Sight.tick, Sight.write, Sight.addAt, Sight.advance, under, improves.cells,
        improves.index]
  refine ⟨cells, ?_, by omega, ?_⟩
  · rw [Instruction.index_sweep straight, Instruction.index_sweep straight, improves.index]
  · intro cell member
    rw [Instruction.visited_sweep] at member ⊢
    rw [visits] at member
    rcases List.mem_append.mp member with here | early
    · exact List.mem_append_left _ here
    · exact List.mem_append_right _ (improves.visited cell early)

end Sight.Improves

namespace Code

/-- A straight code without idle ends. -/
theorem sweep_dropped {inner : Bool} {code : Code} (straight : code.Straight inner)
    (register : UInt8) {better worse : Sight} (improves : better.Improves worse) :
    (code.sweep false register better).Improves (code.sweep true register worse) := by
  induction code generalizing inner register better worse with
  | empty => exact improves
  | plain before instruction ih =>
    exact (ih straight.1 register improves).sweep straight.2.1 register
  | loop before body _ _ => exact straight.elim
  | region before fast body ihBefore ihBody =>
    have outer := ihBefore straight.1 register improves
    unfold sweep
    simp only [outer.cell]
    split
    · exact outer.tick
    · exact (ihBody straight.2.2.2.1 _ (outer.enter fast)).leave fast

/-- **Leaving out the idle ends** refines a code that is made as drafts are. -/
theorem refines_dropped {code : Code} (proper : code.Proper) {clear : Bool} :
    Behavior.Refines clear (code.exec false) (code.exec true) := by
  induction code generalizing clear with
  | empty => exact Behavior.refines_skip
  | plain before instruction ih =>
    obtain ⟨early, opcode, sound⟩ := proper
    exact (ih early).andThen (Behavior.refines_plain opcode sound) (Behavior.extends_act _)
  | loop before body ihBefore ihBody =>
    have looped : Behavior.Refines false (Behavior.loop (body.size false) (body.exec false))
        (Behavior.loop (body.size true) (body.exec true)) :=
      (ihBody proper.2).loop (body.spends_exec false) (body.spends_exec true)
        (body.extends_exec false) _ _
    exact (ihBefore proper.1).andThen looped (Behavior.extends_loop (body.extends_exec false))
  | region before fast body ihBefore _ =>
    obtain ⟨early, leaf, inside, back, alone⟩ := proper
    have level : (empty.region fast body).Straight false :=
      ⟨trivial, by rintro ⟨⟩, leaf, inside, back, alone⟩
    have dropped : Behavior.Refines false ((empty.region fast body).exec false)
        ((empty.region fast body).exec true) :=
      Behavior.refines_of_reaches _ _ 0 0 (reaches_exec_self level false)
        (reaches_exec_self level true) (fun sight => sweep_dropped level 0 (.refl sight))
        (extends_exec false _)
    exact (ihBefore early).andThen dropped (Behavior.extends_region (body.extends_exec false))

end Code

end TapeMachine
