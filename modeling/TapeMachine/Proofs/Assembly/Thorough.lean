/-
**Codes on which nothing is left to do.**

A loop is looked at once, when it is closed, and a move or an addition is joined once, when it is
written. Later symbols work on the end of the code only, so that what was seen to then stays so.

* `Instruction.TakesAdd`, `Code.TakesAdd`: what an addition joins;
* `Code.Thorough`: no addition stands where it would have joined, and every loop is spared;
* `Code.thorough_extend`, `Closes.thorough`: what is written, and what becomes of a loop;
* `Reached.thorough`: so it is on all levels of every draft.
-/

import TapeMachine.Proofs.Assembly.Reached

namespace TapeMachine

/-- An addition joins the instruction, if it is written directly behind it. -/
def Instruction.TakesAdd (folding : Bool) (instruction : Instruction) : Prop :=
  instruction.opcode = .add ∨ folding = true ∧
    (instruction.opcode = .set ∨ instruction.opcode = .reset ∧ instruction.value = 1)

/-- An addition joins the last instruction. -/
def Code.TakesAdd (folding : Bool) : Code → Prop
  | plain _ last => last.TakesAdd folding
  | empty | loop _ _ | region _ _ _ => False

/-- Every addition stands behind what it does not join, and every loop is spared. The code is the first
of the program, if it is `outermost`. -/
def Code.Thorough (passes : Passes) : Bool → Code → Prop
  | _, empty => True
  | outermost, plain before last =>
    before.Thorough passes outermost ∧ (last.opcode = .add → ¬ before.TakesAdd (passes .setFolding))
  | outermost, loop before body =>
    before.Thorough passes outermost ∧ body.Thorough passes false ∧ Spared passes outermost before body
  | outermost, region before _ _ => before.Thorough passes outermost

/-- The codes around the open loops are thorough, the last of them as the first of the program. -/
def ThoroughAround (passes : Passes) : List Code → Prop
  | [] => True
  | outer :: rest => outer.Thorough passes rest.isEmpty ∧ ThoroughAround passes rest

section Thoroughness

variable {passes : Passes} {outermost : Bool}

/-- A code stays thorough when a move or an addition is written. -/
theorem Code.thorough_extend {code : Code} (thorough : code.Thorough passes outermost)
    (opcode : Opcode) (amount : Int) :
    (code.extend (passes .setFolding) opcode amount).Thorough passes outermost := by
  cases code with
  | plain before last =>
    obtain ⟨early, apart⟩ := id thorough
    rw [extend]
    split
    · split
      · exact early
      · exact ⟨early, apart⟩
    · next other =>
      split
      · next constant =>
        refine ⟨early, fun added => ?_⟩
        cases constant.2.2.symm.trans added
      · next unset =>
        split
        · refine ⟨early, fun added => ?_⟩
          cases added
        · next uncleared =>
          refine ⟨thorough, ?_⟩
          rintro (rfl : opcode = .add) (same | ⟨folding, set | ⟨reset, single⟩⟩)
          · exact other same
          · exact unset ⟨folding, rfl, set⟩
          · exact uncleared ⟨folding, rfl, reset, single⟩
  | empty | loop before body | region before fast body => exact ⟨thorough, fun _ => id⟩

/-- What becomes of a loop is thorough, as what stands before it and its body are. -/
theorem Closes.thorough {may : Code → Prop} {outer body code : Code}
    (closes : Closes passes may outermost outer body code)
    (around : outer.Thorough passes outermost) (inside : body.Thorough passes false) :
    code.Thorough passes outermost := by
  cases closes with
  | kept spared => exact ⟨around, inside, spared⟩
  | first | dead | again | emptied => exact around
  | wider enabled sole odd behind opcode =>
    subst behind
    refine ⟨around.1.1, fun added => ?_⟩
    cases opcode.symm.trans added
  | cleared | sought => exact ⟨around, nofun⟩
  | fused =>
    rcases body.fuse_cases with ⟨product, -, -, same⟩ | ⟨-, same⟩
    · rw [same]
      exact ⟨around, nofun⟩
    · rw [same]
      exact around

/-- **Every draft is thorough** on all its levels. -/
theorem Reached.thorough {may : Code → Prop} {symbols : List Symbol} {outers : List Code} {code : Code}
    (reached : Reached passes may symbols outers code) :
    code.Thorough passes outers.isEmpty ∧ ThoroughAround passes outers := by
  induction reached with
  | start => exact ⟨trivial, trivial⟩
  | step before takes ih =>
    obtain ⟨here, around⟩ := ih
    cases takes with
    | fold folds => exact ⟨Code.thorough_extend here _ _, around⟩
    | write | read => exact ⟨⟨here, nofun⟩, around⟩
    | opening => exact ⟨trivial, here, around⟩
    | closing closes => exact ⟨closes.thorough around.1 here, around.2⟩

end Thoroughness

end TapeMachine
