/-
**Passes.**

The improvements that can be asked for, each under a name. All but `setFolding`, which acts where
instructions are written, look at a loop that was just closed: they are tried in the order of
`Pass.onLoops`, and the first that applies decides what becomes of the loop.

* `improve_of_disabled`: without any pass a loop stays as it is;
* `improve_pass_mem`: only a pass that was asked for changes anything.
-/

import TapeMachine.Loop.Dead
import TapeMachine.Loop.Clearing
import TapeMachine.Loop.Scanning
import TapeMachine.Loop.Counted

namespace TapeMachine

/-- An improvement of the program. -/
inductive Pass where
  /-- Loops that are never entered are deleted. -/
  | commentBlock
  /-- Loops that clear a cell become resets. -/
  | reset
  /-- Loops that look for a zero cell become seeks. -/
  | seek
  /-- Counted loops become products. -/
  | multiplication
  /-- Loops without a body are deleted. -/
  | emptyLoop
  /-- An addition to a cell that was just cleared or set becomes a constant. -/
  | setFolding
  deriving DecidableEq

namespace Pass

/-- All passes. -/
def all : List Pass :=
  [commentBlock, reset, seek, multiplication, emptyLoop, setFolding]

theorem mem_all (pass : Pass) : pass ∈ all := by
  cases pass <;> decide

/-- The passes that look at closed loops, in the order in which they are tried. -/
def onLoops : List Pass :=
  [commentBlock, reset, seek, multiplication, emptyLoop]

/-- The name by which a pass is asked for. -/
def name : Pass → String
  | commentBlock => "comment-block"
  | reset => "reset"
  | seek => "seek"
  | multiplication => "multiplication"
  | emptyLoop => "empty-loop"
  | setFolding => "set-folding"

/-- The pass of a name. -/
def ofName? (name : String) : Option Pass :=
  all.find? fun pass => pass.name = name

theorem ofName?_name (pass : Pass) : ofName? pass.name = some pass := by
  cases pass <;> decide

end Pass

/-- A choice of passes. -/
abbrev Passes := Pass → Bool

namespace Passes

/-- Every pass. -/
def all : Passes := fun _ => true

/-- No pass. -/
def none : Passes := fun _ => false

/-- The passes in a list. -/
def ofList (passes : List Pass) : Passes := fun pass => passes.contains pass

/-- The passes of a choice, in their order. -/
def toList (passes : Passes) : List Pass := Pass.all.filter passes

@[simp] theorem mem_toList {passes : Passes} {pass : Pass} :
    pass ∈ passes.toList ↔ passes pass = true := by
  simp [toList, Pass.mem_all]

end Passes

/-- What a pass makes of a loop. -/
structure Verdict where
  edit : Option Edit
  refusal : Option Loop.Refusal := none

/-- Tries a pass on the loop that begins at `start` and ends with the text. -/
def Pass.judge (pass : Pass) (text : Text) (start : Nat) : Except Fault Verdict :=
  match pass with
  | .commentBlock => return ⟨← Loop.dead text start, none⟩
  | .reset => return ⟨← Loop.clearing text start, none⟩
  | .seek => return ⟨← Loop.scanning text start, none⟩
  | .multiplication =>
    match Loop.counted text start with
    | .ok edit => return ⟨some edit, none⟩
    | .error (.refusal refusal) => return ⟨none, some refusal⟩
    | .error (.fault fault) => throw fault
  | .emptyLoop => return ⟨← Loop.empty text start, none⟩
  | .setFolding => return ⟨none, none⟩

/-- What becomes of a loop: the pass that applied with its edit, and what was refused before. -/
structure Improvement where
  applied : Option (Pass × Edit)
  refusals : List Loop.Refusal

/-- Tries the passes of a list in order until one applies. -/
def improveBy (passes : Passes) (text : Text) (start : Nat) : List Pass → Except Fault Improvement
  | [] => return ⟨none, []⟩
  | pass :: rest => do
    if passes pass then
      let verdict ← pass.judge text start
      match verdict.edit with
      | some edit => return ⟨some (pass, edit), verdict.refusal.toList⟩
      | none =>
        let later ← improveBy passes text start rest
        return ⟨later.applied, verdict.refusal.toList ++ later.refusals⟩
    else
      improveBy passes text start rest

/-- What becomes of the loop that begins at `start` and ends with the text. -/
def improve (passes : Passes) (text : Text) (start : Nat) : Except Fault Improvement :=
  improveBy passes text start Pass.onLoops

theorem improve_of_disabled {passes : Passes} (disabled : ∀ pass, passes pass = false) (text : Text)
    (start : Nat) : improve passes text start = .ok ⟨none, []⟩ := by
  simp [improve, improveBy, Pass.onLoops, disabled]
  rfl

theorem improve_pass_mem {passes : Passes} {text : Text} {start : Nat} {pass : Pass} {edit : Edit}
    {refusals : List Loop.Refusal}
    (improved : improve passes text start = .ok ⟨some (pass, edit), refusals⟩) :
    passes pass = true := by
  unfold improve at improved
  generalize Pass.onLoops = order at improved
  induction order generalizing refusals with
  | nil => simp [improveBy, pure, Except.pure] at improved
  | cons first rest ih =>
    rw [improveBy] at improved
    by_cases enabled : passes first
    · rw [if_pos enabled] at improved
      cases judged : first.judge text start with
      | error fault => simp [judged, bind, Except.bind] at improved
      | ok verdict =>
        rcases verdict with ⟨_ | found, refusal⟩
        · cases later : improveBy passes text start rest with
          | error fault => simp [judged, later, bind, Except.bind] at improved
          | ok improvement =>
            simp only [judged, later, bind, Except.bind, pure, Except.pure, Except.ok.injEq,
              Improvement.mk.injEq] at improved
            exact ih (later.trans (by rw [← improved.1]))
        · simp only [judged, bind, Except.bind, pure, Except.pure, Except.ok.injEq,
            Improvement.mk.injEq, Option.some.injEq, Prod.mk.injEq] at improved
          exact improved.1.1 ▸ enabled
    · rw [if_neg enabled] at improved
      exact ih improved

end TapeMachine
