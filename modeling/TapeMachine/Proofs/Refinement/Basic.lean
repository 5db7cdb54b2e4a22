/-
**One behavior for another.**

A behavior refines another if it can take its place: it makes at least the calls on the streams that
the other makes, and where the other comes to its end or ends the run, it does so too, with the same
cells, head, stack and streams, no more instructions and no more pages. Where an index leaves its
range in the other, nothing but the calls before is promised.

* `Run.Resembles`: what is the same in two runs; positions are not, and neither is the register;
* `Behavior.Refines`: from runs that resemble each other, and with at least as many instructions left;
* `Behavior.Improves`: from the same run;
* `Refines.andThen`, `Refines.loop`: what refines can be put in sequence and into loops.
-/

import TapeMachine.Program
import TapeMachine.Proofs.Behavior.Straight

namespace TapeMachine

/-! ### Runs that resemble each other -/

/-- The run has the cells, head, stack and streams of its model, and stores no more of the tape. -/
structure Run.Resembles (run model : Run) : Prop where
  cells : ∀ cell, run.machine.head.tape.get cell = model.machine.head.tape.get cell
  index : run.machine.head.index = model.machine.head.index
  stack : run.machine.stack = model.machine.stack
  within : run.machine.head.tape.Within model.machine.head.tape
  terminal : run.terminal = model.terminal

namespace Run

/-- The calls on the streams so far. -/
def calls (run : Run) : List Call := run.terminal.history.toList

/-- The run begins on a zero cell, if it has to. -/
def Begins (clear : Bool) (run : Run) : Prop := clear = true → run.cell = 0

theorem Resembles.refl (run : Run) : run.Resembles run :=
  ⟨fun _ => rfl, rfl, rfl, Tape.Within.refl _, rfl⟩

theorem Resembles.trans {first second third : Run} (here : first.Resembles second)
    (there : second.Resembles third) : first.Resembles third where
  cells cell := (here.cells cell).trans (there.cells cell)
  index := here.index.trans there.index
  stack := here.stack.trans there.stack
  within := here.within.trans there.within
  terminal := here.terminal.trans there.terminal

theorem Resembles.hop {run model : Run} (resembles : run.Resembles model) (one two : Nat) :
    (run.hop one).Resembles (model.hop two) :=
  ⟨resembles.cells, resembles.index, resembles.stack, resembles.within, resembles.terminal⟩

theorem Resembles.cell {run model : Run} (resembles : run.Resembles model) :
    run.cell = model.cell := by
  rw [Run.cell_eq_get, Run.cell_eq_get, resembles.cells, resembles.index]

theorem Resembles.calls {run model : Run} (resembles : run.Resembles model) :
    run.calls = model.calls := congrArg (·.history.toList) resembles.terminal

theorem Resembles.begins {run model : Run} (resembles : run.Resembles model) {clear : Bool}
    (begins : model.Begins clear) : run.Begins clear :=
  fun zero => resembles.cell.trans (begins zero)

end Run

/-! ### Outcomes -/

namespace Outcome

/-- The calls on the streams so far. -/
def calls : Outcome → List Call
  | finished _ run => run.calls
  | broken progress => progress.run.calls

/-- An outcome that is as good as another. -/
structure Refines (better worse : Outcome) : Prop where
  calls : worse.calls <+: better.calls
  finishes : ∀ left run, worse = finished left run →
    ∃ more other, better = finished more other ∧ left ≤ more ∧ other.Resembles run
  ends : ∀ ending run, worse = broken (.ended ending run) → ending ≠ .overflow →
    ∃ other, better = broken (.ended ending other) ∧ other.Resembles run

theorem Refines.trans {better between worse : Outcome} (here : better.Refines between)
    (there : between.Refines worse) : better.Refines worse where
  calls := there.calls.trans here.calls
  finishes left run completed := by
    obtain ⟨more, other, done, enough, resembles⟩ := there.finishes left run completed
    obtain ⟨most, last, arrived, plenty, resembled⟩ := here.finishes more other done
    exact ⟨most, last, arrived, Nat.le_trans enough plenty, resembled.trans resembles⟩
  ends ending run ended proper := by
    obtain ⟨other, halted, resembles⟩ := there.ends ending run ended proper
    obtain ⟨last, done, resembled⟩ := here.ends ending other halted proper
    exact ⟨last, done, resembled.trans resembles⟩

theorem Refines.refl (outcome : Outcome) : outcome.Refines outcome :=
  ⟨List.prefix_refl _, fun left run completed => ⟨left, run, completed, Nat.le_refl _, .refl run⟩,
    fun _ run ended _ => ⟨run, ended, .refl run⟩⟩

theorem refines_finished {left more : Nat} {run other : Run} (enough : left ≤ more)
    (resembles : other.Resembles run) : (finished more other).Refines (finished left run) where
  calls := ⟨[], (List.append_nil _).trans resembles.calls.symm⟩
  finishes _ _ completed := by
    cases completed
    exact ⟨more, other, rfl, enough, resembles⟩
  ends _ _ ended := by cases ended

/-- Of a run that did not come to its end only the calls matter. -/
theorem refines_running {better : Outcome} {run : Run} (calls : run.calls <+: better.calls) :
    better.Refines (broken (.running run)) where
  calls := calls
  finishes _ _ completed := by cases completed
  ends _ _ ended := by cases ended

theorem refines_overflow {better : Outcome} {run : Run} (calls : run.calls <+: better.calls) :
    better.Refines (broken (.ended .overflow run)) where
  calls := calls
  finishes _ _ completed := by cases completed
  ends _ _ ended proper := by
    cases ended
    exact (proper rfl).elim

theorem refines_stuck {better : Outcome} {run : Run} (calls : run.calls <+: better.calls) :
    better.Refines (broken (.stuck run)) where
  calls := calls
  finishes _ _ completed := by cases completed
  ends _ _ ended := by cases ended

theorem refines_ended {ending : Ending} {run other : Run} (resembles : other.Resembles run) :
    (broken (.ended ending other)).Refines (broken (.ended ending run)) where
  calls := ⟨[], (List.append_nil _).trans resembles.calls.symm⟩
  finishes _ _ completed := by cases completed
  ends _ _ ended _ := by
    cases ended
    exact ⟨other, rfl, resembles⟩

end Outcome

/-! ### Calls are only ever added -/

namespace Terminal

theorem extends_emit (terminal : Terminal) (byte : UInt8) :
    terminal.history.toList <+: (terminal.emit byte).1.history.toList := by
  simp [emit]

theorem extends_flush (terminal : Terminal) :
    terminal.history.toList <+: terminal.flush.1.history.toList := by
  simp [flush]

theorem extends_poll (terminal : Terminal) :
    terminal.history.toList <+: terminal.poll.1.history.toList := by
  simp [poll]

theorem extends_read (terminal : Terminal) :
    terminal.history.toList <+: terminal.read.1.history.toList := by
  have flushed := extends_flush terminal
  unfold read
  split
  · next byte rest _ =>
    have wrote := extends_emit { terminal with typeahead := rest } byte
    split
    · next same =>
      rw [same] at wrote
      exact wrote
    · next screen same =>
      rw [same] at wrote
      have behind := extends_flush screen
      split
      all_goals
        next last =>
          rw [last] at behind
          exact wrote.trans behind
  · split
    · next same =>
      rw [same] at flushed
      exact flushed
    · next screen same =>
      rw [same] at flushed
      exact flushed.trans (extends_poll screen)

end Terminal

theorem Run.extends_perform (terminal : Terminal) (step : Step) :
    terminal.history.toList <+: (perform terminal step).run.calls := by
  have emitted (byte : UInt8) := terminal.extends_emit byte
  have answered := terminal.extends_read
  have flushed := terminal.extends_flush
  cases step with
  | next machine | overflow machine | endless machine => exact List.prefix_refl _
  | write byte machine =>
    have wrote := emitted byte
    simp only [perform]
    split <;> next same => rw [same] at wrote; exact wrote
  | read machine =>
    simp only [perform]
    split <;> next same => rw [same] at answered; exact answered
  | stop machine =>
    simp only [perform, close]
    split <;> next same => rw [same] at flushed; exact flushed

namespace Behavior

/-- No behavior takes back a call. -/
def Extends (behavior : Behavior) : Prop :=
  ∀ left run, run.calls <+: (behavior left run).calls

theorem extends_skip : Extends skip := fun _ _ => List.prefix_refl _

theorem extends_act (instruction : Instruction) : Extends (act instruction) := by
  intro left run
  cases left with
  | zero => exact List.prefix_refl _
  | succ left =>
    have performed := Run.extends_perform run.terminal (run.machine.step instruction)
    simp only [act]
    split
    · next same =>
      rw [same] at performed
      exact performed
    · exact performed

theorem Extends.andThen {first second : Behavior} (here : first.Extends) (there : second.Extends) :
    (first.andThen second).Extends := by
  intro left run
  have early := here left run
  simp only [Behavior.andThen]
  cases outcome : first left run with
  | broken progress =>
    rw [outcome] at early
    exact early
  | finished rest next =>
    rw [outcome] at early
    exact early.trans (there rest next)

theorem extends_turns {start : Nat} {body : Behavior} (inner : body.Extends) (bound : Nat) :
    (turns start body bound).Extends := by
  induction bound with
  | zero => exact fun _ _ => List.prefix_refl _
  | succ bound ih =>
    intro left run
    cases left with
    | zero => exact List.prefix_refl _
    | succ left =>
      simp only [turns]
      split
      · exact List.prefix_refl _
      · exact inner.andThen ih left (run.hop start)

theorem extends_loop {size : Nat} {body : Behavior} (inner : body.Extends) :
    (loop size body).Extends := by
  intro left run
  cases left with
  | zero => exact List.prefix_refl _
  | succ left =>
    simp only [loop]
    split
    · exact List.prefix_refl _
    · exact inner.andThen (extends_turns inner (left + 1)) left (run.hop (run.machine.position + 1))

theorem extends_leave (keep fast : Bool) : (leave keep fast).Extends := by
  unfold leave
  split
  · exact extends_act _
  · exact extends_skip

theorem extends_region {keep fast : Bool} {size : Nat} {body : Behavior} (inner : body.Extends) :
    (region keep fast size body).Extends := by
  intro left run
  cases left with
  | zero => exact List.prefix_refl _
  | succ left =>
    simp only [region]
    split
    · exact List.prefix_refl _
    · have entered : (enter fast run).calls = run.calls := by cases fast <;> rfl
      rw [← entered]
      exact inner.andThen (extends_leave keep fast) left (enter fast run)

end Behavior

theorem Code.extends_exec (keep : Bool) (code : Code) : (code.exec keep).Extends := by
  induction code with
  | empty => exact Behavior.extends_skip
  | plain before instruction ih => exact ih.andThen (Behavior.extends_act instruction)
  | loop before body ihBefore ihBody => exact ihBefore.andThen (Behavior.extends_loop ihBody)
  | region before fast body ihBefore ihBody =>
    exact ihBefore.andThen (Behavior.extends_region ihBody)

/-- What comes behind has to be as good only where the other comes to its end. -/
theorem Outcome.Refines.andThen {better worse : Outcome} {first second : Behavior}
    (here : better.Refines worse) (extending : first.Extends)
    (there : ∀ left run more other, worse = finished left run → left ≤ more → other.Resembles run →
      (first more other).Refines (second left run)) :
    (better.andThen first).Refines (worse.andThen second) := by
  obtain ⟨calls, finishes, ends⟩ := here
  cases worse with
  | finished left run =>
    obtain ⟨more, other, rfl, enough, resembles⟩ := finishes left run rfl
    exact there left run more other rfl enough resembles
  | broken progress =>
    refine ⟨calls.trans ?_, ?_, ?_⟩
    · cases better with
      | finished more other => exact extending more other
      | broken other => exact List.prefix_refl _
    · rintro _ _ ⟨⟩
    · intro ending run ended proper
      obtain ⟨other, rfl, resembles⟩ := ends ending run ended proper
      exact ⟨other, rfl, resembles⟩

/-! ### Behaviors -/

namespace Behavior

/-- From the same run, which may have to begin on a zero cell, and with the same instructions left. -/
def Improves (clear : Bool) (better worse : Behavior) : Prop :=
  ∀ left run, run.Begins clear → (better left run).Refines (worse left run)

/-- From runs that resemble each other, and with at least as many instructions left. -/
def Refines (clear : Bool) (better worse : Behavior) : Prop :=
  ∀ left more run other, run.Begins clear → left ≤ more → other.Resembles run →
    (better more other).Refines (worse left run)

variable {clear : Bool} {better between worse : Behavior}

theorem Refines.improves (refines : Refines clear better worse) : Improves clear better worse :=
  fun left run begins => refines left left run run begins (Nat.le_refl _) (.refl run)

theorem Improves.refines (here : Improves clear better between) (there : Refines clear between worse) :
    Refines clear better worse :=
  fun left more run other begins enough resembles =>
    (here more other (resembles.begins begins)).trans
      (there left more run other begins enough resembles)

theorem Improves.refl (behavior : Behavior) : Improves clear behavior behavior :=
  fun _ _ _ => .refl _

theorem Improves.trans (here : Improves clear better between)
    (there : Improves clear between worse) : Improves clear better worse :=
  fun left run begins => (here left run begins).trans (there left run begins)

theorem Refines.trans (here : Refines clear better between) (there : Refines clear between worse) :
    Refines clear better worse :=
  here.improves.refines there

theorem refines_skip : Refines clear skip skip :=
  fun _ _ _ _ _ enough resembles => Outcome.refines_finished enough resembles

theorem Refines.andThen {first second : Behavior} (here : Refines clear better worse)
    (there : Refines false first second) (extending : first.Extends) :
    Refines clear (better.andThen first) (worse.andThen second) := by
  intro left more run other begins enough resembles
  refine (here left more run other begins enough resembles).andThen extending ?_
  intro rest next most last _ plenty resembled
  exact there rest most next last (fun never => absurd never Bool.false_ne_true) plenty resembled

/-- What comes behind the same behavior may be improved. -/
theorem Improves.behind {first : Behavior} (improves : Improves false better worse) :
    Improves clear (first.andThen better) (first.andThen worse) := by
  intro left run _
  simp only [Behavior.andThen]
  cases outcome : first left run with
  | finished rest next =>
    exact improves rest next fun never => absurd never Bool.false_ne_true
  | broken progress => exact .refl _

/-! ### Loops -/

section Loops

variable (inner : Refines false better worse) (fewer : better.Spends) (spends : worse.Spends)
  (extending : better.Extends)

include inner fewer spends extending

theorem Refines.again (one two : Nat) :
    Refines false (Behavior.again one better) (Behavior.again two worse) := by
  intro left
  induction left using Nat.strongRecOn with
  | ind left ih =>
    intro more run other _ enough resembles
    cases left with
    | zero =>
      rw [again_zero]
      refine Outcome.refines_running ?_
      rw [← resembles.calls]
      exact extends_turns extending (more + 1) more other
    | succ left =>
      obtain ⟨rest, rfl⟩ : ∃ rest, more = rest + 1 := ⟨more - 1, by omega⟩
      rw [again_succ fewer, again_succ spends, resembles.cell]
      split
      · exact Outcome.refines_finished (Nat.le_of_succ_le_succ enough) (resembles.hop _ _)
      · refine (inner left rest (run.hop two) (other.hop one)
          (fun never => absurd never Bool.false_ne_true) (Nat.le_of_succ_le_succ enough)
          (resembles.hop _ _)).andThen (fun most last => extends_turns extending _ most last) ?_
        intro few next most last completed plenty resembled
        have spent := spends _ _ _ _ completed
        exact ih few (Nat.lt_succ_of_le spent) most next last
          (fun never => absurd never Bool.false_ne_true) plenty resembled

theorem Refines.loop (one two : Nat) :
    Refines clear (Behavior.loop one better) (Behavior.loop two worse) := by
  intro left more run other _ enough resembles
  cases left with
  | zero =>
    refine Outcome.refines_running ?_
    rw [← resembles.calls]
    exact extends_loop extending more other
  | succ left =>
    obtain ⟨rest, rfl⟩ : ∃ rest, more = rest + 1 := ⟨more - 1, by omega⟩
    rw [loop_succ fewer, loop_succ spends, resembles.cell]
    split
    · exact Outcome.refines_finished (Nat.le_of_succ_le_succ enough) (resembles.hop _ _)
    · exact inner.andThen (Refines.again inner fewer spends extending _ _)
        (fun count => extends_turns extending (count + 1) count) left rest _ _
        (fun never => absurd never Bool.false_ne_true) (Nat.le_of_succ_le_succ enough)
        (resembles.hop _ _)

end Loops

end Behavior

end TapeMachine
