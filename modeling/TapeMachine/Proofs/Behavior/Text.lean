/-
**Running a text is running its code.**

The positions, links and jumps of a text are nothing but a way to write down the nesting of its code.

* `Carries text position stretch`: the stretch of instructions stands in the text at the position;
* `Code.carries_plain`, `Code.carries_loop`, `Code.carries_region`: where the parts of a code stand;
* `Code.position_of_exec`: a code that completes leaves the run at the position behind its
  instructions;
* `advance_of_carries`: where a text carries the instructions of a code, running the text is running
  the code first, and the text from behind it.
-/

import TapeMachine.Proofs.Behavior.Advance
import TapeMachine.Proofs.Behavior.Basic
import TapeMachine.Proofs.Code.Reach

namespace TapeMachine

/-! ### Stretches of a text -/

/-- The stretch stands in the text, or in another array, at the position. -/
def Carries {α : Type} (text : Array α) (position : Nat) (stretch : List α) : Prop :=
  stretch <+: text.toList.drop position

namespace Carries

variable {α : Type} {text : Array α} {position : Nat}

theorem append_left {first second : List α}
    (carried : Carries text position (first ++ second)) : Carries text position first :=
  (List.prefix_append first second).trans carried

theorem append_right {first second : List α}
    (carried : Carries text position (first ++ second)) :
    Carries text (position + first.length) second := by
  obtain ⟨rest, whole⟩ := carried
  refine ⟨rest, ?_⟩
  rw [← List.drop_drop, ← whole, List.append_assoc, List.drop_left]

theorem tail {instruction : α} {stretch : List α}
    (carried : Carries text position (instruction :: stretch)) :
    Carries text (position + 1) stretch :=
  (show Carries text position ([instruction] ++ stretch) from carried).append_right

theorem getElem? {instruction : α} {stretch : List α}
    (carried : Carries text position (instruction :: stretch)) :
    text[position]? = some instruction := by
  obtain ⟨rest, whole⟩ := carried
  have first := congrArg List.head? whole
  rw [List.head?_drop] at first
  simpa using first.symm

theorem length_le {stretch : List α} (carried : Carries text position stretch)
    (inside : stretch ≠ []) : position + stretch.length ≤ text.size := by
  have short := List.IsPrefix.length_le carried
  have long : 0 < stretch.length := List.length_pos_iff.mpr inside
  simp only [List.length_drop, Array.length_toList] at short
  omega

end Carries

/-! ### The parts of a code -/

namespace Code

section Parts

variable {keep fast : Bool} {before body : Code} {last : Instruction} {text : Text} {base : Nat}

/-- The last instruction stands behind the code before it. -/
theorem carries_plain (carried : Carries text base ((before.plain last).emit keep base)) :
    Carries text base (before.emit keep base) ∧ text[base + before.size keep]? = some last := by
  have here := carried.append_right
  rw [length_emit] at here
  exact ⟨carried.append_left, here.getElem?⟩

/-- A loop stands behind the code before it, and its body between its ends. -/
theorem carries_loop (carried : Carries text base ((before.loop body).emit keep base)) :
    Carries text base (before.emit keep base) ∧
      text[base + before.size keep]? =
        some { opcode := .loopStart, link := base + before.size keep + 1 + body.size keep } ∧
      Carries text (base + before.size keep + 1) (body.emit keep (base + before.size keep + 1)) ∧
      text[base + before.size keep + 1 + body.size keep]? =
        some { opcode := .loopEnd, link := base + before.size keep } := by
  have ring := carried.append_right
  rw [length_emit] at ring
  have back := ring.tail.append_right
  rw [length_emit] at back
  exact ⟨carried.append_left, ring.getElem?, ring.tail.append_left, back.getElem?⟩

/-- A region stands behind the code before it, and its body behind its beginning. -/
theorem carries_region (carried : Carries text base ((before.region fast body).emit keep base)) :
    Carries text base (before.emit keep base) ∧
      text[base + before.size keep]? =
        some (regionStart fast (base + before.size keep + body.size keep +
          (regionEnd keep fast (base + before.size keep)).length)) ∧
      Carries text (base + before.size keep + 1) (body.emit keep (base + before.size keep + 1)) ∧
      Carries text (base + before.size keep + 1 + body.size keep)
        (regionEnd keep fast (base + before.size keep)) := by
  have ring := carried.append_right
  rw [length_emit] at ring
  have back := ring.tail.append_right
  rw [length_emit] at back
  exact ⟨carried.append_left, ring.getElem?, ring.tail.append_left, back⟩

end Parts

end Code

/-! ### Positions -/

namespace Code

/-- No instruction that stands on its own uses a link. -/
def Unlinked : Code → Prop
  | empty => True
  | plain before instruction => before.Unlinked ∧ instruction.opcode.isBoundary = false
  | loop before body => before.Unlinked ∧ body.Unlinked
  | region before _ body => before.Unlinked ∧ body.Unlinked

theorem unlinked_of_straight {inner : Bool} {code : Code} (straight : code.Straight inner) :
    code.Unlinked := by
  induction code generalizing inner with
  | empty => trivial
  | plain before instruction ih =>
    refine ⟨ih straight.1, ?_⟩
    have opcode := straight.2.1
    generalize instruction.opcode = opcode at opcode
    revert opcode
    cases inner <;> cases opcode <;> decide
  | loop before body _ _ => exact straight.elim
  | region before fast body ihBefore ihBody => exact ⟨ihBefore straight.1, ihBody straight.2.2.2.1⟩

theorem unlinked_of_proper {code : Code} (proper : code.Proper) : code.Unlinked := by
  induction code with
  | empty => trivial
  | plain before instruction ih =>
    refine ⟨ih proper.1, ?_⟩
    have opcode := proper.2.1
    generalize instruction.opcode = opcode at opcode
    revert opcode
    cases opcode <;> decide
  | loop before body ihBefore ihBody => exact ⟨ihBefore proper.1, ihBody proper.2⟩
  | region before fast body ihBefore _ =>
    exact ⟨ihBefore proper.1, unlinked_of_straight proper.2.2.1⟩

end Code

namespace Run

/-- Only the boundaries of loops and regions jump. -/
theorem position_of_perform {instruction : Instruction} {run next : Run}
    (unlinked : instruction.opcode.isBoundary = false)
    (performed : perform run.terminal (run.machine.step instruction) = .running next) :
    next.machine.position = run.machine.position + 1 := by
  rcases run with ⟨⟨head, position, register, stack⟩, terminal⟩
  rcases instruction with ⟨opcode, value, offset, link⟩
  have moved (outcome : Except Head Head)
      (performed : perform terminal (Machine.proceed position register stack outcome) =
        .running next) : next.machine.position = position + 1 := by
    cases outcome with
    | ok head => cases performed; rfl
    | error head => cases performed
  cases opcode with
  | nop | add | set | popFast | pop => cases performed; rfl
  | move | reset | multiply => exact moved _ performed
  | loopStart | loopEnd | push | pushFast => cases unlinked
  | input =>
    simp only [Machine.step, perform] at performed
    split at performed
    · cases performed; rfl
    · cases performed; rfl
    · cases performed
  | output =>
    simp only [Machine.step, perform] at performed
    split at performed
    · cases performed; rfl
    · cases performed
  | store =>
    simp only [Machine.step] at performed
    split at performed
    · cases performed; rfl
    · exact moved _ performed
  | seek =>
    simp only [Machine.step] at performed
    split at performed
    · exact moved _ performed
    · cases performed
  | stop =>
    simp only [Machine.step, perform, close] at performed
    split at performed <;> cases performed

end Run

namespace Behavior

/-- A behavior that completes moves the run on by a number of positions. -/
def Moves (behavior : Behavior) (distance : Nat) : Prop :=
  ∀ left run rest next, behavior left run = .finished rest next →
    next.machine.position = run.machine.position + distance

theorem Moves.andThen {first second : Behavior} {one two : Nat} (here : first.Moves one)
    (there : second.Moves two) : (first.andThen second).Moves (one + two) := by
  intro left run rest next completed
  simp only [Behavior.andThen] at completed
  cases outcome : first left run with
  | finished middle between =>
    rw [outcome] at completed
    rw [there _ _ _ _ completed, here _ _ _ _ outcome, Nat.add_assoc]
  | broken progress =>
    rw [outcome] at completed
    cases completed

theorem moves_skip : skip.Moves 0 := by
  intro left run rest next completed
  cases completed
  rfl

theorem moves_act {instruction : Instruction} (unlinked : instruction.opcode.isBoundary = false) :
    (act instruction).Moves 1 := fun _ _ _ _ completed =>
  Run.position_of_perform unlinked (act_eq_finished completed).2

/-- Behind the last turn the run stands behind the end of the loop. -/
theorem position_of_turns {size start : Nat} {body : Behavior} (inner : body.Moves size)
    {bound left rest : Nat} {run next : Run} (here : run.machine.position = start + size)
    (completed : turns start body bound left run = .finished rest next) :
    next.machine.position = start + size + 1 := by
  induction bound generalizing left run with
  | zero => cases completed
  | succ bound ih =>
    cases left with
    | zero => cases completed
    | succ left =>
      simp only [turns] at completed
      split at completed
      · cases completed
        simp only [Run.hop, here]
      · cases outcome : body left (run.hop start) with
        | broken progress =>
          rw [outcome] at completed
          cases completed
        | finished middle between =>
          rw [outcome] at completed
          exact ih (inner _ _ _ _ outcome) completed

theorem moves_loop {size : Nat} {body : Behavior} (inner : body.Moves size) :
    (loop size body).Moves (size + 2) := by
  intro left run rest next completed
  cases left with
  | zero => cases completed
  | succ left =>
    simp only [loop] at completed
    split at completed
    · cases completed
      simp only [Run.hop]
      omega
    · cases outcome : body left (run.hop (run.machine.position + 1)) with
      | broken progress =>
        rw [outcome] at completed
        cases completed
      | finished middle between =>
        rw [outcome] at completed
        rw [position_of_turns inner (inner _ _ _ _ outcome) completed]
        simp only [Run.hop]
        omega

theorem moves_leave (keep fast : Bool) :
    (leave keep fast).Moves (Code.regionEnd keep fast 0).length := by
  have ended : (act { opcode := if fast then .popFast else .pop }).Moves 1 := by
    intro left run rest next completed
    have performed := (act_eq_finished completed).2
    rcases run with ⟨⟨head, position, register, stack⟩, terminal⟩
    cases fast <;> cases performed <;> rfl
  unfold leave Code.regionEnd
  split
  · exact ended
  · exact moves_skip

theorem moves_region {keep fast : Bool} {size : Nat} {body : Behavior} (inner : body.Moves size) :
    (region keep fast size body).Moves (size + 1 + (Code.regionEnd keep fast 0).length) := by
  intro left run rest next completed
  cases left with
  | zero => cases completed
  | succ left =>
    simp only [region] at completed
    split at completed
    · cases completed
      simp only [Run.hop]
      omega
    · have behind := inner.andThen (moves_leave keep fast) _ _ _ _ completed
      have entered : (enter fast run).machine.position = run.machine.position + 1 := by
        rcases run with ⟨⟨head, position, register, stack⟩, terminal⟩
        cases fast <;> rfl
      rw [entered] at behind
      omega

end Behavior

theorem Code.position_of_exec {keep : Bool} {code : Code} (unlinked : code.Unlinked) :
    (code.exec keep).Moves (code.size keep) := by
  induction code with
  | empty => exact Behavior.moves_skip
  | plain before instruction ih => exact (ih unlinked.1).andThen (Behavior.moves_act unlinked.2)
  | loop before body ihBefore ihBody =>
    exact (ihBefore unlinked.1).andThen (Behavior.moves_loop (ihBody unlinked.2))
  | region before fast body ihBefore ihBody =>
    have inner : (Behavior.region keep fast (body.size keep) (body.exec keep)).Moves _ :=
      Behavior.moves_region (ihBody unlinked.2)
    have moved := (ihBefore unlinked.1).andThen inner
    simpa only [exec, size, Nat.add_assoc] using moved

/-! ### Running a text -/

section Running

variable {text : Text} (small : text.size < positionLimit)

/-- A behavior that has the effect of the stretch of text it stands for. -/
def Behavior.Runs (behavior : Behavior) (text : Text) (position : Nat) : Prop :=
  ∀ left run, run.machine.position = position →
    Run.advance text left run = (behavior left run).resume text

theorem Behavior.Runs.andThen {first second : Behavior} {position distance : Nat}
    (here : first.Runs text position) (moves : first.Moves distance)
    (there : second.Runs text (position + distance)) :
    (first.andThen second).Runs text position := by
  intro left run stands
  rw [here left run stands]
  simp only [Behavior.andThen]
  cases outcome : first left run with
  | broken progress => rfl
  | finished rest next =>
    have behind : next.machine.position = position + distance := by
      rw [moves _ _ _ _ outcome, stands]
    exact there rest next behind

theorem Behavior.runs_skip (position : Nat) : Behavior.skip.Runs text position :=
  fun _ _ _ => rfl

theorem Behavior.runs_act {position : Nat} {instruction : Instruction}
    (found : text[position]? = some instruction) :
    (Behavior.act instruction).Runs text position := by
  intro left run stands
  rw [← stands] at found
  cases left with
  | zero => exact Run.advance_zero_of_getElem? found
  | succ left =>
    rw [Run.advance_succ, found]
    simp only [act]
    cases Run.perform run.terminal (run.machine.step instruction) <;> rfl

include small

/-- The end of a loop goes back to its body, or on. -/
theorem Behavior.runs_turns {position size : Nat} {body : Behavior}
    (inner : body.Runs text (position + 1)) (moves : body.Moves size)
    (back : text[position + 1 + size]? = some { opcode := .loopEnd, link := position })
    (bound left : Nat) (run : Run) (enough : left < bound)
    (stands : run.machine.position = position + 1 + size) (spends : body.Spends) :
    Run.advance text left run = (turns (position + 1) body bound left run).resume text := by
  induction bound generalizing left run with
  | zero => omega
  | succ bound ih =>
    have found := back
    rw [← stands] at found
    cases left with
    | zero => exact Run.advance_zero_of_getElem? found
    | succ left =>
      rw [Run.advance_succ, found]
      simp only [turns]
      by_cases zero : run.cell = 0
      · rw [if_pos zero]
        rcases run with ⟨⟨head, here, register, stack⟩, terminal⟩
        replace zero : head.read = 0 := zero
        simp only [Machine.step, zero, ne_eq, not_true_eq_false, if_false, Run.perform,
          Progress.andThen, Outcome.resume, Run.hop]
      · have inside : position + 1 < positionLimit := by
          have := (Array.getElem?_eq_some_iff.mp back).1
          omega
        rw [if_neg zero]
        rcases run with ⟨⟨head, here, register, stack⟩, terminal⟩
        replace zero : ¬ head.read = 0 := zero
        simp only [Machine.step, ne_eq, zero, not_false_eq_true, if_true, Machine.jump, inside,
          Run.perform, Progress.andThen, Run.hop]
        rw [inner left _ rfl]
        cases outcome : body left ⟨⟨head, position + 1, register, stack⟩, terminal⟩ with
        | broken progress => rfl
        | finished rest next =>
          have spent := spends _ _ _ _ outcome
          exact ih rest next (by omega) (moves _ _ _ _ outcome)

theorem Behavior.runs_loop {position size : Nat} {body : Behavior}
    (inner : body.Runs text (position + 1)) (moves : body.Moves size) (spends : body.Spends)
    (first : text[position]? = some { opcode := .loopStart, link := position + 1 + size })
    (back : text[position + 1 + size]? = some { opcode := .loopEnd, link := position }) :
    (loop size body).Runs text position := by
  intro left run stands
  have found := first
  rw [← stands] at found
  cases left with
  | zero => exact Run.advance_zero_of_getElem? found
  | succ left =>
    rw [Run.advance_succ, found]
    simp only [loop]
    by_cases zero : run.cell = 0
    · have inside : position + 1 + size + 1 < positionLimit := by
        have := (Array.getElem?_eq_some_iff.mp back).1
        omega
      rw [if_pos zero]
      rcases run with ⟨⟨head, here, register, stack⟩, terminal⟩
      obtain rfl : here = position := stands
      replace zero : head.read = 0 := zero
      simp only [Machine.step, zero, if_true, Machine.jump, inside, Run.perform, Progress.andThen,
        Outcome.resume, Run.hop]
    · rw [if_neg zero]
      rcases run with ⟨⟨head, here, register, stack⟩, terminal⟩
      obtain rfl : here = position := stands
      replace zero : ¬ head.read = 0 := zero
      simp only [Machine.step, zero, if_false, Run.perform, Progress.andThen, Run.hop]
      rw [inner left _ rfl]
      cases outcome : body left ⟨⟨head, here + 1, register, stack⟩, terminal⟩ with
      | broken progress => rfl
      | finished rest next =>
        have spent := spends _ _ _ _ outcome
        exact runs_turns small inner moves back _ rest next (by omega) (moves _ _ _ _ outcome)
          spends

omit small in
theorem Behavior.runs_leave {keep fast : Bool} {position link : Nat}
    (carried : Carries text position (Code.regionEnd keep fast link)) :
    (leave keep fast).Runs text position := by
  unfold leave
  cases stays : keep || !fast with
  | false => exact runs_skip position
  | true =>
    rw [Code.regionEnd, if_pos stays] at carried
    -- The end of a region does not look at its link.
    have blind (run : Run) :
        run.machine.step { opcode := if fast then .popFast else .pop, link := link } =
          run.machine.step { opcode := if fast then .popFast else .pop } := by
      rcases run with ⟨⟨head, here, register, stack⟩, terminal⟩
      cases fast <;> rfl
    rw [if_pos rfl]
    intro left run stands
    rw [runs_act carried.getElem? left run stands]
    cases left with
    | zero => rfl
    | succ left => simp only [act, blind]

theorem Behavior.runs_region {keep fast : Bool} {position size : Nat} {body : Behavior}
    (inner : body.Runs text (position + 1)) (moves : body.Moves size)
    (first : text[position]? = some
      (Code.regionStart fast (position + size + (Code.regionEnd keep fast position).length)))
    (inside : position + size + (Code.regionEnd keep fast position).length < text.size)
    (last : Carries text (position + 1 + size) (Code.regionEnd keep fast position)) :
    (region keep fast size body).Runs text position := by
  intro left run stands
  have found : text[run.machine.position]? = some (Code.regionStart fast
      (position + size + (Code.regionEnd keep fast position).length)) := by
    rw [stands, first]
  cases left with
  | zero => exact Run.advance_zero_of_getElem? found
  | succ left =>
    rw [Run.advance_succ, found]
    simp only [region]
    by_cases zero : run.cell = 0
    · have low : position + size + (Code.regionEnd keep fast position).length + 1 <
          positionLimit := by omega
      rw [if_pos zero, ← Code.length_regionEnd keep fast position]
      rcases run with ⟨⟨head, here, register, stack⟩, terminal⟩
      obtain rfl : here = position := stands
      replace zero : head.read = 0 := zero
      have behind : here + size + (Code.regionEnd keep fast here).length + 1 =
          here + 1 + size + (Code.regionEnd keep fast here).length := by omega
      rw [behind] at low
      cases fast <;>
        simp only [Code.regionStart, Bool.false_eq_true, if_false, if_true, Machine.step, zero,
          Machine.jump, behind, low, Run.perform, Progress.andThen, Outcome.resume, Run.hop]
    · rw [if_neg zero]
      have entered : Run.perform run.terminal (run.machine.step (Code.regionStart fast
          (position + size + (Code.regionEnd keep fast position).length))) =
            .running (enter fast run) := by
        rcases run with ⟨⟨head, here, register, stack⟩, terminal⟩
        replace zero : ¬ head.read = 0 := zero
        cases fast <;>
          simp only [Code.regionStart, Bool.false_eq_true, if_false, if_true, Machine.step, zero,
            Run.perform, enter]
      have next : (enter fast run).machine.position = position + 1 := by
        rw [← stands]
        rcases run with ⟨⟨head, here, register, stack⟩, terminal⟩
        cases fast <;> rfl
      rw [entered, Progress.andThen]
      exact inner.andThen moves (runs_leave last) left _ next

/-- **Running a text is running its code**, wherever the text carries the instructions of the
code. -/
theorem Code.runs_exec {keep : Bool} {code : Code} (unlinked : code.Unlinked) {position : Nat}
    (carried : Carries text position (code.emit keep position)) :
    (code.exec keep).Runs text position := by
  induction code generalizing position with
  | empty => exact Behavior.runs_skip position
  | plain before instruction ih =>
    obtain ⟨early, last⟩ := carries_plain carried
    exact (ih unlinked.1 early).andThen (position_of_exec unlinked.1) (Behavior.runs_act last)
  | loop before body ihBefore ihBody =>
    obtain ⟨early, start, inner, stop⟩ := carries_loop carried
    exact (ihBefore unlinked.1 early).andThen (position_of_exec unlinked.1)
      (Behavior.runs_loop small (ihBody unlinked.2 inner) (position_of_exec unlinked.2)
        (body.spends_exec keep) start stop)
  | region before fast body ihBefore ihBody =>
    obtain ⟨early, start, inner, ended⟩ := carries_region carried
    have inside := carried.append_right.length_le (List.cons_ne_nil _ _)
    simp only [List.length_cons, List.length_append, Code.length_emit] at inside
    exact (ihBefore unlinked.1 early).andThen (position_of_exec unlinked.1)
      (Behavior.runs_region small (ihBody unlinked.2 inner) (position_of_exec unlinked.2)
        start (by omega) ended)

end Running

theorem advance_of_carries {text : Text} (small : text.size < positionLimit) {keep : Bool}
    {code : Code} (unlinked : code.Unlinked) {run : Run}
    (carried : Carries text run.machine.position (code.emit keep run.machine.position))
    (left : Nat) : Run.advance text left run = (code.exec keep left run).resume text :=
  code.runs_exec small unlinked carried left run rfl

end TapeMachine
