/-
**Runs, instruction by instruction.**

What `Run.advance` does with a number of instructions is told by what `Run.perform` does with each of
them.

* `advance_zero_of_getElem?`, `advance_succ_of_running`, `advance_succ_of_ended`,
  `advance_succ_of_stuck`: the first instruction of a run;
* `perform_ended_cases`: how a run ends in one instruction;
* `ended_cases`: where a run with a first instruction has ended;
* `last_of_advance`: the last instruction of a run that can go on;
* `exists_last`: the instruction in which a run has ended, unless it has left the text;
* `advance_induction`: what each instruction keeps, the run keeps;
* `advance_of_standing`, `advance_of_empty_loop`, `advance_of_stays`, `exists_running_of_stays`: runs that
  go on for ever;
* `within_of_running`, `within_of_ended`: what a limit makes of a run;
* `giveUp_ended_cases`, `within_ended_cases`: how a run with a limit ends;
* `advance_of_within`: an ending that a limit does not make.
-/

import TapeMachine.Program

namespace TapeMachine.Run

variable {text : Text} {run now last : Run} {instruction : Instruction} {ending : Ending}

/-- Without an instruction left, a run that stands on an instruction waits there. -/
theorem advance_zero_of_getElem? (found : text[run.machine.position]? = some instruction) :
    advance text 0 run = .running run := by
  rw [advance_zero, found]

/-- A run goes on behind an instruction that was done. -/
theorem advance_succ_of_running {next : Run} (found : text[run.machine.position]? = some instruction)
    (performed : perform run.terminal (run.machine.step instruction) = .running next) (count : Nat) :
    advance text (count + 1) run = advance text count next := by
  rw [advance_succ, found]
  simp only [performed]
  rfl

theorem advance_succ_of_ended (found : text[run.machine.position]? = some instruction)
    (performed : perform run.terminal (run.machine.step instruction) = .ended ending last)
    (count : Nat) : advance text (count + 1) run = .ended ending last := by
  rw [advance_succ, found]
  simp only [performed]
  rfl

theorem advance_succ_of_stuck (found : text[run.machine.position]? = some instruction)
    (performed : perform run.terminal (run.machine.step instruction) = .stuck last) (count : Nat) :
    advance text (count + 1) run = .stuck last := by
  rw [advance_succ, found]
  simp only [performed]
  rfl

/-- How a run ends in one instruction: a stream fails, or the machine stops or is given up. -/
theorem perform_ended_cases {terminal : Terminal} {step : Step}
    (performed : perform terminal step = .ended ending last) :
    ending = .streamFailure ∨ ending = .stopped ∧ step = .stop last.machine ∨
      ending = .overflow ∧ step = .overflow last.machine := by
  cases step with
  | next machine | endless machine => cases performed
  | overflow machine =>
    cases performed
    exact .inr (.inr ⟨rfl, rfl⟩)
  | write byte machine | read machine =>
    simp only [perform] at performed
    split at performed <;> cases performed
    exact .inl rfl
  | stop machine =>
    simp only [perform, close] at performed
    split at performed <;> cases performed
    · exact .inr (.inl ⟨rfl, rfl⟩)
    · exact .inl rfl

/-- A run that ends does so in its first instruction, or behind it. -/
theorem ended_cases {count : Nat} (found : text[run.machine.position]? = some instruction)
    (ended : advance text (count + 1) run = .ended ending last) :
    perform run.terminal (run.machine.step instruction) = .ended ending last ∨
      ∃ next, perform run.terminal (run.machine.step instruction) = .running next ∧
        advance text count next = .ended ending last := by
  cases performed : perform run.terminal (run.machine.step instruction) with
  | running next =>
    rw [advance_succ_of_running found performed] at ended
    exact .inr ⟨next, rfl, ended⟩
  | ended other now =>
    rw [advance_succ_of_ended found performed] at ended
    exact .inl ended
  | stuck now =>
    rw [advance_succ_of_stuck found performed] at ended
    cases ended

theorem advance_of_running {count : Nat} (reached : advance text count run = .running now)
    (more : Nat) : advance text (count + more) run = advance text more now := by
  rw [advance_add, reached]
  rfl

/-- The last instruction that a run did. -/
theorem last_of_advance {count : Nat} (reached : advance text (count + 1) run = .running now) :
    ∃ before instruction, advance text count run = .running before ∧
      text[before.machine.position]? = some instruction ∧
      perform before.terminal (before.machine.step instruction) = .running now := by
  rw [advance_add] at reached
  cases outcome : advance text count run with
  | ended ending last | stuck last =>
    rw [outcome] at reached
    cases reached
  | running before =>
    rw [outcome] at reached
    replace reached : advance text 1 before = .running now := reached
    rw [advance_succ] at reached
    split at reached
    · cases reached
    · next instruction found =>
      refine ⟨before, instruction, rfl, found, ?_⟩
      cases performed : perform before.terminal (before.machine.step instruction) with
      | ended ending last | stuck last =>
        rw [performed] at reached
        cases reached
      | running next =>
        rw [performed] at reached
        replace reached : advance text 0 next = .running now := reached
        rw [advance_zero] at reached
        split at reached
        · cases reached
        · exact reached

/-- The instruction in which a run has ended, unless there was none at its position. -/
theorem exists_last {count : Nat} (ended : advance text count run = .ended ending last) :
    (ending = .overrun last.machine.position ∧ text[last.machine.position]? = none) ∨
      ∃ early < count, ∃ now instruction, advance text early run = .running now ∧
        text[now.machine.position]? = some instruction ∧
        perform now.terminal (now.machine.step instruction) = .ended ending last := by
  induction count generalizing run with
  | zero =>
    rw [advance_zero] at ended
    split at ended
    · next outside =>
      cases ended
      exact .inl ⟨rfl, outside⟩
    · cases ended
  | succ count ih =>
    cases found : text[run.machine.position]? with
    | none =>
      rw [advance_of_overrun found] at ended
      cases ended
      exact .inl ⟨rfl, found⟩
    | some instruction =>
      rcases ended_cases found ended with performed | ⟨next, performed, ended⟩
      · exact .inr ⟨0, Nat.succ_pos _, run, instruction, advance_zero_of_getElem? found, found, performed⟩
      · refine (ih ended).imp_right ?_
        rintro ⟨early, before, now, last, reached, there, done⟩
        refine ⟨early + 1, Nat.succ_lt_succ before, now, last, ?_, there, done⟩
        rw [advance_succ_of_running found performed]
        exact reached

/-- **What each instruction keeps, the run keeps**, however it comes out. -/
theorem advance_induction {motive : Run → Prop} (text : Text)
    (keeps : ∀ now instruction, text[now.machine.position]? = some instruction →
      motive now → motive (perform now.terminal (now.machine.step instruction)).run)
    (count : Nat) (begins : motive run) : motive (advance text count run).run := by
  induction count generalizing run with
  | zero =>
    rw [advance_zero]
    split <;> exact begins
  | succ count ih =>
    rw [advance_succ]
    split
    · exact begins
    · next instruction found =>
      have first := keeps run instruction found begins
      cases performed : perform run.terminal (run.machine.step instruction) with
      | running next =>
        rw [performed] at first
        exact ih first
      | ended ending last | stuck last =>
        rw [performed] at first
        exact first

/-! ### Runs that go on for ever -/

/-- A run that an instruction leaves as it is goes on for ever. -/
theorem advance_of_standing (found : text[run.machine.position]? = some instruction)
    (performed : perform run.terminal (run.machine.step instruction) = .running run) (count : Nat) :
    advance text count run = .running run := by
  induction count with
  | zero => exact advance_zero_of_getElem? found
  | succ count ih => rw [advance_succ_of_running found performed, ih]

/-- A loop without a body is never left, where the cell is not zero. -/
theorem advance_of_empty_loop (found : text[run.machine.position]? = some instruction)
    (closes : instruction.opcode = .loopEnd) (back : instruction.link + 1 = run.machine.position)
    (inside : run.machine.position < positionLimit) (filled : run.machine.head.read ≠ 0)
    (count : Nat) : advance text count run = .running run := by
  refine advance_of_standing found ?_ count
  simp only [Machine.step, closes, if_pos filled, Machine.jump, back, if_pos inside, perform]

theorem advance_of_stays {first count : Nat} (reached : advance text first run = .running now)
    (stays : ∀ more, advance text more now = .running now) (enough : first ≤ count) :
    advance text count run = .running now := by
  obtain ⟨more, rfl⟩ := Nat.exists_eq_add_of_le enough
  rw [advance_of_running reached, stays]

/-- A run that comes to where it stays goes on for ever. -/
theorem exists_running_of_stays {first : Nat} (reached : advance text first run = .running now)
    (stays : ∀ more, advance text more now = .running now) (count : Nat) :
    ∃ between, advance text count run = .running between := by
  have later := advance_of_stays reached stays (Nat.le_add_left first count)
  rw [advance_add] at later
  cases outcome : advance text count run with
  | running between => exact ⟨between, rfl⟩
  | ended ending last | stuck last =>
    rw [outcome] at later
    cases later

/-! ### Limits -/

variable {limit : UInt64}

theorem within_of_running (reached : advance text limit.toNat run = .running now) :
    within text limit run = giveUp limit now := by
  rw [within, reached]

theorem within_of_ended (ended : advance text limit.toNat run = .ended ending last) :
    within text limit run = .ended ending last := by
  rw [within, ended]

/-- How a run is given up. -/
theorem giveUp_ended_cases (ended : giveUp limit now = .ended ending last) :
    ending = .exhausted limit.toNat ∨ ending = .streamFailure ∨
      ending = .overflow ∧ limit = countLimit ∧ last = now := by
  rw [giveUp] at ended
  split at ended
  · next largest =>
    cases ended
    exact .inr (.inr ⟨rfl, largest, rfl⟩)
  · simp only [close] at ended
    split at ended <;> cases ended
    · exact .inl rfl
    · exact .inr (.inl rfl)

/-- A run that is given up is over. -/
theorem exists_giveUp (limit : UInt64) (run : Run) :
    ∃ ending last, giveUp limit run = .ended ending last := by
  rw [giveUp]
  split
  · exact ⟨_, _, rfl⟩
  · simp only [close]
    split <;> exact ⟨_, _, rfl⟩

/-- A run with a limit ends as the run itself, or it is given up. -/
theorem within_ended_cases (ended : within text limit run = .ended ending last) :
    advance text limit.toNat run = .ended ending last ∨
      ∃ now, advance text limit.toNat run = .running now ∧
        giveUp limit now = .ended ending last := by
  cases advanced : advance text limit.toNat run with
  | running now => exact .inr ⟨now, rfl, within_of_running advanced ▸ ended⟩
  | ended other now =>
    rw [within_of_ended advanced] at ended
    exact .inl ended
  | stuck now =>
    rw [within, advanced] at ended
    cases ended

/-- An ending other than those with which a limit gives a run up is that of the run itself. -/
theorem advance_of_within (ended : within text limit run = .ended ending last)
    (proper : ending ≠ .exhausted limit.toNat ∧ ending ≠ .streamFailure ∧ ending ≠ .overflow) :
    advance text limit.toNat run = .ended ending last := by
  rcases within_ended_cases ended with advanced | ⟨now, -, given⟩
  · exact advanced
  · rcases giveUp_ended_cases given with same | same | ⟨same, -⟩
    · exact (proper.1 same).elim
    · exact (proper.2.1 same).elim
    · exact (proper.2.2 same).elim

end TapeMachine.Run
