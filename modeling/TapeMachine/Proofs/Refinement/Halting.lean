/-
**Runs that do not go on for ever.**

A behavior halts from a run if with enough instructions it comes to its end or the run ends, be it by
an index out of range. More instructions change nothing about that.

* `Behavior.Steady`: once the run has settled, the instructions that are left over stay left over;
* `Code.steady_exec`: the behavior of every code is steady;
* `Behavior.Halts`: what halts, and `halts_andThen`, how it is put in sequence;
* `Code.halts_plain_iff`: an instruction that stands on its own always halts;
* `halts_add`, `halts_move`: so do loops that add an odd number, and loops that move.
-/

import Mathlib.Data.Int.GCD
import Mathlib.Data.Nat.Prime.Basic
import TapeMachine.Proofs.Refinement.Loops

namespace TapeMachine

/-! ### Settled outcomes -/

namespace Outcome

/-- The run came to the end of its code, or ended. -/
def Settled : Outcome → Prop
  | finished _ _ => True
  | broken (.ended _ _) => True
  | broken _ => False

/-- The outcome, if so many more instructions are left. -/
def spare (more : Nat) : Outcome → Outcome
  | finished left run => finished (left + more) run
  | outcome => outcome

end Outcome

namespace Behavior

/-- Once the run has settled, more instructions change nothing. -/
def Steady (behavior : Behavior) : Prop :=
  ∀ left run, (behavior left run).Settled →
    ∀ more, behavior (left + more) run = (behavior left run).spare more

theorem steady_skip : Steady skip := fun _ _ _ _ => rfl

theorem steady_act (instruction : Instruction) : Steady (act instruction) := by
  intro left run settled more
  cases left with
  | zero => exact settled.elim
  | succ left =>
    rw [Nat.add_right_comm]
    simp only [act]
    cases Run.perform run.terminal (run.machine.step instruction) <;> rfl

theorem Steady.andThen {first second : Behavior} (here : first.Steady) (there : second.Steady) :
    (first.andThen second).Steady := by
  intro left run settled more
  have early := here left run
  simp only [Behavior.andThen] at settled ⊢
  cases outcome : first left run with
  | finished rest next =>
    rw [outcome] at early settled
    rw [early trivial more]
    exact there rest next settled more
  | broken progress =>
    rw [outcome] at early settled
    rw [early settled more]
    rfl

theorem steady_again {start : Nat} {body : Behavior} (spends : body.Spends) (inner : body.Steady) :
    (again start body).Steady := by
  intro left
  induction left using Nat.strongRecOn with
  | ind left ih =>
    intro run settled more
    cases left with
    | zero => exact settled.elim
    | succ left =>
      rw [Nat.add_right_comm]
      rw [again_succ spends] at settled ⊢
      rw [again_succ spends]
      split at settled
      · next zero =>
        rw [if_pos zero, if_pos zero]
        rfl
      · next marked =>
        rw [if_neg marked, if_neg marked]
        have early := inner left (run.hop start)
        simp only [Behavior.andThen] at settled ⊢
        cases outcome : body left (run.hop start) with
        | finished rest next =>
          rw [outcome] at early settled
          rw [early trivial more]
          exact ih rest (Nat.lt_succ_of_le (spends _ _ _ _ outcome)) next settled more
        | broken progress =>
          rw [outcome] at early settled
          rw [early settled more]
          rfl

theorem steady_loop {size : Nat} {body : Behavior} (spends : body.Spends) (inner : body.Steady) :
    (loop size body).Steady := by
  intro left run settled more
  by_cases zero : run.cell = 0
  · cases left with
    | zero => exact settled.elim
    | succ left =>
      rw [Nat.add_right_comm, loop_succ spends, loop_succ spends, if_pos zero, if_pos zero]
      rfl
  · rw [loop_eq_again spends zero] at settled ⊢
    rw [loop_eq_again spends zero]
    exact steady_again spends inner left run settled more

theorem steady_leave (keep fast : Bool) : (leave keep fast).Steady := by
  unfold leave
  split
  · exact steady_act _
  · exact steady_skip

theorem steady_region {keep fast : Bool} {size : Nat} {body : Behavior} (inner : body.Steady) :
    (region keep fast size body).Steady := by
  intro left run settled more
  cases left with
  | zero => exact settled.elim
  | succ left =>
    rw [Nat.add_right_comm]
    simp only [region] at settled ⊢
    split at settled
    · next zero =>
      rw [if_pos zero, if_pos zero]
      rfl
    · next marked =>
      rw [if_neg marked, if_neg marked]
      exact (inner.andThen (steady_leave keep fast)) left (enter fast run) settled more

end Behavior

theorem Code.steady_exec (keep : Bool) (code : Code) : (code.exec keep).Steady := by
  induction code with
  | empty => exact Behavior.steady_skip
  | plain before instruction ih => exact ih.andThen (Behavior.steady_act instruction)
  | loop before body ihBefore ihBody =>
    exact ihBefore.andThen (Behavior.steady_loop (body.spends_exec keep) ihBody)
  | region before fast body ihBefore ihBody =>
    exact ihBefore.andThen (Behavior.steady_region ihBody)

/-! ### Behaviors that halt -/

namespace Behavior

/-- With enough instructions the run settles. -/
def Halts (behavior : Behavior) (run : Run) : Prop :=
  ∃ left, (behavior left run).Settled

variable {first second : Behavior} {run next : Run}

/-- Where the run comes to does not depend on the number of instructions. -/
theorem Steady.unique (steady : first.Steady) {left more rest : Nat} {outcome : Outcome}
    (completed : first left run = .finished rest next) (other : first more run = outcome)
    (settled : outcome.Settled) : ∃ spare, outcome = .finished spare next := by
  have one := steady left run (completed ▸ trivial) more
  have two := steady more run (other.symm ▸ settled) left
  rw [completed] at one
  rw [other, Nat.add_comm, one] at two
  cases outcome with
  | finished spare last => exact ⟨spare, congrArg _ (Outcome.finished.inj two).2.symm⟩
  | broken progress => cases two

theorem Halts.left (halts : (first.andThen second).Halts run) : first.Halts run := by
  obtain ⟨left, settled⟩ := halts
  refine ⟨left, ?_⟩
  simp only [Behavior.andThen] at settled
  cases outcome : first left run with
  | finished rest next => trivial
  | broken progress => rwa [outcome] at settled

theorem Halts.right (halts : (first.andThen second).Halts run) (steady : first.Steady)
    {left rest : Nat} (completed : first left run = .finished rest next) : second.Halts next := by
  obtain ⟨more, settled⟩ := halts
  simp only [Behavior.andThen] at settled
  cases outcome : first more run with
  | finished spare last =>
    rw [outcome] at settled
    obtain ⟨_, same⟩ := steady.unique completed outcome trivial
    cases same
    exact ⟨spare, settled⟩
  | broken progress =>
    rw [outcome] at settled
    obtain ⟨_, same⟩ := steady.unique completed outcome settled
    cases same

/-- One behavior behind another halts if the first does, and the second from where the first comes
to. -/
theorem halts_andThen (one : first.Steady) (two : second.Steady) (here : first.Halts run)
    (there : ∀ left rest next, first left run = .finished rest next → second.Halts next) :
    (first.andThen second).Halts run := by
  obtain ⟨left, settled⟩ := here
  cases outcome : first left run with
  | broken progress =>
    refine ⟨left, ?_⟩
    rw [Behavior.andThen, outcome]
    rwa [outcome] at settled
  | finished rest next =>
    obtain ⟨more, late⟩ := there left rest next outcome
    refine ⟨left + more, ?_⟩
    have spared := two more next late rest
    simp only [Behavior.andThen, one left run settled more, outcome]
    rw [Outcome.spare, Outcome.andThen_finished, Nat.add_comm, spared]
    cases behind : second more next with
    | finished _ _ => trivial
    | broken progress => rwa [behind] at late

/-- What halts from every run may stand behind. -/
theorem halts_andThen_of_always (one : first.Steady) (two : second.Steady) (here : first.Halts run)
    (there : ∀ next, second.Halts next) : (first.andThen second).Halts run :=
  halts_andThen one two here fun _ _ next _ => there next

end Behavior

theorem Reaches.halts {behavior : Behavior} {start : Run} {sight : Sight} {held : Machine → Prop}
    (reaches : Reaches behavior start sight held) : behavior.Halts start := by
  refine ⟨sight.cost, ?_⟩
  by_cases inside : sight.InRange
  · obtain ⟨next, -, -, -, -, done⟩ := reaches.completes inside
    have completed := done 0
    rw [Nat.zero_add] at completed
    rw [completed]
    trivial
  · obtain ⟨last, -, ⟨short, -⟩ | ⟨-, broken⟩⟩ :=
      reaches.breaks sight.cost fun both => inside both.1
    · exact absurd short (Nat.lt_irrefl _)
    · rw [broken]
      trivial

/-! ### Single instructions -/

/-- Only a search without a stride never ends. -/
theorem Run.perform_ne_stuck {instruction : Instruction} {run last : Run}
    (moving : instruction.opcode = .seek → instruction.value ≠ 0) :
    perform run.terminal (run.machine.step instruction) ≠ .stuck last := by
  rcases run with ⟨⟨head, position, register, stack⟩, terminal⟩
  rcases instruction with ⟨opcode, value, offset, link⟩
  have proceeds (outcome : Except Head Head) :
      perform terminal (Machine.proceed position register stack outcome) ≠ .stuck last := by
    cases outcome <;> rintro ⟨⟩
  have jumps (machine : Machine) : perform terminal (machine.jump link) ≠ .stuck last := by
    unfold Machine.jump
    split <;> rintro ⟨⟩
  cases opcode with
  | nop | popFast | add | set | pop => rintro ⟨⟩
  | move | reset | multiply => exact proceeds _
  | loopStart | loopEnd | push | pushFast =>
    simp only [Machine.step]
    split
    all_goals first
      | exact jumps _
      | rintro ⟨⟩
  | input | output | stop =>
    simp only [Machine.step, perform, close]
    split <;> rintro ⟨⟩
  | store =>
    simp only [Machine.step]
    split
    · rintro ⟨⟩
    · exact proceeds _
  | seek =>
    simp only [Machine.step]
    split
    · exact proceeds _
    · next never =>
      unfold Head.seek at never
      split at never
      · cases never
      · cases never
      · next walked => exact absurd (Tape.walk_eq_never_iff.mp walked).2 (moving rfl)

theorem Behavior.halts_act {instruction : Instruction}
    (moving : instruction.opcode = .seek → instruction.value ≠ 0) (run : Run) :
    (act instruction).Halts run := by
  refine ⟨1, ?_⟩
  have stuck (last : Run) : Run.perform run.terminal (run.machine.step instruction) ≠ .stuck last :=
    Run.perform_ne_stuck moving
  simp only [act]
  cases performed : Run.perform run.terminal (run.machine.step instruction) with
  | running next => trivial
  | ended ending last => trivial
  | stuck last => exact (stuck last performed).elim

/-- Behind a code, an instruction that stands on its own makes no difference. -/
theorem Code.halts_plain_iff {before : Code} {instruction : Instruction}
    (proper : (before.plain instruction).Proper) (keep : Bool) {run : Run} :
    ((before.plain instruction).exec keep).Halts run ↔ (before.exec keep).Halts run := by
  refine ⟨Behavior.Halts.left, fun halts => ?_⟩
  refine Behavior.halts_andThen_of_always (before.steady_exec keep) (Behavior.steady_act _) halts ?_
  exact Behavior.halts_act fun seek => proper.2.2.moving (by simp [seek])

/-! ### Loops -/

namespace Behavior

variable {size start : Nat} {body : Behavior} {run : Run} {step : Instruction}

theorem halts_again_of_zero (spends : body.Spends) (zero : run.cell = 0) :
    (again start body).Halts run := by
  refine ⟨1, ?_⟩
  rw [again_succ spends, if_pos zero]
  trivial

/-- Another turn. -/
theorem halts_again_of_turn (spends : body.Spends)
    (halts : (body.andThen (again start body)).Halts (run.hop start)) :
    (again start body).Halts run := by
  by_cases zero : run.cell = 0
  · exact halts_again_of_zero spends zero
  · obtain ⟨left, settled⟩ := halts
    refine ⟨left + 1, ?_⟩
    rwa [again_succ spends, if_neg zero]

/-- Another turn of a loop with one instruction in it, which may break off. -/
theorem halts_again_of_act (moving : step.opcode = .seek → step.value ≠ 0)
    (there : ∀ next, Run.perform run.terminal ((run.hop start).machine.step step) = .running next →
      (again start (act step)).Halts next) : (again start (act step)).Halts run := by
  refine halts_again_of_turn (spends_act step) ?_
  refine halts_andThen (steady_act step) (steady_again (spends_act step) (steady_act step))
    (halts_act moving _) fun left rest next completed => ?_
  exact there next (act_eq_finished completed).2

theorem halts_loop_of_zero (spends : body.Spends) (zero : run.cell = 0) :
    (loop size body).Halts run := by
  refine ⟨1, ?_⟩
  rw [loop_succ spends, if_pos zero]
  trivial

/-- A loop halts if its turns do. -/
theorem halts_loop (spends : body.Spends)
    (halts : ∀ start, (again start body).Halts run) : (loop size body).Halts run := by
  by_cases zero : run.cell = 0
  · exact halts_loop_of_zero spends zero
  · obtain ⟨left, settled⟩ := halts (run.machine.position + 1)
    exact ⟨left, by rwa [loop_eq_again spends zero]⟩

/-- Some number of additions of an odd number make a byte zero. -/
theorem exists_turns {value : Int} (odd : value % 2 = 1) (cell : UInt8) :
    ∃ turns : Nat, cell + UInt8.ofNat turns * UInt8.ofInt value = 0 := by
  have amount : (UInt8.ofInt value).toNat = (value % 256).toNat := by
    rw [UInt8.ofInt, UInt8.toNat_ofNat']
    omega
  have coprime : (UInt8.ofInt value).toNat.Coprime 256 := by
    have low : (UInt8.ofInt value).toNat % 2 = 1 := by omega
    exact Nat.Coprime.pow_right 8 (Nat.coprime_two_right.mpr (Nat.odd_iff.mpr low))
  obtain ⟨turns, -, reaches⟩ :=
    Nat.exists_mul_mod_eq_of_coprime (256 - cell.toNat) coprime (by decide)
  refine ⟨turns, UInt8.toNat_inj.mp ?_⟩
  have small := cell.toNat_lt
  rw [UInt8.toNat_add, UInt8.toNat_mul, UInt8.toNat_ofNat', Nat.mod_mul_mod,
    Nat.mul_comm turns, reaches]
  simp only [UInt8.toNat_zero]
  omega

/-- A loop that adds an odd number to its cell comes to its end, whatever the cell is. -/
theorem halts_add (opcode : step.opcode = .add) (odd : step.value % 2 = 1) (size : Nat) (run : Run) :
    (loop size (act step)).Halts run := by
  refine halts_loop (spends_act step) fun start => ?_
  obtain ⟨turns, zero⟩ := exists_turns odd run.cell
  induction turns generalizing run with
  | zero => exact halts_again_of_zero (spends_act step) (by simpa using zero)
  | succ turns ih =>
    refine halts_again_of_act (by simp [opcode]) fun next performed => ih next ?_
    rcases run with ⟨⟨head, position, register, stack⟩, terminal⟩
    simp only [Run.hop, Machine.step, opcode] at performed
    cases performed
    have added : (head.write (head.read + UInt8.ofInt step.value)).read =
        head.read + UInt8.ofInt step.value := Head.read_write ..
    replace zero : head.read + UInt8.ofNat (turns + 1) * UInt8.ofInt step.value = 0 := zero
    refine (congrArg (· + _) added).trans (Eq.trans ?_ zero)
    rw [UInt8.ofNat_add, UInt8.add_mul, UInt8.add_assoc, UInt8.add_comm (UInt8.ofInt step.value)]
    simp

/-- A loop that moves the head comes to its end: there are only so many cells that are not zero. -/
theorem halts_move (opcode : step.opcode = .move) (marked : step.value ≠ 0) (size : Nat) (run : Run) :
    (loop size (act step)).Halts run := by
  refine halts_loop (spends_act step) fun start => ?_
  have general : ∀ (tape : Tape) (index : Int) (run : Run), run.machine.head.index = index →
      (∀ cell, run.machine.head.tape.get cell = tape.get cell) →
        (again start (act step)).Halts run := by
    intro tape index
    fun_induction Tape.walk tape step.value index with
    | case1 index zero =>
      rintro run rfl cells
      have under : run.cell = 0 := run.cell_eq_get.trans ((cells _).trans zero)
      exact halts_again_of_zero (spends_act step) under
    | case2 index _ still => exact absurd still marked
    | case3 index _ _ inside ih =>
      rintro run rfl cells
      refine halts_again_of_act (by simp [opcode]) fun next performed => ?_
      rcases run with ⟨⟨head, position, register, stack⟩, terminal⟩
      have moved : head.advance step.value = .ok (head.moveTo (head.index + step.value)) :=
        Head.advance_of_isIndex inside
      simp only [Run.hop, Machine.step, opcode, moved] at performed
      cases performed
      exact ih _ rfl fun cell => (Head.get_moveTo ..).trans (cells cell)
    | case4 index _ _ outside =>
      rintro run rfl cells
      refine halts_again_of_act (by simp [opcode]) fun next performed => ?_
      rcases run with ⟨⟨head, position, register, stack⟩, terminal⟩
      have stopped : head.advance step.value = .error head := Head.advance_of_not_isIndex outside
      simp only [Run.hop, Machine.step, opcode, stopped] at performed
      cases performed
  exact general run.machine.head.tape _ run rfl fun _ => rfl

end Behavior

end TapeMachine
