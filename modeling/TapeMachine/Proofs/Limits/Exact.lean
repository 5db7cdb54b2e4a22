/-
**A limit counts exactly.**

A run with a limit does the same as the run without one, instruction by instruction, until it is over or
would begin one instruction more than the limit.

* `Run.Does`: what a run without a limit comes to by so many instructions;
* `Run.EndsAfter`: how it ends, and the number of instructions that it begins until then. A `stop` and
  an instruction that fails count, and leaving the text does not;
* `Run.paced`: a run that counts its instructions one by one in a word, and compares with the limit
  before each;
* `paced_of_lt`: that is what `Run.within` does at once;
* `Run.Limited`: what a limit does to a run;
* `limited`: it does so to all runs of all texts;
* `endless_run_overflows`: the largest limit is never passed, since the count overflows first.
-/

import TapeMachine.Proofs.Behavior.Advance
import TapeMachine.Proofs.Refinement.Basic

namespace TapeMachine

/-! ### Runs without a limit -/

namespace Run

/-- The run does so many instructions, and can go on with the next one, if there is one. -/
inductive Does (text : Text) (run : Run) : Nat → Run → Prop where
  | none : Does text run 0 run
  | more {count : Nat} {now next : Run} {instruction : Instruction} (before : Does text run count now)
      (found : text[now.machine.position]? = some instruction)
      (performed : perform now.terminal (now.machine.step instruction) = .running next) :
      Does text run (count + 1) next

/-- The run ends, and has begun so many instructions until then. -/
inductive EndsAfter (text : Text) (run : Run) : Nat → Ending → Run → Prop where
  | overrun {count : Nat} {now : Run} (before : Does text run count now)
      (outside : text[now.machine.position]? = none) :
      EndsAfter text run count (.overrun now.machine.position) now
  | last {count : Nat} {now last : Run} {instruction : Instruction} {ending : Ending}
      (before : Does text run count now) (found : text[now.machine.position]? = some instruction)
      (performed : perform now.terminal (now.machine.step instruction) = .ended ending last) :
      EndsAfter text run (count + 1) ending last

variable {text : Text} {run now last : Run} {count : Nat} {limit : UInt64} {ending : Ending}

theorem Does.advance (does : Does text run count now) (more : Nat) :
    advance text (count + more) run = advance text more now := by
  induction does generalizing more with
  | none => rw [Nat.zero_add]
  | more before found performed ih =>
    rw [Nat.add_assoc, ih, Nat.add_comm 1 more, advance_succ_of_running found performed]

/-- Before the end of a run, there is always one more instruction. -/
theorem Does.exists_earlier (does : Does text run count now) {fewer : Nat} (less : fewer < count) :
    ∃ between instruction, Does text run fewer between ∧
      text[between.machine.position]? = some instruction := by
  induction does with
  | none => exact (Nat.not_lt_zero _ less).elim
  | @more count _ _ _ before found _ ih =>
    rcases Nat.lt_succ_iff_lt_or_eq.mp less with earlier | rfl
    · exact ih earlier
    · exact ⟨_, _, before, found⟩

theorem EndsAfter.exists_earlier (ends : EndsAfter text run count ending last) {fewer : Nat}
    (less : fewer < count) : ∃ between instruction, Does text run fewer between ∧
      text[between.machine.position]? = some instruction := by
  cases ends with
  | overrun before outside => exact before.exists_earlier less
  | last before found performed =>
    rcases Nat.lt_succ_iff_lt_or_eq.mp less with earlier | rfl
    · exact before.exists_earlier earlier
    · exact ⟨_, _, before, found⟩

/-- What a run comes to is told by its instructions. -/
theorem does_of_advance (reached : Run.advance text count run = .running now) :
    Does text run count now := by
  induction count generalizing now with
  | zero =>
    rw [advance_zero] at reached
    split at reached <;> cases reached
    exact .none
  | succ count ih =>
    obtain ⟨before, instruction, early, found, performed⟩ := last_of_advance reached
    exact .more (ih early) found performed

theorem EndsAfter.advance {patience : Nat} (ends : EndsAfter text run count ending last)
    (enough : count ≤ patience) : advance text patience run = .ended ending last := by
  obtain ⟨more, rfl⟩ := Nat.exists_eq_add_of_le enough
  cases ends with
  | overrun before outside => rw [before.advance, advance_of_overrun outside]
  | last before found performed =>
    rw [Nat.add_assoc, before.advance, Nat.add_comm 1 more, advance_succ_of_ended found performed]

/-- The run begins more instructions than the limit, or goes on for ever. -/
def Exceeds (text : Text) (limit : UInt64) (run : Run) : Prop :=
  (∃ count ending last, EndsAfter text run count ending last ∧ limit.toNat < count) ∨
    ∀ count, ∃ now, Does text run count now

theorem Exceeds.exists_running (exceeds : Exceeds text limit run) :
    ∃ now, Does text run limit.toNat now ∧ Run.advance text limit.toNat run = .running now := by
  have earlier : ∃ now instruction, Does text run limit.toNat now ∧
      text[now.machine.position]? = some instruction := by
    rcases exceeds with ⟨count, ending, last, ends, less⟩ | forever
    · exact ends.exists_earlier less
    · obtain ⟨later, does⟩ := forever (limit.toNat + 1)
      exact does.exists_earlier (Nat.lt_succ_self limit.toNat)
  obtain ⟨now, instruction, does, found⟩ := earlier
  refine ⟨now, does, ?_⟩
  rw [← Nat.add_zero limit.toNat, does.advance, advance_zero_of_getElem? found]

/-! ### Counting -/

/-- Counts one more instruction, if there is a count for it. -/
def countOne (counted : UInt64) : Option UInt64 :=
  if counted = countLimit then none else some (counted + 1)

/-- Counts the instructions, and does them until the run is over, or begins one more than the limit. There
is no answer yet if the rounds are used up. -/
def paced (text : Text) (limit : UInt64) : Nat → UInt64 → Run → Option Progress
  | 0, _, _ => none
  | rounds + 1, counted, run =>
    match text[run.machine.position]? with
    | none => some (.ended (.overrun run.machine.position) run)
    | some instruction =>
      match countOne counted with
      | none => some (.ended .overflow run)
      | some counted =>
        if limit < counted then some (close (.exhausted limit.toNat) run)
        else
          match perform run.terminal (run.machine.step instruction) with
          | .running next => paced text limit rounds counted next
          | finished => some finished

theorem countOne_countLimit : countOne countLimit = none := rfl

/-- Only the largest count has no next one. -/
theorem exists_countOne {counted : UInt64} (countable : counted ≠ countLimit) :
    ∃ next, countOne counted = some next ∧ next.toNat = counted.toNat + 1 := by
  have bound := counted.toNat_lt
  have other : counted.toNat ≠ 2 ^ 64 - 1 := fun same => countable (UInt64.toNat_inj.mp same)
  refine ⟨counted + 1, if_neg countable, ?_⟩
  rw [UInt64.toNat_add, UInt64.toNat_one]
  exact Nat.mod_eq_of_lt (by omega)

theorem ne_countLimit_of_lt {counted : UInt64} (below : counted.toNat < limit.toNat) :
    counted ≠ countLimit := by
  rintro rfl
  have bound := limit.toNat_lt
  have largest : countLimit.toNat = 2 ^ 64 - 1 := rfl
  omega

/-- What a limit makes of a run that has done all instructions but those that are left. -/
theorem paced_of_add {counted : UInt64} {left rounds : Nat}
    (whole : counted.toNat + left = limit.toNat) (enough : left < rounds) :
    paced text limit rounds counted run =
      some (match advance text left run with
        | .running now => giveUp limit now
        | finished => finished) := by
  induction left generalizing counted rounds run with
  | zero =>
    obtain ⟨rounds, rfl⟩ : ∃ rest, rounds = rest + 1 := ⟨rounds - 1, by omega⟩
    obtain rfl : counted = limit := UInt64.toNat_inj.mp whole
    rw [paced, advance_zero]
    cases text[run.machine.position]? with
    | none => rfl
    | some instruction =>
      by_cases largest : counted = countLimit
      · simp only [largest, countOne_countLimit, giveUp, if_true]
      · obtain ⟨next, counts, number⟩ := exists_countOne largest
        have beyond : counted < next := UInt64.lt_iff_toNat_lt.mpr (by omega)
        simp only [counts, if_pos beyond, giveUp_of_ne largest]
  | succ left ih =>
    obtain ⟨rounds, rfl⟩ : ∃ rest, rounds = rest + 1 := ⟨rounds - 1, by omega⟩
    have below : counted.toNat < limit.toNat := by omega
    obtain ⟨next, counts, number⟩ := exists_countOne (ne_countLimit_of_lt below)
    have allowed : ¬ limit < next := fun beyond => by
      have more := UInt64.lt_iff_toNat_lt.mp beyond
      omega
    rw [paced, advance_succ]
    cases text[run.machine.position]? with
    | none => rfl
    | some instruction =>
      simp only [counts, if_neg allowed]
      cases perform run.terminal (run.machine.step instruction) with
      | running next => exact ih (by omega) (by omega)
      | ended ending last | stuck last => rfl

/-- **Counting from the start gives the run with the limit**, with one round more than that. -/
theorem paced_of_lt {rounds : Nat} (enough : limit.toNat < rounds) :
    paced text limit rounds 0 run = some (within text limit run) :=
  paced_of_add (Nat.zero_add limit.toNat) enough

/-! ### What is put out -/

/-- More instructions only add calls. -/
theorem extends_advance (text : Text) (count : Nat) (run : Run) :
    run.calls <+: (advance text count run).run.calls :=
  advance_induction (motive := fun now => run.calls <+: now.calls) text
    (fun now instruction _ kept =>
      kept.trans (extends_perform now.terminal (now.machine.step instruction)))
    count (List.prefix_refl _)

theorem output_close (ending : Ending) (run : Run) :
    (close ending run).run.terminal.output = run.terminal.output := by
  have flushed := Terminal.output_flush run.terminal
  simp only [close]
  split
  all_goals
    next same =>
      rw [same] at flushed
      exact flushed

theorem output_giveUp (limit : UInt64) (run : Run) :
    (giveUp limit run).run.terminal.output = run.terminal.output := by
  rw [giveUp]
  split
  · rfl
  · exact output_close _ run

/-- Giving a run up puts nothing out. -/
theorem output_within (text : Text) (limit : UInt64) (run : Run) :
    (within text limit run).run.terminal.output =
      (advance text limit.toNat run).run.terminal.output := by
  rw [within]
  cases advance text limit.toNat run with
  | running now => exact output_giveUp limit now
  | ended ending last | stuck last => rfl

/-- With a larger limit, a run puts out at least as much. -/
theorem output_within_prefix {more : UInt64} (larger : limit ≤ more) :
    (within text limit run).run.terminal.output <+: (within text more run).run.terminal.output := by
  obtain ⟨further, whole⟩ := Nat.exists_eq_add_of_le (UInt64.le_iff_toNat_le.mp larger)
  rw [output_within, output_within, whole, advance_add]
  cases advance text limit.toNat run with
  | running now => exact (extends_advance text further now).filterMap Terminal.emitted
  | ended ending last | stuck last => exact List.prefix_refl _

end Run

/-! ### Limits -/

/-- What a limit of instructions does to a run. -/
structure Run.Limited (text : Text) (limit : UInt64) (run : Run) : Prop where
  /-- The instructions are counted one by one. -/
  counts : ∀ rounds > limit.toNat, run.paced text limit rounds 0 = some (run.within text limit)
  /-- A run that begins no more instructions than that ends as it does without a limit. -/
  enough : ∀ count ending last, run.EndsAfter text count ending last → count ≤ limit.toNat →
    run.within text limit = .ended ending last ∧
      ∀ patience ≥ count, run.complete text none patience = .ended ending last
  /-- A run that begins more of them, or goes on for ever, is given up where it is behind exactly that
  many: its output is flushed once more, and how that ends tells how the run ends. -/
  short : limit ≠ Run.countLimit → run.Exceeds text limit →
    ∃ now last, run.Does text limit.toNat now ∧ last.machine = now.machine ∧
      last.terminal = now.terminal.flush.1 ∧ last.terminal.output = now.terminal.output ∧
      run.within text limit =
        .ended (if now.terminal.flush.2 = true then .exhausted limit.toNat else .streamFailure) last
  /-- The largest limit cannot be passed: where a run would begin one instruction more, their count
  overflows, and nothing is flushed. -/
  uncounted : limit = Run.countLimit → run.Exceeds text limit →
    ∃ now, run.Does text limit.toNat now ∧ run.within text limit = .ended .overflow now
  /-- With a larger limit it puts out at least as much. -/
  grows : ∀ more, limit ≤ more →
    (run.within text limit).run.terminal.output <+: (run.within text more).run.terminal.output

/-- **A limit counts exactly**, whatever the text is and wherever the run begins. -/
theorem limited (text : Text) (limit : UInt64) (run : Run) : run.Limited text limit where
  counts _ := Run.paced_of_lt
  enough _ _ _ ends within := ⟨Run.within_of_ended (ends.advance within), fun _ => ends.advance⟩
  short countable exceeds := by
    obtain ⟨now, does, reached⟩ := exceeds.exists_running
    refine ⟨now, ⟨now.machine, now.terminal.flush.1⟩, does, rfl, rfl, Terminal.output_flush _, ?_⟩
    rw [Run.within_of_running reached, Run.giveUp_of_ne countable]
    rcases flushed : now.terminal.flush with ⟨terminal, accepted⟩
    cases accepted <;> simp only [Run.close, flushed] <;> rfl
  uncounted largest exceeds := by
    obtain ⟨now, does, reached⟩ := exceeds.exists_running
    refine ⟨now, does, ?_⟩
    rw [Run.within_of_running reached, Run.giveUp, if_pos largest]
  grows _ := Run.output_within_prefix

/-- A loop that never ends is given up, and its output is flushed. -/
example :
    let text : Text := #[{ opcode := .add, value := 1 }, { opcode := .loopStart, link := 2 },
      { opcode := .loopEnd, link := 1 }, { opcode := .stop }]
    (match Run.within text 100 ⟨Machine.onTape Tape.blank, {}⟩ with
      | .ended ending last => some (ending, last.terminal.history)
      | _ => none) = some (.exhausted 100, #[.flush true]) := by
  decide +kernel

/-- Under the largest limit the same loop, which goes on for ever, is not given up: the count of its
instructions overflows, and there is no flush. -/
theorem endless_run_overflows :
    let text : Text := #[{ opcode := .add, value := 1 }, { opcode := .loopStart, link := 2 },
      { opcode := .loopEnd, link := 1 }, { opcode := .stop }]
    let run : Run := ⟨Machine.onTape Tape.blank, {}⟩
    (∀ count, ∃ now, run.Does text count now) ∧
      ∃ last, run.Does text Run.countLimit.toNat last ∧
        run.within text Run.countLimit = .ended .overflow last ∧ last.terminal.history = #[] := by
  intro text run
  have reached : ∃ now, run.advance text 2 = .running now ∧ now.machine.position = 2 ∧
      now.machine.head.read ≠ 0 ∧ now.terminal.history = #[] :=
    ⟨_, rfl, rfl, by decide +kernel, rfl⟩
  obtain ⟨now, reached, position, filled, unflushed⟩ := reached
  have found : text[now.machine.position]? = some { opcode := .loopEnd, link := 1 } := by
    rw [position]
    rfl
  have stays := Run.advance_of_empty_loop found rfl position.symm (position ▸ by decide) filled
  have largest : run.advance text Run.countLimit.toNat = .running now :=
    Run.advance_of_stays reached stays (by decide)
  refine ⟨fun count => ?_, now, Run.does_of_advance largest, ?_, unflushed⟩
  · obtain ⟨between, goes⟩ := Run.exists_running_of_stays reached stays count
    exact ⟨between, Run.does_of_advance goes⟩
  · rw [Run.within_of_running largest]
    rfl

end TapeMachine
