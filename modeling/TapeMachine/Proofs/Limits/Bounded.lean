/-
**A limit bounds every run.**

Besides the instructions that a limit counts, a run takes turns inside of them: a search moves on and on,
and reading calls on the input stream again and again while it is interrupted. Here a run has a number
of turns for each of its instructions, and may be out of them.

* `Machine.stepIn`, `Run.performIn`, `Run.doIn`: one instruction, with so many turns;
* `Run.withinIn`: a run with a limit, with so many turns for each instruction;
* `exists_doIn`: every instruction but a search without a stride is done with enough turns, and does
  what it does in `Run.advance`;
* `exists_withinIn`: so a run with a limit is over with enough turns;
* `Run.Bounded`: how it is over, and what its searches come to;
* `bounded_of_assemble`: all runs of assembled sources are bounded by their limits;
* `endless_source_overflows`: the largest limit does not bound a run, since it is never passed: the count
  of the instructions overflows first, and the run is over with no index out of its range.
-/

import TapeMachine.Proofs.Behavior.Range
import TapeMachine.Proofs.Refinement.Optimized
import TapeMachine.Proofs.Refinement.Halting
import TapeMachine.Proofs.Assembly.WellFormed
import TapeMachine.Proofs.Terminal.Calls

namespace TapeMachine

/-! ### Taking turns -/

/-- Does one instruction, if so many turns are enough for a search. -/
def Machine.stepIn (turns : Nat) (machine : Machine) (instruction : Instruction) : Option Step :=
  match instruction.opcode with
  | .seek =>
    (machine.head.seekIn instruction.value turns).map
      (proceed machine.position machine.register machine.stack)
  | _ => some (machine.step instruction)

namespace Run

/-- What becomes of a run that asked for a byte. -/
def answered (machine : Machine) : Terminal × Reply → Progress
  | (terminal, .byte byte) => .running ⟨machine.receive (some byte), terminal⟩
  | (terminal, .keep) => .running ⟨machine.receive none, terminal⟩
  | (terminal, .failed) => .ended .streamFailure ⟨machine, terminal⟩

/-- Does at the terminal what a step of the machine asks for, if so many turns are enough for reading. -/
def performIn (turns : Nat) (terminal : Terminal) : Step → Option Progress
  | .read machine => (terminal.readIn turns).map (answered machine)
  | step => some (perform terminal step)

/-- Does one instruction of a run, if so many turns are enough. -/
def doIn (turns : Nat) (run : Run) (instruction : Instruction) : Option Progress :=
  (run.machine.stepIn turns instruction).bind (performIn turns run.terminal)

/-- Does a number of instructions, if so many turns are enough for each of them. -/
def advanceIn (text : Text) (turns : Nat) : Nat → Run → Option Progress
  | 0, run => some (advance text 0 run)
  | count + 1, run =>
    match text[run.machine.position]? with
    | none => some (.ended (.overrun run.machine.position) run)
    | some instruction =>
      match doIn turns run instruction with
      | none => none
      | some (.running next) => advanceIn text turns count next
      | some finished => some finished

/-- Does at most `limit` instructions, if so many turns are enough for each of them, and gives up when it
would begin one more. -/
def withinIn (text : Text) (turns : Nat) (limit : UInt64) (run : Run) : Option Progress :=
  (advanceIn text turns limit.toNat run).map fun progress =>
    match progress with
    | .running run => giveUp limit run
    | finished => finished

variable {text : Text} {run now last : Run} {instruction : Instruction} {count turns : Nat}

theorem perform_read (terminal : Terminal) (machine : Machine) :
    perform terminal (.read machine) = answered machine terminal.read := by
  rcases answer : terminal.read with ⟨next, reply⟩
  cases reply <;> simp only [perform, answer, answered]

theorem performIn_of_lt {terminal : Terminal} (enough : terminal.interruptions < turns) (step : Step) :
    performIn turns terminal step = some (perform terminal step) := by
  cases step with
  | read machine =>
    rw [performIn, Terminal.readIn_of_lt enough, perform_read]
    rfl
  | _ => rfl

/-- A search is done with the turns that it takes. -/
theorem doIn_of_seeks {strides : Nat} {outcome : Except Head Head} (opcode : instruction.opcode = .seek)
    (seeks : now.machine.head.Seeks instruction.value strides outcome) (enough : strides < turns) :
    doIn turns now instruction = some (perform now.terminal
      (Machine.proceed now.machine.position now.machine.register now.machine.stack outcome)) := by
  simp only [doIn, Machine.stepIn, opcode, seeks.ended turns enough, Option.map_some, Option.bind_some]
  cases outcome <;> rfl

/-- **Every instruction is done with enough turns**, but for searches without a stride. -/
theorem exists_doIn (run : Run) (inside : Tape.IsIndex run.machine.head.index)
    (moving : instruction.opcode = .seek → instruction.value ≠ 0) :
    ∃ patience, ∀ turns > patience, doIn turns run instruction =
      some (perform run.terminal (run.machine.step instruction)) := by
  by_cases opcode : instruction.opcode = .seek
  · obtain ⟨strides, outcome, -, seeks⟩ := Head.exists_seeks_least (moving opcode) inside
    refine ⟨strides, fun turns enough => ?_⟩
    have sought := Head.seek_of_seekIn (moving opcode) (seeks.ended turns enough)
    rw [doIn_of_seeks opcode seeks enough]
    simp only [Machine.step, opcode, sought]
  · refine ⟨run.terminal.interruptions, fun turns enough => ?_⟩
    have stepped : run.machine.stepIn turns instruction = some (run.machine.step instruction) := by
      unfold Machine.stepIn
      split
      · next same => exact absurd same opcode
      · rfl
    rw [doIn, stepped]
    exact performIn_of_lt enough _

section Moving

variable (moving : ∀ instruction ∈ text, instruction.opcode = .seek → instruction.value ≠ 0)

include moving

theorem exists_advanceIn (inside : Tape.IsIndex run.machine.head.index) (count : Nat) :
    ∃ patience, ∀ turns > patience, advanceIn text turns count run = some (advance text count run) := by
  induction count generalizing run with
  | zero => exact ⟨0, fun _ _ => rfl⟩
  | succ count ih =>
    cases found : text[run.machine.position]? with
    | none =>
      refine ⟨0, fun turns _ => ?_⟩
      rw [advanceIn, found, advance_of_overrun found]
    | some instruction =>
      obtain ⟨first, does⟩ :=
        exists_doIn run inside (moving instruction (Array.mem_of_getElem? found))
      have kept := isIndex_of_perform run.terminal (ranges_step inside instruction)
      rw [advance_succ, found]
      simp only [advanceIn, found]
      cases performed : perform run.terminal (run.machine.step instruction) with
      | running next =>
        rw [performed] at does kept
        obtain ⟨later, goes⟩ := ih kept
        refine ⟨max first later, fun turns enough => ?_⟩
        rw [does turns (by omega)]
        exact goes turns (by omega)
      | ended ending last | stuck last =>
        rw [performed] at does
        refine ⟨first, fun turns enough => ?_⟩
        rw [does turns enough]
        rfl

/-- **A run with a limit is over with enough turns.** -/
theorem exists_withinIn (inside : Tape.IsIndex run.machine.head.index) (limit : UInt64) :
    ∃ patience, ∀ turns > patience, withinIn text turns limit run = some (within text limit run) := by
  obtain ⟨patience, goes⟩ := exists_advanceIn moving inside limit.toNat
  refine ⟨patience, fun turns enough => ?_⟩
  rw [withinIn, goes turns enough, within]
  rfl

theorem advance_ne_stuck : advance text count run ≠ .stuck last := by
  induction count generalizing run with
  | zero =>
    rw [advance_zero]
    split <;> exact nofun
  | succ count ih =>
    rw [advance_succ]
    split
    · exact nofun
    · next instruction found =>
      have goes (last : Run) : perform run.terminal (run.machine.step instruction) ≠ .stuck last :=
        perform_ne_stuck (moving instruction (Array.mem_of_getElem? found))
      cases performed : perform run.terminal (run.machine.step instruction) with
      | running next => exact ih
      | ended ending last => exact nofun
      | stuck last => exact (goes last performed).elim

end Moving

end Run

/-! ### Bounded runs -/

/-- The run goes on with the next instruction, its head on the cell. -/
def Run.landed (now : Run) (cell : Int) : Run :=
  ⟨⟨now.machine.head.moveTo cell, now.machine.position + 1, now.machine.register, now.machine.stack⟩,
    now.terminal⟩

/-- The limit bounds the run of the text. -/
structure Run.Bounded (text : Text) (limit : UInt64) (run : Run) : Prop where
  /-- With enough turns for its searches and its reading the run is over, and it neither is in an
  instruction that never ends nor has left the text. -/
  ending : ∃ ending last, ending ∈ [.stopped, .streamFailure, .exhausted limit.toNat, .overflow] ∧
    run.within text limit = .ended ending last ∧
    ∃ patience, ∀ turns > patience, run.withinIn text turns limit = some (.ended ending last)
  /-- Every search that the run comes to ends on the first zero cell on its way, with one turn for each
  cell that it passes and one more to see that cell, unless the cell has no index. -/
  searches : ∀ (count : Nat) (now : Run) (search : Instruction),
    run.advance text count = .running now → text[now.machine.position]? = some search →
      search.opcode = .seek →
        let way (strides : Nat) : Int := now.machine.head.index + strides * search.value
        ∃ strides : Nat,
          IsLeast {strides : Nat | now.machine.head.tape.get (way strides) = 0} strides ∧
          (Tape.IsIndex (way strides) → ∀ turns > strides,
            now.doIn turns search = some (.running (now.landed (way strides)))) ∧
          (¬ Tape.IsIndex (way strides) →
            ∃ last, ∀ turns > strides, now.doIn turns search = some (.ended .overflow last))

section Bounding

variable {text : Text} {run : Run}

/-- A limit bounds the runs of a text that is well-formed. -/
theorem bounded_of_wellFormed (wellFormed : text.WellFormed) (first : run.machine.position = 0)
    (inside : Tape.IsIndex run.machine.head.index) (limit : UInt64) : run.Bounded text limit where
  ending := by
    have moving : ∀ instruction ∈ text, instruction.opcode = .seek → instruction.value ≠ 0 :=
      fun instruction member opcode => (wellFormed.written instruction member).moving (by simp [opcode])
    obtain ⟨patience, goes⟩ := Run.exists_withinIn moving inside limit
    have never := wellFormed.never_overrun (first ▸ wellFormed.size_pos) limit.toNat
    cases advanced : Run.advance text limit.toNat run with
    | stuck last => exact (Run.advance_ne_stuck moving advanced).elim
    | running now =>
      obtain ⟨ending, last, given⟩ := Run.exists_giveUp limit now
      have same := (Run.within_of_running advanced).trans given
      rw [same] at goes
      refine ⟨ending, last, ?_, same, patience, goes⟩
      rcases Run.giveUp_ended_cases given with rfl | rfl | ⟨rfl, -⟩ <;> simp
    | ended ending last =>
      have same := Run.within_of_ended advanced
      rw [same] at goes
      refine ⟨ending, last, ?_, same, patience, goes⟩
      rcases Run.exists_last advanced with ⟨rfl, -⟩ | ⟨early, -, now, instruction, -, -, performed⟩
      · exact (never _ last advanced).elim
      · rcases Run.perform_ended_cases performed with rfl | ⟨rfl, -⟩ | ⟨rfl, -⟩ <;> simp
  searches count now search reached found opcode := by
    have moving := (wellFormed.written search (Array.mem_of_getElem? found)).moving (by simp [opcode])
    obtain ⟨strides, outcome, least, seeks⟩ :=
      Head.exists_seeks_least moving (Run.isIndex_of_advance inside reached)
    have does (turns : Nat) (enough : turns > strides) := Run.doIn_of_seeks opcode seeks enough
    refine ⟨strides, least, fun there turns enough => ?_, fun outside => ?_⟩
    · rw [does turns enough, seeks.found there]
      rfl
    · obtain ⟨last, rfl⟩ := seeks.lost outside
      exact ⟨_, does⟩

end Bounding

/-- **A limit bounds every run of an assembled source**, from whatever tape, register, stack and
terminal. A run that overflows is one whose head would leave the range of indexes, if the source is not so
long that a position in the text could leave its own range; or it has done as many instructions as can be
counted, which is the largest limit. -/
theorem bounded_of_assemble {passes : Passes} {source : Source} {assembly : Assembly}
    (assembled : assemble passes source = .ok assembly) (tape : Tape) (register : UInt8)
    (stack : List UInt8) (terminal : Terminal) (limit : UInt64) :
    let run : Run := ⟨⟨Head.onTape tape 0, 0, register, stack⟩, terminal⟩
    run.Bounded assembly.text limit ∧
      (source.length < positionLimit → ∀ last,
        run.within assembly.text limit = .ended .overflow last →
          last.Escapes assembly.text ∨
            limit = Run.countLimit ∧ run.advance assembly.text limit.toNat = .running last) := by
  intro run
  have wellFormed := (wellFormed_of_assemble assembled).1
  have inside : Tape.IsIndex run.machine.head.index := by
    show Tape.IsIndex 0
    decide
  refine ⟨bounded_of_wellFormed wellFormed rfl inside limit, fun short last ended => ?_⟩
  rcases Run.within_ended_cases ended with advanced | ⟨now, reached, given⟩
  · obtain ⟨code, emitted, written⟩ := code_of_assembled assembled
    have small := size_le_of_reached emitted written
    have links (position : Nat) (instruction : Instruction)
        (found : assembly.text[position]? = some instruction)
        (opcode : instruction.opcode ∈ [.loopStart, .loopEnd, .push, .pushFast]) :
        instruction.link + 1 < positionLimit := by
      have behind := wellFormed.succ_link_lt_size found opcode
      omega
    exact .inl (Run.escapes_of_advance inside links advanced)
  · rcases Run.giveUp_ended_cases given with other | other | ⟨-, largest, rfl⟩
    · cases other
    · cases other
    · exact .inr ⟨largest, reached⟩

/-- A search over three cells, between two bytes that are read behind interruptions, and a loop that never
ends behind them. -/
theorem searching_source_bounded :
    let source : Source := [',', '>', '+', '>', '+', '<', '<', '[', '>', ']', ',', '[', '.', ']'].map
      Char.toUInt8
    let run : Run := ⟨⟨Head.onTape Tape.blank 0, 0, 7, [9]⟩,
      { feed := [.interrupted, .byte 3, .interrupted, .interrupted, .byte 5] }⟩
    ∃ assembly, assemble Passes.all source = .ok assembly ∧
      assembly.text.map (·.opcode) = #[.input, .move, .add, .move, .add, .move, .seek, .input,
        .loopStart, .output, .loopEnd, .stop] ∧
      run.Bounded assembly.text 20 ∧
        ∀ last, run.within assembly.text 20 = .ended .overflow last →
          last.Escapes assembly.text := by
  intro source run
  have text : (assemble Passes.all source).toOption.map (fun assembly =>
      assembly.text.map (·.opcode)) = some #[.input, .move, .add, .move, .add, .move, .seek, .input,
        .loopStart, .output, .loopEnd, .stop] := by
    decide +kernel
  obtain ⟨assembly, found, opcodes⟩ := Option.map_eq_some_iff.mp text
  have assembled := toOption_eq_some.mp found
  obtain ⟨bounded, escapes⟩ := bounded_of_assemble assembled Tape.blank 7 [9]
    { feed := [.interrupted, .byte 3, .interrupted, .interrupted, .byte 5] } 20
  refine ⟨assembly, assembled, opcodes, bounded, fun last ended => ?_⟩
  exact (escapes (by decide) last ended).resolve_right fun largest => absurd largest.1 (by decide)

/-- Under the largest limit the run of a loop that never ends overflows, with its head on the starting
cell and no move ahead of it. -/
theorem endless_source_overflows :
    let source : Source := ['+', '[', ']'].map Char.toUInt8
    let run : Run := ⟨Machine.onTape Tape.blank, {}⟩
    ∃ assembly last, assemble Passes.none source = .ok assembly ∧
      (∀ count, ∃ now, run.advance assembly.text count = .running now) ∧
      run.within assembly.text Run.countLimit = .ended .overflow last ∧
        last.machine.head.index = 0 ∧ ¬ last.Escapes assembly.text := by
  intro source run
  have parsed : (assemble Passes.none source).toOption.map (·.text) =
      some #[{ opcode := .add, value := 1 }, { opcode := .loopStart, link := 2 },
        { opcode := .loopEnd, link := 1 }, { opcode := .stop }] := by
    decide +kernel
  obtain ⟨assembly, found, written⟩ := Option.map_eq_some_iff.mp parsed
  have reached : ∃ now, run.advance assembly.text 2 = .running now ∧ now.machine.position = 2 ∧
      now.machine.head.index = 0 ∧ now.machine.head.read ≠ 0 := by
    rw [written]
    exact ⟨_, rfl, rfl, rfl, by decide +kernel⟩
  obtain ⟨now, reached, position, index, filled⟩ := reached
  have back : assembly.text[now.machine.position]? = some { opcode := .loopEnd, link := 1 } := by
    rw [written, position]
    rfl
  have stays := Run.advance_of_empty_loop back rfl position.symm (position ▸ by decide) filled
  have largest : run.advance assembly.text Run.countLimit.toNat = .running now :=
    Run.advance_of_stays reached stays (by decide)
  refine ⟨assembly, now, toOption_eq_some.mp found, Run.exists_running_of_stays reached stays, ?_, index, ?_⟩
  · rw [Run.within_of_running largest]
    rfl
  · rintro ⟨next, distance, there, moves, -⟩
    rw [back] at there
    cases there
    cases moves

end TapeMachine
