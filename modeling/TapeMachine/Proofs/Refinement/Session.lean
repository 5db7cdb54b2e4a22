/-
**Programs that are run again.**

A program keeps its tape, so where one run leaves it the next begins. Whether it was assembled with
passes or without makes no difference to any of the runs, as long as what the passes rely on at the
start of the program holds at the start of every run.

* `Program.session`: a program that is run at one terminal after the other;
* `sessionsAgree_of_apart`: the sessions with passes and without agree, if runs begin on a zero cell
  where comment blocks are deleted;
* `leading_loop_sessions_disagree`: a source that begins with a loop, where they do not.
-/

import Mathlib.Data.List.Forall2
import TapeMachine.Proofs.Refinement.Optimized

namespace TapeMachine

/-- Runs a program at one terminal after the other. For every run there is the program before it, and
what has become of the run. -/
def Program.session (patience : Nat) : Program → List Terminal → List (Program × Progress)
  | _, [] => []
  | program, terminal :: terminals =>
    let (behind, progress) := program.run none patience terminal
    (program, progress) :: session patience behind terminals

/-- Both runs came to their `stop`, with the same calls on the streams, data pointer and cells. -/
structure Program.SameRun (model other : Program × Progress) : Prop where
  stopped : ∃ last final, model.2 = .ended .stopped last ∧ other.2 = .ended .stopped final ∧
    final.terminal = last.terminal
  dataPointer : (other.1.after other.2).dataPointer = (model.1.after model.2).dataPointer
  cells : ∀ cell, (other.1.after other.2).tape.get cell = (model.1.after model.2).tape.get cell

/-- The program of the source with passes does in any number of runs what the program without does, if
every run of that comes to its `stop`, and begins on a zero cell where comment blocks are deleted. -/
def Source.SessionsAgree (source : Source) (passes : Passes) : Prop :=
  ∃ raw optimized, Program.ofSource Passes.none source = .ok raw ∧
    Program.ofSource passes source = .ok optimized ∧ ∀ patience terminals,
      (∀ visit ∈ raw.session patience terminals, ∃ last, visit.2 = .ended .stopped last) →
      (passes .commentBlock = true →
        ∀ visit ∈ raw.session patience terminals, visit.1.tape.get 0 = 0) →
      List.Forall₂ Program.SameRun (raw.session patience terminals)
        (optimized.session patience terminals)

section Sessions

variable {clear : Bool} {model code : Code} {raw text : Text}

/-- On alike tapes, alike programs do the same in a session. The induction is on the terminals; the
tapes stay alike from one run to the next. -/
theorem sameRun_of_refines (patience : Nat)
    (refines : ∀ run other : Run, run.Begins clear → other.Resembles run →
      run.machine.position = 0 → other.machine.position = 0 →
        (Run.advance text patience other).Refines (Run.advance raw patience run))
    (terminals : List Terminal) {program other : Program} (texts : program.text = raw ∧ other.text = text)
    (cells : ∀ cell, other.tape.get cell = program.tape.get cell)
    (within : other.tape.Within program.tape)
    (stops : ∀ visit ∈ program.session patience terminals, ∃ last, visit.2 = .ended .stopped last)
    (zero : clear = true → ∀ visit ∈ program.session patience terminals, visit.1.tape.get 0 = 0) :
    List.Forall₂ Program.SameRun (program.session patience terminals)
      (other.session patience terminals) := by
  induction terminals generalizing program other with
  | nil => exact .nil
  | cons terminal terminals ih =>
    obtain ⟨rfl, rfl⟩ := texts
    obtain ⟨last, ended⟩ := stops _ (List.mem_cons_self ..)
    have begins : (program.start terminal).Begins clear :=
      begins_onTape (fun enabled => zero enabled _ (List.mem_cons_self ..)) terminal
    have resembles : (other.start terminal).Resembles (program.start terminal) := by
      refine ⟨fun cell => ?_, rfl, rfl, ?_, rfl⟩
      · exact (Tape.get_reserve ..).trans ((cells cell).trans (Tape.get_reserve ..).symm)
      · exact Tape.within_reserve (within.trans (Tape.within_reserve_self _ _))
          (Tape.covers_reserve_self program.tape 0)
    have refined := refines _ _ begins resembles rfl rfl
    obtain ⟨final, done, resembled⟩ := refined.ends .stopped last ended (by decide)
    replace ended : (program.run none patience terminal).2 = .ended .stopped last := ended
    replace done : (other.run none patience terminal).2 = .ended .stopped final := done
    have behind : (program.run none patience terminal).1 = program.after (.ended .stopped last) :=
      congrArg program.after ended
    have after : (other.run none patience terminal).1 = other.after (.ended .stopped final) :=
      congrArg other.after done
    simp only [Program.session, ended, done, behind, after] at stops zero ⊢
    refine .cons ⟨⟨last, final, rfl, rfl, resembled.terminal⟩, resembled.index, resembled.cells⟩ ?_
    exact ih ⟨rfl, rfl⟩ resembled.cells resembled.within
      (fun visit member => stops visit (List.mem_cons_of_mem _ member))
      fun enabled visit member => zero enabled visit (List.mem_cons_of_mem _ member)

/-- **Sessions agree**, for every source with all brackets paired and every choice of passes that does
not have both resets and products. -/
theorem sessionsAgree_of_apart {source : Source} (balanced : source.Balanced)
    (short : source.length < 0x80000000) {passes : Passes}
    (apart : ¬ (passes .reset = true ∧ passes .multiplication = true)) :
    source.SessionsAgree passes := by
  obtain ⟨raw, assembledRaw⟩ := assemble_of_balanced balanced short Passes.none
  obtain ⟨optimized, assembled⟩ := assemble_of_balanced balanced short passes
  obtain ⟨model, modeled, writtenRaw⟩ := code_of_assembled assembledRaw
  obtain ⟨code, reached, written⟩ := code_of_assembled assembled
  have refines := refines_of_reached (fun _ lasts _ => lasts) modeled (reached.lasting apart)
  refine ⟨Program.ofText raw.text, Program.ofText optimized.text, ?_, ?_, ?_⟩
  · rw [Program.ofSource, assembledRaw]
  · rw [Program.ofSource, assembled]
  · intro patience terminals stops zero
    refine sameRun_of_refines patience ?_ terminals ⟨rfl, rfl⟩ (fun _ => rfl) (.refl _) stops zero
    intro run other begins resembles first firstOther
    show (Run.advance optimized.text patience other).Refines (Run.advance raw.text patience run)
    exact Code.advance_refines refines (Code.unlinked_of_proper modeled.proper.1)
      (Code.unlinked_of_proper reached.proper.1) writtenRaw written
      (size_lt_of_reached short modeled writtenRaw) (size_lt_of_reached short reached written) begins
      resembles first firstOther patience

end Sessions

/-- A source that reads a byte and counts it down. -/
theorem counting_sessions_agree :
    let source : Source := ['[', '-', ']', ',', '[', '-', '>', '+', '<', ']', '>', '.'].map
      Char.toUInt8
    let passes := Passes.ofList [.commentBlock, .reset, .seek, .setFolding]
    source.Balanced ∧ source.length < 0x80000000 ∧
      ¬ (passes .reset = true ∧ passes .multiplication = true) ∧ source.SessionsAgree passes := by
  intro source passes
  have balanced : source.Balanced := by decide +kernel
  have short : source.length < 0x80000000 := by decide
  have apart : ¬ (passes .reset = true ∧ passes .multiplication = true) := by decide
  exact ⟨balanced, short, apart, sessionsAgree_of_apart balanced short apart⟩

/-! ### A loop at the start of the program -/

/-- The output of every run that came to its `stop`. -/
def Program.outputs (visits : List (Program × Progress)) : List (Option (List UInt8)) :=
  visits.map fun visit => visit.2.stopped?.map fun last => last.terminal.output

theorem Program.outputs_eq {visits others : List (Program × Progress)}
    (same : List.Forall₂ Program.SameRun visits others) : outputs visits = outputs others := by
  induction same with
  | nil => rfl
  | cons here _ ih =>
    obtain ⟨last, final, ended, done, terminal⟩ := here.stopped
    simp only [outputs, List.map_cons, ended, done, Progress.stopped?, Option.map_some, terminal]
    exact congrArg _ ih

theorem Program.stops_of_outputs {visits : List (Program × Progress)}
    (stops : none ∉ outputs visits) {visit : Program × Progress} (member : visit ∈ visits) :
    ∃ last, visit.2 = .ended .stopped last := by
  cases stopped : visit.2.stopped? with
  | some last => exact ⟨last, stopped?_eq_some stopped⟩
  | none =>
    refine absurd (List.mem_map.mpr ⟨visit, member, ?_⟩) stops
    rw [stopped]
    rfl

/-- The loop at the start of the program is left out, because the tape is blank before the first run.
The second run begins where the first one ended, on a cell that is one, and makes the loop once. -/
theorem leading_loop_sessions_disagree :
    let source : Source := ['[', '.', '-', ']', '+'].map Char.toUInt8
    let passes := Passes.ofList [.commentBlock]
    source.Balanced ∧ source.length < 0x80000000 ∧
      ¬ (passes .reset = true ∧ passes .multiplication = true) ∧
      ∃ raw optimized, Program.ofSource Passes.none source = .ok raw ∧
        Program.ofSource passes source = .ok optimized ∧
        (∀ visit ∈ raw.session 9 [{}, {}], ∃ last, visit.2 = .ended .stopped last) ∧
        ¬ List.Forall₂ Program.SameRun (raw.session 9 [{}, {}]) (optimized.session 9 [{}, {}]) := by
  intro source passes
  have plain : ((Program.ofSource Passes.none source).toOption.map fun program =>
      Program.outputs (program.session 9 [{}, {}])) = some [some [], some [1]] := by decide +kernel
  have improved : ((Program.ofSource passes source).toOption.map fun program =>
      Program.outputs (program.session 9 [{}, {}])) = some [some [], some []] := by decide +kernel
  refine ⟨by decide +kernel, by decide, by decide, ?_⟩
  cases ofRaw : Program.ofSource Passes.none source with
  | error rejection =>
    rw [ofRaw] at plain
    cases plain
  | ok raw =>
    cases ofOptimized : Program.ofSource passes source with
    | error rejection =>
      rw [ofOptimized] at improved
      cases improved
    | ok optimized =>
      rw [ofRaw] at plain
      rw [ofOptimized] at improved
      replace plain : Program.outputs (raw.session 9 [{}, {}]) = [some [], some [1]] :=
        Option.some.inj plain
      replace improved : Program.outputs (optimized.session 9 [{}, {}]) = [some [], some []] :=
        Option.some.inj improved
      refine ⟨raw, optimized, rfl, rfl, fun visit member => ?_, fun same => ?_⟩
      · refine Program.stops_of_outputs ?_ member
        rw [plain]
        decide
      · have outputs := Program.outputs_eq same
        rw [plain, improved] at outputs
        cases outputs

end TapeMachine
