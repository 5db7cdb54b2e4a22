/-
**What a machine keeps from one run to the next.**

A machine can be used again, with the register and the stack as an earlier run left them, in the middle
of a region perhaps. No run of an assembled text can tell.

* `Run.Alike`, `Progress.Alike`: everything is the same but the register and the stack;
* `perform_alike`: an instruction that does not use the register keeps runs alike;
* `register_alike`: at a product, two runs that were alike have the same register, because both have
  entered its region on the same cell;
* `complete_alike`: so two runs of an assembled text that begin alike stay alike, with a limit or
  without one;
* `stack_of_advance`, `stack_of_complete`: outside of all regions the stack is as it was at the start;
* `Machine.serve`, `Tape.serve`: one text after the other on one machine, and each on a fresh one;
* `leftovers_unseen`: the two do the same.
-/

import Mathlib.Data.List.Forall2
import TapeMachine.Program
import TapeMachine.Proofs.Regions.Discipline

namespace TapeMachine

/-! ### Being alike -/

/-- The runs differ at most in what regions leave behind: the register and the stack. -/
structure Run.Alike (run other : Run) : Prop where
  head : run.machine.head = other.machine.head
  position : run.machine.position = other.machine.position
  terminal : run.terminal = other.terminal

/-- The same has become of two runs, but for what regions leave behind. -/
inductive Progress.Alike : Progress → Progress → Prop where
  | running {run other : Run} (alike : run.Alike other) : Alike (.running run) (.running other)
  | ended (ending : Ending) {run other : Run} (alike : run.Alike other) :
      Alike (.ended ending run) (.ended ending other)
  | stuck {run other : Run} (alike : run.Alike other) : Alike (.stuck run) (.stuck other)

theorem Progress.Alike.run {progress other : Progress} (alike : progress.Alike other) :
    progress.run.Alike other.run := by
  cases alike <;> assumption

theorem Progress.Alike.andThen {first second : Progress} (alike : first.Alike second)
    {goOn : Run → Progress}
    (later : ∀ run other, first = .running run → second = .running other → run.Alike other →
      (goOn run).Alike (goOn other)) :
    (first.andThen goOn).Alike (second.andThen goOn) := by
  cases alike with
  | running alike => exact later _ _ rfl rfl alike
  | ended ending alike => exact .ended ending alike
  | stuck alike => exact .stuck alike

/-! ### Single instructions -/

section Instructions

variable {head : Head} {position : Nat} {register other : UInt8} {stack rest : List UInt8}
  {terminal : Terminal}

theorem alike_jump (link : Nat) :
    (Run.perform terminal (Machine.jump ⟨head, position, register, stack⟩ link)).Alike
      (Run.perform terminal (Machine.jump ⟨head, position, other, rest⟩ link)) := by
  unfold Machine.jump
  split
  · exact .running ⟨rfl, rfl, rfl⟩
  · exact .ended .overflow ⟨rfl, rfl, rfl⟩

theorem alike_proceed (outcome : Except Head Head) :
    (Run.perform terminal (Machine.proceed position register stack outcome)).Alike
      (Run.perform terminal (Machine.proceed position other rest outcome)) := by
  cases outcome with
  | ok head => exact .running ⟨rfl, rfl, rfl⟩
  | error head => exact .ended .overflow ⟨rfl, rfl, rfl⟩

theorem alike_close (ending : Ending) {run other : Run} (alike : run.Alike other) :
    (Run.close ending run).Alike (Run.close ending other) := by
  obtain ⟨machine, terminal⟩ := run
  obtain ⟨near, screen⟩ := other
  obtain ⟨head, position, same⟩ := alike
  obtain rfl : terminal = screen := same
  simp only [Run.close]
  split <;> exact .ended _ ⟨head, position, rfl⟩

theorem alike_giveUp (limit : UInt64) {run other : Run} (alike : run.Alike other) :
    (Run.giveUp limit run).Alike (Run.giveUp limit other) := by
  rw [Run.giveUp, Run.giveUp]
  split
  · exact .ended .overflow alike
  · exact alike_close _ alike

/-- An instruction keeps runs alike, if they have the same register where it multiplies with that. -/
theorem perform_alike {run other : Run} (alike : run.Alike other) (instruction : Instruction)
    (register : instruction.opcode = .multiply → run.machine.register = other.machine.register) :
    (Run.perform run.terminal (run.machine.step instruction)).Alike
      (Run.perform other.terminal (other.machine.step instruction)) := by
  rcases run with ⟨⟨head, position, first, stack⟩, terminal⟩
  rcases other with ⟨⟨twin, place, second, rest⟩, screen⟩
  obtain ⟨rfl, rfl, rfl⟩ : head = twin ∧ position = place ∧ terminal = screen :=
    ⟨alike.head, alike.position, alike.terminal⟩
  rcases instruction with ⟨opcode, value, offset, link⟩
  cases opcode with
  | nop | popFast | add | set | pop => exact .running ⟨rfl, rfl, rfl⟩
  | move | reset => exact alike_proceed _
  | multiply =>
    obtain rfl : first = second := register rfl
    exact alike_proceed _
  | stop => exact alike_close _ ⟨rfl, rfl, rfl⟩
  | input =>
    simp only [Machine.step, Run.perform]
    split
    · exact .running ⟨rfl, rfl, rfl⟩
    · exact .running ⟨rfl, rfl, rfl⟩
    · exact .ended _ ⟨rfl, rfl, rfl⟩
  | output =>
    simp only [Machine.step, Run.perform]
    split
    · exact .running ⟨rfl, rfl, rfl⟩
    · exact .ended _ ⟨rfl, rfl, rfl⟩
  | loopStart | loopEnd | push | pushFast =>
    simp only [Machine.step]
    split
    · exact alike_jump ..
    · exact .running ⟨rfl, rfl, rfl⟩
  | store =>
    simp only [Machine.step]
    split
    · exact .running ⟨rfl, rfl, rfl⟩
    · exact alike_proceed _
  | seek =>
    simp only [Machine.step]
    split
    · exact alike_proceed _
    · exact .stuck ⟨rfl, rfl, rfl⟩

end Instructions

/-! ### Whole runs -/

section Runs

variable {text : Text} (wellFormed : text.WellFormed) (level : text.Level)
  {run other now there last : Run} {count : Nat} {start : Nat} {region instruction : Instruction}

theorem Text.Innermost.unique {position : Nat} {first second : Nat} {outer inner : Instruction}
    (here : text.Innermost first outer position) (there : text.Innermost second inner position) :
    first = second := by
  have before := here.last _ _ there.encloses
  have behind := there.last _ _ here.encloses
  omega

include wellFormed level

/-- At a product, two runs that were alike so far have the same register. Both entered the innermost
region there, and since they are at the same positions they entered it at the same time, on the same
cell. -/
theorem register_alike (first : run.machine.position = 0) (firstOther : other.machine.position = 0)
    (alike : ∀ early ≤ count,
      (Run.advance text early run).Alike (Run.advance text early other))
    (reached : Run.advance text count run = .running now)
    (reachedOther : Run.advance text count other = .running there)
    (found : text[now.machine.position]? = some instruction) (opcode : instruction.opcode = .multiply) :
    now.machine.register = there.machine.register := by
  have same (early : Nat) (before : early ≤ count) {here near : Run}
      (arrived : Run.advance text early run = .running here)
      (arrivedOther : Run.advance text early other = .running near) : here.Alike near := by
    have both := alike early before
    rw [arrived, arrivedOther] at both
    cases both
    assumption
  have position := (same count (Nat.le_refl _) reached reachedOther).position
  obtain ⟨start, region, early, entry, innermost, before, entered, begun, -, register, since⟩ :=
    register_of_advance wellFormed level first reached found opcode
  obtain ⟨startOther, regionOther, earlyOther, entryOther, innermostOther, beforeOther, enteredOther,
    begunOther, -, registerOther, sinceOther⟩ :=
    register_of_advance wellFormed level firstOther reachedOther (position ▸ found) opcode
  rw [← position] at innermostOther
  obtain rfl := innermost.unique innermostOther
  -- Whoever entered the region first would be in it when the other enters it.
  have together : early = earlyOther := by
    rcases Nat.lt_trichotomy early earlyOther with sooner | equal | later
    · obtain ⟨between, arrived, inside⟩ := since earlyOther sooner (Nat.le_of_lt beforeOther)
      have there := (same earlyOther (Nat.le_of_lt beforeOther) arrived enteredOther).position
      have after := inside.after
      omega
    · exact equal
    · obtain ⟨between, arrived, inside⟩ := sinceOther early later (Nat.le_of_lt before)
      have here := (same early (Nat.le_of_lt before) entered arrived).position
      have after := inside.after
      omega
  subst together
  have entries := same early (Nat.le_of_lt before) entered enteredOther
  rw [register, registerOther]
  exact congrArg Head.read entries.head

/-- Runs from the start of the text stay alike, whatever number of instructions they do. -/
theorem advance_alike (first : run.machine.position = 0) (alike : run.Alike other) (count : Nat) :
    (Run.advance text count run).Alike (Run.advance text count other) := by
  induction count using Nat.strongRecOn with
  | ind count ih =>
    cases count with
    | zero =>
      rw [Run.advance_zero, Run.advance_zero, ← alike.position]
      split
      · exact .ended _ alike
      · exact .running alike
    | succ count =>
      have before (early : Nat) (within : early ≤ count) := ih early (Nat.lt_succ_of_le within)
      rw [Run.advance_add, Run.advance_add]
      refine (before count (Nat.le_refl _)).andThen fun now there reached reachedOther near => ?_
      rw [Run.advance_succ, Run.advance_succ, ← near.position]
      split
      · exact .ended _ near
      · next instruction found =>
        have register := register_alike wellFormed level first (alike.position ▸ first) before reached
          reachedOther found
        refine (perform_alike near instruction register).andThen fun next beyond _ _ close => ?_
        rw [Run.advance_zero, Run.advance_zero, ← close.position]
        split
        · exact .ended _ close
        · exact .running close

/-- **Runs of a text stay alike**, with a limit or without one. -/
theorem complete_alike (first : run.machine.position = 0) (alike : run.Alike other)
    (limit : Option Nat) (patience : Nat) :
    (run.complete text limit patience).Alike (other.complete text limit patience) := by
  have advanced := advance_alike wellFormed level first alike
  cases limit with
  | none => exact advanced patience
  | some limit =>
    simp only [Run.complete, Run.within]
    have both := advanced (UInt64.ofNat limit).toNat
    generalize Run.advance text (UInt64.ofNat limit).toNat run = here,
      Run.advance text (UInt64.ofNat limit).toNat other = near at both
    cases both with
    | running close => exact alike_giveUp _ close
    | ended ending close => exact .ended ending close
    | stuck close => exact .stuck close

end Runs

/-! ### The stack -/

namespace Run

variable {text : Text} {run next last : Run} {instruction : Instruction} {ending : Ending} {count : Nat}

theorem machine_close (ending : Ending) (run : Run) : (close ending run).run.machine = run.machine := by
  simp only [close]
  split <;> rfl

/-- Only the beginning of a region on the stack, if it is entered, and its end change the stack. -/
theorem stack_of_perform (run : Run) (entering : instruction.opcode = .push → run.cell = 0)
    (leaving : instruction.opcode ≠ .pop) :
    (perform run.terminal (run.machine.step instruction)).run.machine.stack = run.machine.stack := by
  rcases run with ⟨⟨head, position, register, stack⟩, terminal⟩
  rcases instruction with ⟨opcode, value, offset, link⟩
  have proceeds (outcome : Except Head Head) :
      (perform terminal (Machine.proceed position register stack outcome)).run.machine.stack = stack := by
    cases outcome <;> rfl
  have jumps : (perform terminal
      (Machine.jump ⟨head, position, register, stack⟩ link)).run.machine.stack = stack := by
    unfold Machine.jump
    split <;> rfl
  cases opcode with
  | nop | popFast | add | set => rfl
  | pop => exact (leaving rfl).elim
  | move | reset | multiply => exact proceeds _
  | stop => exact congrArg Machine.stack (machine_close ..)
  | input =>
    simp only [Machine.step, perform]
    split <;> rfl
  | output =>
    simp only [Machine.step, perform]
    split <;> rfl
  | loopStart | loopEnd | pushFast =>
    simp only [Machine.step]
    split
    · exact jumps
    · rfl
  | push =>
    have zero : head.read = 0 := entering rfl
    simp only [Machine.step, zero, if_true]
    exact jumps
  | store =>
    simp only [Machine.step]
    split
    · rfl
    · exact proceeds _
  | seek =>
    simp only [Machine.step]
    split
    · exact proceeds _
    · rfl

/-- A run comes to its end at a `stop`, and nowhere else. -/
theorem opcode_of_stopped {terminal : Terminal} {machine : Machine}
    (performed : perform terminal (machine.step instruction) = .ended .stopped last) :
    instruction.opcode = .stop := by
  have jumps {link : Nat} (jumped : perform terminal (machine.jump link) = .ended .stopped last) :
      False := by
    unfold Machine.jump at jumped
    split at jumped <;> cases jumped
  have proceeds {position : Nat} {register : UInt8} {stack : List UInt8} {outcome : Except Head Head}
      (proceeded : perform terminal (Machine.proceed position register stack outcome) =
        .ended .stopped last) : False := by
    cases outcome <;> cases proceeded
  rcases machine with ⟨head, position, register, stack⟩
  rcases instruction with ⟨opcode, value, offset, link⟩
  cases opcode with
  | stop => rfl
  | nop | popFast | add | set | pop => cases performed
  | move | reset | multiply => exact (proceeds performed).elim
  | input | output =>
    simp only [Machine.step, perform] at performed
    split at performed <;> cases performed
  | loopStart | loopEnd | push | pushFast =>
    simp only [Machine.step] at performed
    split at performed
    · exact (jumps performed).elim
    · cases performed
  | store =>
    simp only [Machine.step] at performed
    split at performed
    · cases performed
    · exact (proceeds performed).elim
  | seek =>
    simp only [Machine.step] at performed
    split at performed
    · exact (proceeds performed).elim
    · cases performed

end Run

section Outside

variable {text : Text} (wellFormed : text.WellFormed) (level : text.Level) {run now last : Run}
  {count : Nat}

include wellFormed

/-- Around a position in a region there is a region that is in no other. -/
theorem exists_outermost {start : Nat} {region : Instruction} {position : Nat}
    (encloses : text.Encloses start region position) :
    ∃ first outer, text.Encloses first outer position ∧
      ∀ other around, ¬ text.Encloses other around first := by
  induction start using Nat.strongRecOn generalizing region with
  | ind start ih =>
    by_cases outermost : ∀ other around, ¬ text.Encloses other around start
    · exact ⟨start, region, encloses, outermost⟩
    · simp only [Classical.not_forall, Classical.not_not] at outermost
      obtain ⟨other, around, wider⟩ := outermost
      obtain ⟨-, within⟩ := wider.link_lt wellFormed encloses.begins
      have upto := encloses.upto
      exact ih other wider.after ⟨wider.begins, Nat.lt_trans wider.after encloses.after, by omega⟩

include level

/-- **Outside of all regions the stack is as it was at the start.** -/
theorem stack_of_advance (first : run.machine.position = 0)
    (reached : Run.advance text count run = .running now)
    (outside : ∀ start region, ¬ text.Encloses start region now.machine.position) :
    now.machine.stack = run.machine.stack := by
  induction count using Nat.strongRecOn generalizing now with
  | ind count ih =>
    cases count with
    | zero =>
      rw [Run.advance_zero] at reached
      split at reached
      · cases reached
      · cases reached
        rfl
    | succ count =>
      obtain ⟨before, instruction, early, found, performed⟩ := Run.last_of_advance reached
      by_cases inside : ∃ start region, text.Encloses start region before.machine.position
      · -- The run has just left the outermost region there.
        obtain ⟨_, _, inside⟩ := inside
        obtain ⟨start, region, encloses, outermost⟩ := exists_outermost wellFormed inside
        obtain ⟨sooner, steps, entry, rfl, -, entered, here, marked, stays⟩ :=
          exists_entry wellFormed first early encloses
        rw [Nat.add_assoc, Run.advance_of_running entered] at reached
        have behind := left_of_outside wellFormed level encloses.begins here marked stays reached
          (outside start region)
        rw [behind.stack]
        exact ih sooner (by omega) entered (here ▸ outermost)
      · simp only [not_exists] at inside
        have entering (opcode : instruction.opcode = .push) : before.cell = 0 := by
          have begins : text.RegionAt before.machine.position instruction := ⟨found, .inl opcode⟩
          by_contra marked
          obtain rfl := Progress.running.inj (performed.symm.trans (perform_of_marked begins marked))
          have order := (begins.pair wellFormed opcode).1.order
          have position := (visit_enter begins rfl).2
          exact outside _ _ ⟨begins, by omega, by omega⟩
        have leaving : instruction.opcode ≠ .pop := by
          intro opcode
          obtain ⟨order, opening, closing, begun, ended, opcodes, link, -⟩ :=
            (wellFormed.paired _ _ found).2 (by simp [opcode])
          obtain rfl := Option.some.inj (found.symm.trans ended)
          rcases opcodes with ⟨-, loop⟩ | ⟨push, -⟩
          · cases opcode.symm.trans loop
          · exact inside _ _ ⟨⟨begun, .inl push⟩, order, Nat.le_of_eq link.symm⟩
        have kept := Run.stack_of_perform before entering leaving
        rw [performed] at kept
        exact kept.trans (ih count (Nat.lt_succ_self _) early inside)

/-- **Once a run has come to its end, the stack is as it was at the start.** -/
theorem stack_of_complete (first : run.machine.position = 0) {limit : Option Nat} {patience : Nat}
    (stopped : run.complete text limit patience = .ended .stopped last) :
    last.machine.stack = run.machine.stack := by
  obtain ⟨count, advanced⟩ : ∃ count, Run.advance text count run = .ended .stopped last := by
    cases limit with
    | none => exact ⟨patience, stopped⟩
    | some limit => exact ⟨_, Run.advance_of_within stopped ⟨nofun, nofun, nofun⟩⟩
  obtain ⟨early, -, now, instruction, reached, found, performed⟩ :=
    (Run.exists_last advanced).resolve_left fun outside => nomatch outside.1
  have stop := Run.opcode_of_stopped performed
  have outside (start : Nat) (region : Instruction) :
      ¬ text.Encloses start region now.machine.position := by
    intro encloses
    rcases encloses.opcode wellFormed found with plain | ⟨-, other | other⟩
    · simp [stop, Opcode.regional] at plain
    · cases stop.symm.trans other
    · cases stop.symm.trans other
  have kept : (Run.perform now.terminal (now.machine.step instruction)).run.machine.stack =
      now.machine.stack := Run.stack_of_perform now (by simp [stop]) (by simp [stop])
  rw [performed] at kept
  exact kept.trans (stack_of_advance wellFormed level first reached outside)

end Outside

/-! ### One machine for many runs -/

/-- A text to be run, and how. -/
structure Job where
  text : Text
  /-- The tape it is run on, given the one of the run before. -/
  tape : Tape → Tape := id
  limit : Option Nat := none
  patience : Nat := 0
  terminal : Terminal := {}

/-- Its text is that of a source. -/
def Job.Assembled (job : Job) : Prop :=
  ∃ passes source assembly, assemble passes source = .ok assembly ∧ job.text = assembly.text

/-- The machine at the start of a program on some tape, with the register and the stack as they are. -/
def Machine.mount (machine : Machine) (tape : Tape) : Machine :=
  { machine with head := Head.onTape tape 0, position := 0 }

theorem Machine.restart_eq_mount (machine : Machine) :
    machine.restart = machine.mount machine.head.tape := rfl

/-- What becomes of a text on a tape, if the machine was used before. -/
def Machine.serveOne (machine : Machine) (tape : Tape) (job : Job) : Progress :=
  Run.complete job.text job.limit job.patience ⟨machine.mount (job.tape tape), job.terminal⟩

/-- Does one job after the other, with the machine as the one before left it. -/
def Machine.serve (machine : Machine) : List Job → List Progress
  | [] => []
  | job :: jobs =>
    let progress := machine.serveOne machine.head.tape job
    progress :: progress.run.machine.serve jobs

/-- Does one job after the other, each with a machine of its own. -/
def Tape.serve (tape : Tape) : List Job → List Progress
  | [] => []
  | job :: jobs =>
    let progress := (Machine.onTape tape).serveOne tape job
    progress :: progress.run.machine.head.tape.serve jobs

/-- Runs of the text cannot tell what earlier runs left behind. -/
structure Text.Forgets (text : Text) : Prop where
  /-- Whatever machines they are run on, two runs on the same tape at the same terminal do the same. -/
  alike : ∀ (machine other : Machine) (tape : Tape) (terminal : Terminal) (limit : Option Nat)
    (patience : Nat), (Run.complete text limit patience ⟨machine.mount tape, terminal⟩).Alike
      (Run.complete text limit patience ⟨other.mount tape, terminal⟩)
  /-- A run that comes to its end leaves the stack as it found it. -/
  stack : ∀ (machine : Machine) (tape : Tape) (terminal : Terminal) (limit : Option Nat)
    (patience : Nat) (last : Run),
    Run.complete text limit patience ⟨machine.mount tape, terminal⟩ = .ended .stopped last →
      last.machine.stack = machine.stack

theorem Job.Assembled.forgets {job : Job} (assembled : job.Assembled) : job.text.Forgets := by
  obtain ⟨passes, source, assembly, accepted, text⟩ := assembled
  obtain ⟨code, reached, written⟩ := code_of_assembled accepted
  have wellFormed := wellFormed_of_emit reached.proper.1 written
  have level := level_of_emit reached.proper.1 written
  rw [text]
  constructor
  · intro machine other tape terminal limit patience
    have alike : Run.Alike ⟨machine.mount tape, terminal⟩ ⟨other.mount tape, terminal⟩ :=
      ⟨rfl, rfl, rfl⟩
    exact complete_alike wellFormed level (by rfl) alike limit patience
  · intro machine tape terminal limit patience last stopped
    exact stack_of_complete wellFormed level rfl stopped

theorem serve_alike {jobs : List Job} (forgets : ∀ job ∈ jobs, job.text.Forgets)
    (machine : Machine) :
    List.Forall₂ Progress.Alike (machine.serve jobs) (machine.head.tape.serve jobs) := by
  induction jobs generalizing machine with
  | nil => exact .nil
  | cons job jobs ih =>
    have alike : (machine.serveOne machine.head.tape job).Alike
        ((Machine.onTape machine.head.tape).serveOne machine.head.tape job) :=
      (forgets job List.mem_cons_self).alike ..
    refine .cons alike ?_
    rw [← alike.run.head]
    exact ih (fun job member => forgets job (List.mem_cons_of_mem _ member)) _

/-- **What runs leave behind in a machine is never seen.** -/
theorem leftovers_unseen {jobs : List Job} (assembled : ∀ job ∈ jobs, job.Assembled) :
    (∀ job ∈ jobs, job.text.Forgets) ∧
      ∀ machine : Machine,
        List.Forall₂ Progress.Alike (machine.serve jobs) (machine.head.tape.serve jobs) := by
  have forgets (job : Job) (member : job ∈ jobs) := (assembled job member).forgets
  exact ⟨forgets, serve_alike forgets⟩

/-- A run is given up in a region, with its counter on the stack, and another one begins. -/
theorem abandoned_region_unseen :
    let source : Source := ['+', '+', '[', '-', '>', '>', '+', '<', '[', '-', '>', '>', '+', '>', '+',
      '<', '<', '<', ']', '<', ']', '.'].map Char.toUInt8
    ∃ assembly, assemble Passes.all source = .ok assembly ∧
      let jobs : List Job := [{ text := assembly.text, limit := some 3 },
        { text := assembly.text, tape := fun _ => Tape.blank, patience := 99 }]
      ((Machine.onTape Tape.blank).serve jobs).map (·.run.machine.stack) = [[2], [2]] ∧
        ((∀ job ∈ jobs, job.text.Forgets) ∧ ∀ machine : Machine,
          List.Forall₂ Progress.Alike (machine.serve jobs) (machine.head.tape.serve jobs)) := by
  intro source
  have evaluated : (assemble Passes.all source).toOption.map (fun assembly =>
      ((Machine.onTape Tape.blank).serve [{ text := assembly.text, limit := some 3 },
        { text := assembly.text, tape := fun _ => Tape.blank, patience := 99 }]).map
          (·.run.machine.stack)) = some [[2], [2]] := by
    decide +kernel
  obtain ⟨assembly, found, left⟩ := Option.map_eq_some_iff.mp evaluated
  have assembled := toOption_eq_some.mp found
  refine ⟨assembly, assembled, left, leftovers_unseen fun job member => ?_⟩
  simp only [List.mem_cons, List.not_mem_nil, or_false] at member
  rcases member with rfl | rfl <;> exact ⟨_, _, assembly, assembled, rfl⟩

end TapeMachine
