/-
**Output is visible in time.**

Whoever types at a program has to see what it has put out before. Whatever the program is, and whichever
calls on the streams fail, its output has been flushed at each call on the input stream, and once more
where the program stops or is given up.

* `Call.Shown`: every byte that was put out has been flushed later, and that flush worked;
* `Call.Prompt`: so it is at every call on the input stream, from a place in the calls on;
* `Prompt.turn`: what happens at a terminal behind one request keeps that;
* `prompt_perform`, `prompt_advance`: an instruction and a run keep it;
* `flushed_of_complete`: the last call of a run that stops or is given up;
* `Run.Visible`, `visible`: all runs of all texts show their output in time.
-/

import TapeMachine.Proofs.Limits.Exact
import TapeMachine.Proofs.Terminal.Conversation

namespace TapeMachine

/-- A run ends in order if it stops, or is given up at its limit. -/
def Ending.Orderly : Ending → Prop
  | stopped | exhausted _ => True
  | streamFailure | overrun _ | overflow => False

namespace Call

/-- Every byte that was put out has been flushed later, and that flush worked. -/
def Shown (calls : List Call) : Prop :=
  ∀ before byte after, calls = before ++ .write byte true :: after → .flush true ∈ after

/-- Behind so many calls, the input stream is only called when all output is shown. -/
def Prompt (start : Nat) (calls : List Call) : Prop :=
  ∀ before arrival after, calls = before ++ .read arrival :: after → start ≤ before.length →
    Shown before

variable {calls more : List Call} {start : Nat}

/-! ### One call more -/

/-- A call is the last one, or it was made before. -/
theorem concat_cases {last call : Call} {before after : List Call}
    (same : calls ++ [last] = before ++ call :: after) :
    (calls = before ∧ last = call ∧ after = []) ∨
      ∃ rest, calls = before ++ call :: rest ∧ after = rest ++ [last] := by
  rcases List.eq_nil_or_concat after with rfl | ⟨rest, other, rfl⟩
  · obtain ⟨rfl, ended⟩ := List.append_inj' same rfl
    exact .inl ⟨rfl, List.singleton_inj.mp ended, rfl⟩
  · rw [List.concat_eq_append, ← List.cons_append, ← List.append_assoc] at same
    obtain ⟨earlier, ended⟩ := List.append_inj' same rfl
    cases List.singleton_inj.mp ended
    exact .inr ⟨rest, earlier, List.concat_eq_append⟩

/-- A flush that works shows everything. -/
theorem shown_flush (calls : List Call) : Shown (calls ++ [.flush true]) := by
  intro before byte after same
  rcases concat_cases same with ⟨-, ⟨⟩, -⟩ | ⟨rest, -, rfl⟩
  exact List.mem_append_right rest List.mem_cons_self

/-- What the input stream yields does not hide anything. -/
theorem Shown.read (shown : Shown calls) (arrival : Arrival) : Shown (calls ++ [.read arrival]) := by
  intro before byte after same
  rcases concat_cases same with ⟨-, ⟨⟩, -⟩ | ⟨rest, earlier, rfl⟩
  exact List.mem_append_left _ (shown before byte rest earlier)

theorem prompt_start (calls : List Call) : Prompt calls.length calls := by
  intro before arrival after same late
  rw [same, List.length_append, List.length_cons] at late
  omega

/-- Calls on the output stream are never too early. -/
theorem Prompt.concat (prompt : Prompt start calls) {call : Call}
    (other : ∀ arrival, call ≠ .read arrival) : Prompt start (calls ++ [call]) := by
  intro before arrival after same late
  rcases concat_cases same with ⟨-, reads, -⟩ | ⟨rest, earlier, -⟩
  · exact (other arrival reads).elim
  · exact prompt before arrival rest earlier late

/-- The input stream may be called when all output is shown. -/
theorem Prompt.read (prompt : Prompt start calls) (shown : Shown calls) (arrival : Arrival) :
    Prompt start (calls ++ [.read arrival]) := by
  intro before other after same late
  rcases concat_cases same with ⟨rfl, -, -⟩ | ⟨rest, earlier, -⟩
  · exact shown
  · exact prompt before other rest earlier late

theorem Prompt.reads (prompt : Prompt start calls) (shown : Shown calls) (arrivals : List Arrival) :
    Prompt start (calls ++ arrivals.map .read) := by
  induction arrivals generalizing calls with
  | nil => rwa [List.map_nil, List.append_nil]
  | cons arrival rest ih =>
    rw [List.map_cons, List.append_cons]
    exact ih (prompt.read shown arrival) (shown.read arrival)

/-! ### Requests -/

/-- **What happens at a terminal behind one request is prompt**: only polling calls the input stream, and
it does so behind a flush that has worked. -/
theorem Prompt.turn (prompt : Prompt start calls) (turn : Turn) :
    Prompt start (calls ++ turn.calls) := by
  cases turn with
  | typed text => rwa [Turn.calls, List.append_nil]
  | emitted byte accepted => exact prompt.concat fun _ => Call.noConfusion
  | flushed accepted => exact prompt.concat fun _ => Call.noConfusion
  | unechoed byte => exact prompt.concat fun _ => Call.noConfusion
  | blocked => exact prompt.concat fun _ => Call.noConfusion
  | unflushed byte | served byte =>
    rw [Turn.calls, List.append_cons]
    exact (prompt.concat fun _ => Call.noConfusion).concat fun _ => Call.noConfusion
  | polled interruptions arrival =>
    rw [Turn.calls, List.append_cons]
    exact (prompt.concat fun _ => Call.noConfusion).reads (shown_flush calls) _

end Call

namespace Run

open Call

variable {text : Text} {run last : Run} {terminal : Terminal} {start count : Nat} {limit : UInt64}
  {ending : Ending}

/-! ### Instructions -/

theorem prompt_respond (prompt : Prompt start terminal.history.toList) (request : Request) :
    Prompt start (terminal.respond request).1.history.toList := by
  obtain ⟨turn, happens⟩ := terminal.exists_turn request
  rw [happens.makes.history]
  exact prompt.turn turn

theorem prompt_close (ending : Ending) (machine : Machine)
    (prompt : Prompt start terminal.history.toList) :
    Prompt start (close ending ⟨machine, terminal⟩).run.calls := by
  have flushes := prompt_respond prompt .flush
  simp only [close]
  split <;> next same => rw [Terminal.respond, same] at flushes; exact flushes

theorem prompt_giveUp (limit : UInt64) (prompt : Prompt start run.calls) :
    Prompt start (giveUp limit run).run.calls := by
  rw [giveUp]
  split
  · exact prompt
  · exact prompt_close _ run.machine prompt

/-- **An instruction is prompt**: it asks the terminal for one thing, or for nothing. -/
theorem prompt_perform (prompt : Prompt start terminal.history.toList) (step : Step) :
    Prompt start (perform terminal step).run.calls := by
  cases step with
  | next machine | overflow machine | endless machine => exact prompt
  | stop machine => exact prompt_close .stopped machine prompt
  | write byte machine =>
    have emits := prompt_respond prompt (.emit byte)
    simp only [perform]
    split <;> next same => rw [Terminal.respond, same] at emits; exact emits
  | read machine =>
    have reads := prompt_respond prompt .read
    simp only [perform]
    split <;> next same => rw [Terminal.respond, same] at reads; exact reads

theorem prompt_advance (text : Text) (count : Nat) (prompt : Prompt start run.calls) :
    Prompt start (advance text count run).run.calls :=
  advance_induction (motive := fun now => Prompt start now.calls) text
    (fun now instruction _ kept => prompt_perform kept (now.machine.step instruction)) count prompt

theorem prompt_complete (text : Text) (limit : Option Nat) (patience : Nat)
    (prompt : Prompt start run.calls) : Prompt start (complete text limit patience run).run.calls := by
  cases limit with
  | none => exact prompt_advance text patience prompt
  | some limit =>
    have advances := prompt_advance text (UInt64.ofNat limit).toNat prompt
    rw [complete, within]
    cases advanced : advance text (UInt64.ofNat limit).toNat run with
    | running now =>
      rw [advanced] at advances
      exact prompt_giveUp (.ofNat limit) advances
    | ended ending last | stuck last =>
      rw [advanced] at advances
      exact advances

/-! ### Endings -/

/-- A run that ends as it was meant to be closed was flushed at the very last. -/
theorem flushed_of_close {meant : Ending} {machine : Machine}
    (closed : close meant ⟨machine, terminal⟩ = .ended ending last) (orderly : ending.Orderly) :
    last.calls = terminal.history.toList ++ [.flush true] := by
  have flushes := (Terminal.makes_flush terminal).history
  simp only [close] at closed
  split at closed
  · next same =>
    cases closed
    rw [same] at flushes
    exact flushes
  · cases closed
    exact orderly.elim

/-- Without a limit, a run ends in an instruction, and only a `stop` is in order. -/
theorem flushed_of_advance (ended : advance text count run = .ended ending last)
    (orderly : ending.Orderly) : ∃ made, last.calls = run.calls ++ made ++ [.flush true] := by
  rcases exists_last ended with ⟨rfl, -⟩ | ⟨early, -, now, instruction, reached, -, performed⟩
  · exact orderly.elim
  obtain ⟨made, between⟩ := extends_advance text early run
  rw [reached] at between
  rcases perform_ended_cases performed with rfl | ⟨rfl, stops⟩ | ⟨rfl, -⟩
  · exact orderly.elim
  · rw [stops] at performed
    exact ⟨made, between ▸ flushed_of_close performed orderly⟩
  · exact orderly.elim

/-- A run that is given up in order is closed. -/
theorem flushed_of_giveUp (given : giveUp limit run = .ended ending last) (orderly : ending.Orderly) :
    last.calls = run.calls ++ [.flush true] := by
  rw [giveUp] at given
  split at given
  · cases given
    exact orderly.elim
  · exact flushed_of_close given orderly

/-- With a limit, a run that was not over is given up. -/
theorem flushed_of_within (ended : within text limit run = .ended ending last)
    (orderly : ending.Orderly) : ∃ made, last.calls = run.calls ++ made ++ [.flush true] := by
  rcases within_ended_cases ended with advanced | ⟨now, advanced, given⟩
  · exact flushed_of_advance advanced orderly
  · obtain ⟨made, between⟩ := extends_advance text limit.toNat run
    rw [advanced] at between
    exact ⟨made, between ▸ flushed_of_giveUp given orderly⟩

theorem flushed_of_complete {limit : Option Nat} {patience : Nat}
    (ended : complete text limit patience run = .ended ending last) (orderly : ending.Orderly) :
    ∃ made, last.calls = run.calls ++ made ++ [.flush true] := by
  cases limit with
  | none => exact flushed_of_advance ended orderly
  | some limit => exact flushed_of_within ended orderly

end Run

/-! ### Runs -/

/-- A run shows its output in time. -/
structure Run.Visible (text : Text) (run : Run) : Prop where
  /-- At each of its calls on the input stream, all bytes put out so far have been flushed, those from
  before the run too, and whatever becomes of the run. -/
  prompt : ∀ limit patience, Call.Prompt run.calls.length (run.complete text limit patience).run.calls
  /-- Where it stops or is given up, its very last call is a flush that works. Nothing is put out behind
  it. -/
  flushed : ∀ limit patience ending last, run.complete text limit patience = .ended ending last →
    ending.Orderly →
    (∃ made, last.calls = run.calls ++ made ++ [.flush true]) ∧ Call.Shown last.calls

/-- **Every run shows its output in time**: of any text, from any machine, and at any terminal, whichever
of its calls fail. -/
theorem visible (text : Text) (run : Run) : run.Visible text where
  prompt limit patience := Run.prompt_complete text limit patience (Call.prompt_start run.calls)
  flushed limit patience ending last ended orderly := by
    obtain ⟨made, calls⟩ := Run.flushed_of_complete ended orderly
    exact ⟨⟨made, calls⟩, calls ▸ Call.shown_flush (run.calls ++ made)⟩

/-- A program puts a byte out and reads one. It is shown its output before it waits, and an interruption
makes no difference. -/
example :
    let text : Text := #[{ opcode := .output }, { opcode := .input }, { opcode := .stop }]
    let run : Run := ⟨Machine.onTape Tape.blank, { feed := [.interrupted, .byte 7] }⟩
    (run.complete text none 3).run.calls =
      [.write 0 true, .flush true, .read .interrupted, .read (.byte 7), .flush true] := by
  decide +kernel

end TapeMachine
