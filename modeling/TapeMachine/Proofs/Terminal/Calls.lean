/-
**Reading, call by call.**

`Terminal.poll` takes all interruptions off the input at once. Call by call, the input stream is asked
again and again, until it is not interrupted.

* `Terminal.call`: one call on the input stream;
* `Terminal.pollIn`, `Terminal.readIn`: polling and reading with at most so many calls;
* `poll_of_interrupted`, `poll_of_ne`: what polling comes to behind one call;
* `pollIn_of_lt`: with one call more than there are interruptions, polling is over, and its answer is
  that of `poll`;
* `readIn_of_lt`: and so is reading.
-/

import TapeMachine.Terminal

namespace TapeMachine.Terminal

variable {terminal : Terminal} {turns : Nat}

/-- One call on the input stream. -/
def call (terminal : Terminal) : Terminal × Arrival :=
  let arrival := terminal.feed.headD .endOfInput
  ({ terminal with
      feed := terminal.feed.tail
      history := terminal.history.push (.read arrival) }, arrival)

/-- Calls on the input stream until it is not interrupted, if so many calls are enough. -/
def pollIn : Nat → Terminal → Option (Terminal × Reply)
  | 0, _ => none
  | turns + 1, terminal =>
    match terminal.call with
    | (terminal, .interrupted) => pollIn turns terminal
    | (terminal, arrival) => some (terminal, reply terminal.policy arrival)

/-- Reads a byte, if so many calls on the input stream are enough. -/
def readIn (turns : Nat) (terminal : Terminal) : Option (Terminal × Reply) :=
  match terminal.typeahead with
  | _ :: _ => some terminal.read
  | [] =>
    match terminal.flush with
    | (terminal, false) => some (terminal, .failed)
    | (terminal, true) => terminal.pollIn turns

/-- How often the input stream will be interrupted before it yields something else. -/
def interruptions (terminal : Terminal) : Nat :=
  (terminal.feed.takeWhile (· = .interrupted)).length

theorem poll_of_interrupted (interrupted : terminal.call.2 = .interrupted) :
    terminal.poll = terminal.call.1.poll := by
  cases feed : terminal.feed with
  | nil => simp [call, feed] at interrupted
  | cons arrival rest =>
    simp only [call, feed, List.headD_cons] at interrupted
    simp [poll, call, feed, interrupted]

theorem poll_of_ne (other : terminal.call.2 ≠ .interrupted) :
    terminal.poll = (terminal.call.1, reply terminal.policy terminal.call.2) := by
  cases feed : terminal.feed with
  | nil => simp [poll, call, feed]
  | cons arrival rest =>
    have ne : arrival ≠ .interrupted := by simpa [call, feed] using other
    simp [poll, call, feed, ne]

theorem pollIn_succ_of_interrupted (interrupted : terminal.call.2 = .interrupted) :
    terminal.pollIn (turns + 1) = terminal.call.1.pollIn turns := by
  rcases called : terminal.call with ⟨next, arrival⟩
  rw [called] at interrupted
  obtain rfl : arrival = .interrupted := interrupted
  simp only [pollIn, called]

theorem pollIn_succ_of_ne (other : terminal.call.2 ≠ .interrupted) :
    terminal.pollIn (turns + 1) = some terminal.poll := by
  rw [poll_of_ne other]
  simp only [pollIn]
  rfl

theorem interruptions_of_interrupted (interrupted : terminal.call.2 = .interrupted) :
    terminal.interruptions = terminal.call.1.interruptions + 1 := by
  cases feed : terminal.feed with
  | nil => simp [call, feed] at interrupted
  | cons arrival rest =>
    simp only [call, feed, List.headD_cons] at interrupted
    simp [interruptions, call, feed, interrupted]

/-- **Polling is over** with one call more than there are interruptions. -/
theorem pollIn_of_lt (enough : terminal.interruptions < turns) :
    terminal.pollIn turns = some terminal.poll := by
  induction turns generalizing terminal with
  | zero => exact (Nat.not_lt_zero _ enough).elim
  | succ turns ih =>
    by_cases interrupted : terminal.call.2 = .interrupted
    · rw [interruptions_of_interrupted interrupted] at enough
      rw [pollIn_succ_of_interrupted interrupted, poll_of_interrupted interrupted]
      exact ih (Nat.lt_of_succ_lt_succ enough)
    · exact pollIn_succ_of_ne interrupted

/-- **Reading is over** with as many calls. -/
theorem readIn_of_lt (enough : terminal.interruptions < turns) :
    terminal.readIn turns = some terminal.read := by
  have polled := @pollIn_of_lt terminal.flush.1 turns enough
  unfold readIn read
  cases terminal.typeahead with
  | cons byte rest => rfl
  | nil =>
    rcases flushed : terminal.flush with ⟨next, accepted⟩
    rw [flushed] at polled
    cases accepted with
    | false => simp only
    | true => simpa only using polled

end TapeMachine.Terminal
