/-
**Conversations.**

Text is typed ahead, bytes are written, the output is flushed and bytes are read, in any order and at one
terminal, while its streams may fail. No byte that was typed ahead and no arrival is skipped or comes
twice.

* `Request`, `Response`, `Terminal.converse`: what is asked of a terminal, one after the other, and what
  it answers;
* `Turn`: what can happen behind a request, the calls that are made then, and the response;
* `Supply`, `Turn.Takes`: what a turn takes from what is typed ahead, and from the input stream;
* `Terminal.Makes`: a terminal makes some calls, and they fail as planned;
* `exists_turn`: every request leads to a turn;
* `Take.arrivals`, `Take.echoes`: what all turns take together;
* `Conversation`, `exists_conversation`: every conversation is a list of turns.
-/

import TapeMachine.Proofs.Terminal.Calls

namespace TapeMachine

/-! ### Requests -/

/-- What can be asked of a terminal. -/
inductive Request where
  /-- Type text ahead. -/
  | typeAhead (text : List UInt8)
  /-- Write a byte. -/
  | emit (byte : UInt8)
  /-- Flush the output. -/
  | flush
  /-- Read a byte. -/
  | read
  deriving DecidableEq

/-- What it answers. -/
inductive Response where
  /-- Typing ahead always works. -/
  | done
  /-- Whether the call was accepted. -/
  | accepted (accepted : Bool)
  /-- What was read. -/
  | reply (reply : Reply)
  deriving DecidableEq

namespace Terminal

/-- Does what is asked. -/
def respond (terminal : Terminal) : Request → Terminal × Response
  | .typeAhead text => (terminal.typeAhead text, .done)
  | .emit byte => (terminal.emit byte).map id .accepted
  | .flush => terminal.flush.map id .accepted
  | .read => terminal.read.map id .reply

/-- Does what is asked, one request after the other. -/
def converse : List Request → Terminal → Terminal × List Response
  | [], terminal => (terminal, [])
  | request :: rest, terminal =>
    match terminal.respond request with
    | (next, response) => (converse rest next).map id (response :: ·)

end Terminal

/-! ### Turns -/

/-- What can happen behind a request. -/
inductive Turn where
  /-- Text was typed ahead. -/
  | typed (text : List UInt8)
  /-- A byte was written, or failed to be. -/
  | emitted (byte : UInt8) (accepted : Bool)
  /-- The output was flushed, or failed to be. -/
  | flushed (accepted : Bool)
  /-- A byte that was typed ahead could not be echoed. -/
  | unechoed (byte : UInt8)
  /-- A byte that was typed ahead was echoed, and the output could not be flushed. -/
  | unflushed (byte : UInt8)
  /-- A byte that was typed ahead was echoed and read. -/
  | served (byte : UInt8)
  /-- Nothing was typed ahead, and the output could not be flushed. -/
  | blocked
  /-- Nothing was typed ahead, and the input stream was interrupted so often before the arrival. -/
  | polled (interruptions : Nat) (arrival : Arrival)
  deriving DecidableEq

namespace Turn

/-- What was asked. -/
def request : Turn → Request
  | typed text => .typeAhead text
  | emitted byte _ => .emit byte
  | flushed _ => .flush
  | unechoed _ | unflushed _ | served _ | blocked | polled _ _ => .read

/-- What was answered. -/
def response (policy : EndPolicy) : Turn → Response
  | typed _ => .done
  | emitted _ accepted | flushed accepted => .accepted accepted
  | unechoed _ | unflushed _ | blocked => .reply .failed
  | served byte => .reply (.byte byte)
  | polled _ arrival => .reply (Terminal.reply policy arrival)

/-- What the input stream has yielded. -/
def arrivals : Turn → List Arrival
  | polled interruptions arrival => List.replicate interruptions .interrupted ++ [arrival]
  | _ => []

/-- The calls on the streams. -/
def calls : Turn → List Call
  | typed _ => []
  | emitted byte accepted => [.write byte accepted]
  | flushed accepted => [.flush accepted]
  | unechoed byte => [.write byte false]
  | unflushed byte => [.write byte true, .flush false]
  | served byte => [.write byte true, .flush true]
  | blocked => [.flush false]
  | polled interruptions arrival =>
    .flush true :: (polled interruptions arrival).arrivals.map .read

/-- The byte, typed ahead, that was to be echoed. -/
def echo? : Turn → Option UInt8
  | unechoed byte | unflushed byte | served byte => some byte
  | _ => none

/-- The byte that reached the output. -/
def output? : Turn → Option UInt8
  | emitted byte true | unflushed byte | served byte => some byte
  | _ => none

end Turn

/-- Where bytes are read from. -/
structure Supply where
  /-- What was typed ahead and has not been read. -/
  typed : List UInt8
  /-- What the input stream will yield, call by call; then it is at its end. -/
  feed : List Arrival

/-- Where a terminal reads from. -/
def Terminal.supply (terminal : Terminal) : Supply :=
  ⟨terminal.typeahead, terminal.feed⟩

/-- What a turn leaves. -/
inductive Turn.Takes : Turn → Supply → Supply → Prop where
  | typed (text : List UInt8) (supply : Supply) :
      Takes (.typed text) supply ⟨text ++ [10], supply.feed⟩
  | emitted (byte : UInt8) (accepted : Bool) (supply : Supply) :
      Takes (.emitted byte accepted) supply supply
  | flushed (accepted : Bool) (supply : Supply) : Takes (.flushed accepted) supply supply
  | unechoed (byte : UInt8) (rest : List UInt8) (feed : List Arrival) :
      Takes (.unechoed byte) ⟨byte :: rest, feed⟩ ⟨rest, feed⟩
  | unflushed (byte : UInt8) (rest : List UInt8) (feed : List Arrival) :
      Takes (.unflushed byte) ⟨byte :: rest, feed⟩ ⟨rest, feed⟩
  | served (byte : UInt8) (rest : List UInt8) (feed : List Arrival) :
      Takes (.served byte) ⟨byte :: rest, feed⟩ ⟨rest, feed⟩
  | blocked (feed : List Arrival) : Takes .blocked ⟨[], feed⟩ ⟨[], feed⟩
  | polled (interruptions : Nat) {arrival : Arrival} (rest : List Arrival)
      (other : arrival ≠ .interrupted) :
      Takes (.polled interruptions arrival)
        ⟨[], List.replicate interruptions .interrupted ++ arrival :: rest⟩ ⟨[], rest⟩
  | ended (interruptions : Nat) :
      Takes (.polled interruptions .endOfInput)
        ⟨[], List.replicate interruptions .interrupted⟩ ⟨[], []⟩

/-- What turns leave, one after the other. -/
inductive Take : List Turn → Supply → Supply → Prop where
  | nil (supply : Supply) : Take [] supply supply
  | cons {turn : Turn} {rest : List Turn} {before between after : Supply}
      (first : turn.Takes before between) (later : Take rest between after) :
      Take (turn :: rest) before after

/-! ### Calls -/

/-- Whether a call writes. -/
def Call.isWrite : Call → Bool
  | .write _ _ => true
  | _ => false

/-- Whether a call flushes. -/
def Call.isFlush : Call → Bool
  | .flush _ => true
  | _ => false

/-- The calls fail as planned, if so many writes and flushes were made before. -/
def Call.Planned (writeFails flushFails : Nat → Bool) : Nat → Nat → List Call → Prop
  | _, _, [] => True
  | writes, flushes, .write _ accepted :: rest =>
    accepted = !writeFails writes ∧ Planned writeFails flushFails (writes + 1) flushes rest
  | writes, flushes, .flush accepted :: rest =>
    accepted = !flushFails flushes ∧ Planned writeFails flushFails writes (flushes + 1) rest
  | writes, flushes, .read _ :: rest => Planned writeFails flushFails writes flushes rest

namespace Terminal

/-- The terminal makes these calls, and they fail as planned. -/
structure Makes (terminal : Terminal) (calls : List Call) (next : Terminal) : Prop where
  history : next.history.toList = terminal.history.toList ++ calls
  planned : Call.Planned terminal.writeFails terminal.flushFails terminal.writes terminal.flushes calls
  writes : next.writes = terminal.writes + calls.countP Call.isWrite
  flushes : next.flushes = terminal.flushes + calls.countP Call.isFlush
  policy : next.policy = terminal.policy
  writeFails : next.writeFails = terminal.writeFails
  flushFails : next.flushFails = terminal.flushFails

variable {terminal next last : Terminal} {calls more : List Call}

theorem planned_append {writeFails flushFails : Nat → Bool} {writes flushes : Nat}
    (first : Call.Planned writeFails flushFails writes flushes calls)
    (second : Call.Planned writeFails flushFails (writes + calls.countP Call.isWrite)
      (flushes + calls.countP Call.isFlush) more) :
    Call.Planned writeFails flushFails writes flushes (calls ++ more) := by
  induction calls generalizing writes flushes with
  | nil => exact second
  | cons call rest ih =>
    cases call with
    | write byte accepted =>
      rw [List.countP_cons_of_pos rfl, List.countP_cons_of_neg Bool.false_ne_true] at second
      refine ⟨first.1, ih first.2 ?_⟩
      rw [Nat.add_right_comm]
      exact second
    | flush accepted =>
      rw [List.countP_cons_of_neg Bool.false_ne_true, List.countP_cons_of_pos rfl] at second
      refine ⟨first.1, ih first.2 ?_⟩
      rw [Nat.add_right_comm flushes]
      exact second
    | read arrival =>
      rw [List.countP_cons_of_neg Bool.false_ne_true, List.countP_cons_of_neg Bool.false_ne_true] at second
      exact ih first second

theorem Makes.trans (first : terminal.Makes calls next) (second : next.Makes more last) :
    terminal.Makes (calls ++ more) last where
  history := by rw [second.history, first.history, List.append_assoc]
  planned := by
    refine planned_append first.planned ?_
    rw [← first.writes, ← first.flushes, ← first.writeFails, ← first.flushFails]
    exact second.planned
  writes := by rw [second.writes, first.writes, List.countP_append, Nat.add_assoc]
  flushes := by rw [second.flushes, first.flushes, List.countP_append, Nat.add_assoc]
  policy := second.policy.trans first.policy
  writeFails := second.writeFails.trans first.writeFails
  flushFails := second.flushFails.trans first.flushFails

theorem makes_emit (terminal : Terminal) (byte : UInt8) :
    terminal.Makes [.write byte (terminal.emit byte).2] (terminal.emit byte).1 :=
  ⟨by simp [emit], ⟨rfl, trivial⟩, rfl, rfl, rfl, rfl, rfl⟩

theorem makes_flush (terminal : Terminal) :
    terminal.Makes [.flush terminal.flush.2] terminal.flush.1 :=
  ⟨by simp [flush], ⟨rfl, trivial⟩, rfl, rfl, rfl, rfl, rfl⟩

theorem planned_read {writeFails flushFails : Nat → Bool} {writes flushes : Nat}
    (arrivals : List Arrival) :
    Call.Planned writeFails flushFails writes flushes (arrivals.map .read) := by
  induction arrivals with
  | nil => exact trivial
  | cons arrival rest ih => exact ih

/-- Calls on the input stream make no difference to those on the output stream. -/
theorem makes_of_reads {arrivals feed : List Arrival}
    (same : next = { terminal with feed := feed, history := next.history })
    (history : next.history.toList = terminal.history.toList ++ arrivals.map .read) :
    terminal.Makes (arrivals.map .read) next := by
  have writes : (arrivals.map Call.read).countP Call.isWrite = 0 := by
    simp [List.countP_eq_zero, Call.isWrite]
  have flushes : (arrivals.map Call.read).countP Call.isFlush = 0 := by
    simp [List.countP_eq_zero, Call.isFlush]
  refine ⟨history, planned_read arrivals, ?_, ?_, ?_, ?_, ?_⟩ <;> rw [same]
  · rw [writes, Nat.add_zero]
  · rw [flushes, Nat.add_zero]

/-- A feed is interrupted for some time, and then it yields something else, or is at its end. -/
theorem feed_cases (feed : List Arrival) :
    (∃ interruptions, feed = List.replicate interruptions .interrupted) ∨
      ∃ interruptions arrival rest, arrival ≠ .interrupted ∧
        feed = List.replicate interruptions .interrupted ++ arrival :: rest := by
  induction feed with
  | nil => exact .inl ⟨0, rfl⟩
  | cons arrival feed ih =>
    by_cases interrupted : arrival = .interrupted
    · subst interrupted
      rcases ih with ⟨interruptions, rfl⟩ | ⟨interruptions, next, rest, other, rfl⟩
      · exact .inl ⟨interruptions + 1, rfl⟩
      · exact .inr ⟨interruptions + 1, next, rest, other, rfl⟩
    · exact .inr ⟨0, arrival, feed, interrupted, rfl⟩

/-- What polling takes, and the calls that it makes. -/
theorem exists_poll (terminal : Terminal) (typed : terminal.typeahead = []) :
    ∃ interruptions arrival,
      (Turn.polled interruptions arrival).Takes terminal.supply terminal.poll.1.supply ∧
      terminal.Makes ((Turn.polled interruptions arrival).arrivals.map .read) terminal.poll.1 ∧
      terminal.poll.2 = reply terminal.policy arrival := by
  rcases feed_cases terminal.feed with ⟨interruptions, feed⟩ | ⟨interruptions, arrival, rest, other, feed⟩
  · refine ⟨interruptions, .endOfInput, ?_, makes_of_reads rfl ?_, ?_⟩
    · have left : terminal.poll.1.feed = [] := by simp [poll, feed]
      rw [supply, supply, left, feed, typed, show terminal.poll.1.typeahead = [] from typed]
      exact .ended interruptions
    · simp [poll, feed, Turn.arrivals]
    · simp [poll, feed]
  · refine ⟨interruptions, arrival, ?_, makes_of_reads rfl ?_, ?_⟩
    · have left : terminal.poll.1.feed = rest := by simp [poll, feed, other]
      rw [supply, supply, left, feed, typed, show terminal.poll.1.typeahead = [] from typed]
      exact .polled interruptions rest other
    · simp [poll, feed, other, Turn.arrivals]
    · simp [poll, feed, other]

/-- What happens behind a request. -/
structure Happens (terminal : Terminal) (request : Request) (turn : Turn) (next : Terminal)
    (response : Response) : Prop where
  request : turn.request = request
  response : response = turn.response terminal.policy
  takes : turn.Takes terminal.supply next.supply
  makes : terminal.Makes turn.calls next

theorem read_of_nil (typed : terminal.typeahead = []) :
    terminal.read = match terminal.flush with
      | (next, false) => (next, .failed)
      | (next, true) => next.poll := by
  rcases terminal with ⟨policy, typeahead, feed, writeFails, flushFails, writes, flushes, history⟩
  obtain rfl : typeahead = [] := typed
  rfl

theorem read_of_cons {byte : UInt8} {rest : List UInt8} (typed : terminal.typeahead = byte :: rest) :
    terminal.read = match { terminal with typeahead := rest }.emit byte with
      | (next, false) => (next, .failed)
      | (next, true) =>
        match next.flush with
        | (last, false) => (last, .failed)
        | (last, true) => (last, .byte byte) := by
  rcases terminal with ⟨policy, typeahead, feed, writeFails, flushFails, writes, flushes, history⟩
  obtain rfl : typeahead = byte :: rest := typed
  rfl

/-- What reading comes to if nothing is typed ahead. -/
theorem exists_read_of_nil (typed : terminal.typeahead = []) :
    ∃ turn, terminal.Happens .read turn terminal.read.1 (.reply terminal.read.2) := by
  have flushes := makes_flush terminal
  have supply : terminal.flush.1.supply = terminal.supply := rfl
  obtain ⟨interruptions, arrival, takes, polls, reply⟩ := exists_poll terminal.flush.1 typed
  rw [read_of_nil typed]
  rcases flushed : terminal.flush with ⟨next, accepted⟩
  rw [flushed] at flushes supply takes polls reply
  cases accepted with
  | false =>
    refine ⟨.blocked, rfl, rfl, ?_, flushes⟩
    rw [supply, Terminal.supply, typed]
    exact .blocked _
  | true =>
    refine ⟨.polled interruptions arrival, rfl, ?_, supply ▸ takes, flushes.trans polls⟩
    rw [reply, flushes.policy]
    rfl

/-- What reading comes to if something is typed ahead. -/
theorem exists_read_of_cons {byte : UInt8} {rest : List UInt8}
    (typed : terminal.typeahead = byte :: rest) :
    ∃ turn, terminal.Happens .read turn terminal.read.1 (.reply terminal.read.2) := by
  have before : terminal.supply = ⟨byte :: rest, terminal.feed⟩ :=
    congrArg (Supply.mk · terminal.feed) typed
  have echoes : terminal.Makes [.write byte ({ terminal with typeahead := rest }.emit byte).2]
      ({ terminal with typeahead := rest }.emit byte).1 :=
    ⟨(makes_emit _ byte).history, ⟨rfl, trivial⟩, rfl, rfl, rfl, rfl, rfl⟩
  have after : ({ terminal with typeahead := rest }.emit byte).1.supply = ⟨rest, terminal.feed⟩ := rfl
  have read := read_of_cons typed
  rcases echoed : { terminal with typeahead := rest }.emit byte with ⟨next, accepted⟩
  rw [echoed] at echoes after read
  rw [read]
  cases accepted with
  | false =>
    refine ⟨.unechoed byte, rfl, rfl, ?_, echoes⟩
    rw [before, after]
    exact .unechoed byte rest _
  | true =>
    have flushes := makes_flush next
    have supply : next.flush.1.supply = ⟨rest, terminal.feed⟩ := after
    rcases flushed : next.flush with ⟨last, worked⟩
    rw [flushed] at flushes supply
    simp only [flushed]
    cases worked with
    | false =>
      refine ⟨.unflushed byte, rfl, rfl, ?_, echoes.trans flushes⟩
      rw [before, supply]
      exact .unflushed byte rest _
    | true =>
      refine ⟨.served byte, rfl, rfl, ?_, echoes.trans flushes⟩
      rw [before, supply]
      exact .served byte rest _

/-- **Every request leads to a turn.** -/
theorem exists_turn (terminal : Terminal) (request : Request) :
    ∃ turn, terminal.Happens request turn (terminal.respond request).1 (terminal.respond request).2 := by
  cases request with
  | typeAhead text =>
    exact ⟨.typed text, rfl, rfl, .typed text _,
      ⟨(List.append_nil _).symm, trivial, rfl, rfl, rfl, rfl, rfl⟩⟩
  | emit byte => exact ⟨.emitted byte (terminal.emit byte).2, rfl, rfl, .emitted .., makes_emit ..⟩
  | flush => exact ⟨.flushed terminal.flush.2, rfl, rfl, .flushed .., makes_flush ..⟩
  | read =>
    cases typed : terminal.typeahead with
    | nil => exact exists_read_of_nil typed
    | cons byte rest => exact exists_read_of_cons typed

end Terminal

/-! ### What all turns take -/

/-- Whether a turn reads a byte. -/
def Turn.reads (turn : Turn) : Bool :=
  turn.request = .read

section Takes

variable {turn : Turn} {turns first second : List Turn} {before after : Supply}

/-- A turn takes its arrivals from the input stream, or finds it at its end. -/
theorem Turn.Takes.arrivals (takes : turn.Takes before after) :
    ∃ ends, turn.arrivals ++ after.feed = before.feed ++ List.replicate ends .endOfInput ∧
      (ends ≠ 0 → after.feed = []) := by
  cases takes with
  | polled interruptions rest other => exact ⟨0, by simp [Turn.arrivals], fun supplied => (supplied rfl).elim⟩
  | ended interruptions => exact ⟨1, by simp [Turn.arrivals], fun _ => rfl⟩
  | _ => exact ⟨0, (List.append_nil _).symm, fun supplied => (supplied rfl).elim⟩

/-- **No arrival is skipped or comes twice**: what all turns get is what the input stream has lost, and
they find it at its end only when nothing is left. -/
theorem Take.arrivals (take : Take turns before after) :
    ∃ ends, turns.flatMap Turn.arrivals ++ after.feed =
        before.feed ++ List.replicate ends .endOfInput ∧ (ends ≠ 0 → after.feed = []) := by
  induction take with
  | nil supply => exact ⟨0, (List.append_nil _).symm, fun supplied => (supplied rfl).elim⟩
  | @cons turn rest before between after takes later ih =>
    obtain ⟨early, here, nothing⟩ := takes.arrivals
    obtain ⟨late, there, empty⟩ := ih
    refine ⟨early + late, ?_, fun supplied => ?_⟩
    · rw [List.flatMap_cons, List.append_assoc, there, ← List.append_assoc, here, List.append_assoc,
        List.replicate_append_replicate]
    · by_cases idle : late = 0
      · subst idle
        have left := nothing (by omega)
        rw [left] at there
        exact (List.append_eq_nil_iff.mp there).2
      · exact empty idle

/-- A turn that types nothing takes the next byte typed ahead if it reads, and only then. -/
theorem Turn.Takes.echo (takes : turn.Takes before after) (untyped : ∀ text, turn ≠ .typed text) :
    turn.echo?.toList = before.typed.take (if turn.reads then 1 else 0) ∧
      after.typed = before.typed.drop (if turn.reads then 1 else 0) := by
  cases takes with
  | typed text => exact (untyped text rfl).elim
  | _ => exact ⟨rfl, rfl⟩

/-- **No byte that was typed ahead is skipped or comes twice**: behind so many reads, so many bytes were
to be echoed and are gone. -/
theorem Take.echoes (take : Take turns before after) (untyped : ∀ text, .typed text ∉ turns) :
    turns.filterMap Turn.echo? = before.typed.take (turns.countP Turn.reads) ∧
      after.typed = before.typed.drop (turns.countP Turn.reads) := by
  induction take with
  | nil supply => exact ⟨rfl, rfl⟩
  | @cons turn rest before between after takes later ih =>
    obtain ⟨here, left⟩ := takes.echo fun text same => untyped text (same ▸ List.mem_cons_self)
    obtain ⟨there, last⟩ := ih fun text member => untyped text (List.mem_cons_of_mem _ member)
    have count : (turn :: rest).countP Turn.reads =
        (if turn.reads then 1 else 0) + rest.countP Turn.reads := by
      rw [List.countP_cons, Nat.add_comm]
    rw [count, List.take_add, ← List.drop_drop, ← left, ← here, ← there, last]
    refine ⟨?_, rfl⟩
    cases echo : turn.echo? with
    | none => rw [List.filterMap_cons_none echo]; rfl
    | some byte => rw [List.filterMap_cons_some echo]; rfl

theorem Take.of_append (take : Take (first ++ second) before after) :
    ∃ between, Take first before between ∧ Take second between after := by
  induction first generalizing before with
  | nil => exact ⟨before, .nil before, take⟩
  | cons turn rest ih =>
    cases take with
    | cons takes later =>
      obtain ⟨between, here, there⟩ := ih later
      exact ⟨between, .cons takes here, there⟩

/-- Behind a text that was typed ahead, its bytes and a newline are what is read. -/
theorem Take.echoes_of_typed {text : List UInt8} (take : Take (first ++ .typed text :: second) before after)
    (untyped : ∀ text, .typed text ∉ second) :
    second.filterMap Turn.echo? = (text ++ [10]).take (second.countP Turn.reads) ∧
      after.typed = (text ++ [10]).drop (second.countP Turn.reads) := by
  obtain ⟨between, -, there⟩ := take.of_append
  cases there with
  | cons takes later =>
    cases takes with
    | typed text => exact later.echoes untyped

end Takes

/-! ### Whole conversations -/

/-- The turns that the requests lead to, one after the other. -/
structure Terminal.Follows (terminal : Terminal) (requests : List Request) (turns : List Turn) :
    Prop where
  asked : turns.map Turn.request = requests
  answered : (terminal.converse requests).2 = turns.map (Turn.response terminal.policy)
  takes : Take turns terminal.supply (terminal.converse requests).1.supply
  makes : terminal.Makes (turns.flatMap Turn.calls) (terminal.converse requests).1

theorem exists_follows (terminal : Terminal) (requests : List Request) :
    ∃ turns, terminal.Follows requests turns := by
  induction requests generalizing terminal with
  | nil =>
    exact ⟨[], rfl, rfl, .nil _, ⟨(List.append_nil _).symm, trivial, rfl, rfl, rfl, rfl, rfl⟩⟩
  | cons request rest ih =>
    obtain ⟨turn, asked, answered, takes, makes⟩ := terminal.exists_turn request
    obtain ⟨turns, follows⟩ := ih (terminal.respond request).1
    refine ⟨turn :: turns, ?_, ?_, .cons takes follows.takes, makes.trans follows.makes⟩
    · rw [List.map_cons, asked, follows.asked]
    · rw [List.map_cons, ← answered, ← makes.policy, ← follows.answered]
      rfl

/-- The calls of a turn put out its byte. -/
theorem Turn.filterMap_calls (turn : Turn) :
    turn.calls.filterMap Terminal.emitted = turn.output?.toList := by
  cases turn with
  | emitted byte accepted => cases accepted <;> rfl
  | polled interruptions arrival => simp [calls, Terminal.emitted, output?]
  | _ => rfl

theorem filterMap_flatMap_calls (turns : List Turn) :
    (turns.flatMap Turn.calls).filterMap Terminal.emitted = turns.filterMap Turn.output? := by
  induction turns with
  | nil => rfl
  | cons turn rest ih =>
    rw [List.flatMap_cons, List.filterMap_append, turn.filterMap_calls, ih]
    cases output : turn.output? with
    | none => rw [List.filterMap_cons_none output]; rfl
    | some byte => rw [List.filterMap_cons_some output]; rfl

/-- The turns of a conversation, and what they come to. -/
structure Conversation (terminal : Terminal) (requests : List Request) (turns : List Turn) : Prop extends
    terminal.Follows requests turns where
  /-- The output is what was accepted, in the order of the calls. -/
  output : (terminal.converse requests).1.output = terminal.output ++ turns.filterMap Turn.output?
  /-- No arrival is skipped or comes twice, and the end of the input comes when nothing is left. -/
  arrivals : ∃ ends, turns.flatMap Turn.arrivals ++ (terminal.converse requests).1.feed =
      terminal.feed ++ List.replicate ends .endOfInput ∧
    (ends ≠ 0 → (terminal.converse requests).1.feed = [])
  /-- As long as nothing is typed, every read takes the next byte that was typed before. -/
  echoes : (∀ text, .typed text ∉ turns) →
    turns.filterMap Turn.echo? = terminal.typeahead.take (turns.countP Turn.reads) ∧
      (terminal.converse requests).1.typeahead = terminal.typeahead.drop (turns.countP Turn.reads)
  /-- Since text was typed for the last time, every read takes the next byte of it, and a newline at the
  end. What was typed before is gone. -/
  typed : ∀ first text second, turns = first ++ .typed text :: second →
    (∀ other, .typed other ∉ second) →
      second.filterMap Turn.echo? = (text ++ [10]).take (second.countP Turn.reads) ∧
        (terminal.converse requests).1.typeahead = (text ++ [10]).drop (second.countP Turn.reads)

/-- **Every conversation is a list of turns**, whatever fails. -/
theorem exists_conversation (terminal : Terminal) (requests : List Request) :
    ∃ turns, Conversation terminal requests turns := by
  obtain ⟨turns, follows⟩ := exists_follows terminal requests
  refine ⟨turns, { follows with
    output := ?_
    arrivals := follows.takes.arrivals
    echoes := follows.takes.echoes
    typed := ?_ }⟩
  · rw [Terminal.output, follows.makes.history, List.filterMap_append, filterMap_flatMap_calls]
    rfl
  · rintro first text second rfl untyped
    exact follows.takes.echoes_of_typed untyped

/-- A flush fails behind the echo of the first byte, and the next read goes on with the second one. -/
example :
    let terminal : Terminal := { feed := [.interrupted, .byte 120], flushFails := (· = 0) }
    let requests : List Request := [.typeAhead [97], .read, .read, .read, .read]
    (terminal.converse requests).2 = [.done, .reply .failed, .reply (.byte 10), .reply (.byte 120),
        .reply (.byte 255)] ∧
      (terminal.converse requests).1.output = [97, 10] := by
  decide

end TapeMachine
