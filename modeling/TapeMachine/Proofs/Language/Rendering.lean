/-
**A program without passes carries out its source.**

Without passes, the text of a source is the source itself, up to the moves and additions that were
joined. So a run of the text and a reading of the source go side by side: the reading makes at least
as many steps, and is at every end of a loop where the run is.

* `Outcome.Mirrors`: what has become of a run has become of a reading;
* `mirrors_again`, `mirrors_loop`: loops, if their bodies do so;
* `Gathered`, `mirrors_written`: moves and additions that were joined;
* `Code.Spells`, `spelled_of_reached`: every code that symbols lead to carries them out;
* `means_of_balanced`: and so does the program of a source.
-/

import TapeMachine.Proofs.Language.Places
import TapeMachine.Proofs.Language.Reading
import TapeMachine.Proofs.Refinement.Optimized

namespace TapeMachine

/-! ### Runs and readings -/

/-- The run has the cells, the place of the head and the streams of the reading. -/
structure Reading.Shows (reading : Reading) (run : Run) : Prop where
  cells : reading.cells = run.machine.head.tape.get
  index : reading.index = run.machine.head.index
  terminal : reading.terminal = run.terminal

/-- The run, as a reading between some symbols. -/
def Run.reading (run : Run) (passed ahead : List Symbol) : Reading :=
  ⟨passed, ahead, run.machine.head.tape.get, run.machine.head.index, run.terminal⟩

/-- What has become of a run that was given a number of instructions has also become of a reading,
which has carried out at least one symbol for each of them; where the run comes to its end, the
reading is at `finish`. Only where an index leaves its range the reading goes on. -/
inductive Outcome.Mirrors (given : Nat) (start : Reading) (finish : Run → Reading) : Outcome → Prop where
  | finished {left count : Nat} {run : Run} (enough : given ≤ left + count)
      (reached : start.advance count = .running (finish run)) :
      Mirrors given start finish (.finished left run)
  | running {count : Nat} {run : Run} {last : Reading} (enough : given ≤ count)
      (reached : start.advance count = .running last) :
      Mirrors given start finish (.broken (.running run))
  | ended {ending : Ending} {run : Run} {last : Reading} (inside : ending ≠ .overflow)
      (ends : start.Ends ending last) (shows : last.Shows run) :
      Mirrors given start finish (.broken (.ended ending run))
  | overflow {count : Nat} {run : Run} {last : Reading}
      (reached : start.advance count = .running last) (outside : ¬ Tape.IsIndex last.index) :
      Mirrors given start finish (.broken (.ended .overflow run))

namespace Outcome

variable {given less : Nat} {start middle : Reading} {finish between : Run → Reading}
  {outcome : Outcome}

/-- What the reading did before. -/
theorem Mirrors.after {count : Nat} (mirrors : Mirrors less middle finish outcome)
    (reached : start.advance count = .running middle) (enough : given ≤ less + count) :
    Mirrors given start finish outcome := by
  cases mirrors with
  | finished early later =>
    exact .finished (by omega) ((Reading.advance_add reached _).trans later)
  | running early later => exact .running (by omega) ((Reading.advance_add reached _).trans later)
  | ended inside ends shows =>
    obtain ⟨more, ended⟩ := ends
    exact .ended inside ⟨count + more, (Reading.advance_add reached more).trans ended⟩ shows
  | overflow later outside => exact .overflow ((Reading.advance_add reached _).trans later) outside

theorem Mirrors.andThen {behavior : Behavior} (mirrors : Mirrors given start between outcome)
    (behind : ∀ left run, outcome = .finished left run →
      Mirrors left (between run) finish (behavior left run)) :
    Mirrors given start finish (outcome.andThen behavior) := by
  cases mirrors with
  | finished enough reached => exact (behind _ _ rfl).after reached enough
  | running enough reached => exact .running enough reached
  | ended inside ends shows => exact .ended inside ends shows
  | overflow reached outside => exact .overflow reached outside

theorem mirrors_waiting {run : Run} : Mirrors 0 start finish (.broken (.running run)) :=
  .running (Nat.le_refl 0) (show start.advance 0 = .running start from rfl)

end Outcome

namespace Behavior

/-- The behavior carries a reading along from one place to another. -/
def Mirrors (start finish : Run → Reading) (behavior : Behavior) : Prop :=
  ∀ left run, Outcome.Mirrors left (start run) finish (behavior left run)

theorem mirrors_skip (place : Run → Reading) : Mirrors place place skip :=
  fun _ run => .finished (Nat.le_refl _) (show (place run).advance 0 = .running (place run) from rfl)

theorem Mirrors.andThen {start between finish : Run → Reading} {first second : Behavior}
    (here : first.Mirrors start between) (there : second.Mirrors between finish) :
    (first.andThen second).Mirrors start finish :=
  fun left run => (here left run).andThen fun rest next _ => there rest next

/-! ### Input, output and the end -/

variable (passed ahead : List Symbol)

theorem mirrors_output : (act { opcode := .output }).Mirrors
    (·.reading passed (.write :: ahead)) (·.reading (.write :: passed) ahead) := by
  rintro (_ | left) ⟨⟨head, position, register, stack⟩, terminal⟩
  · exact Outcome.mirrors_waiting
  · have step {next : Terminal} {accepted : Bool} (emitted : terminal.emit head.read = (next, accepted)) :
        Reading.step ⟨passed, .write :: ahead, head.tape.get, head.index, terminal⟩ =
          if accepted then .running ⟨.write :: passed, ahead, head.tape.get, head.index, next⟩
          else .ended .streamFailure ⟨passed, .write :: ahead, head.tape.get, head.index, next⟩ := by
      rw [head.read_eq_get] at emitted
      cases accepted <;> simp only [Reading.step, emitted] <;> rfl
    simp only [act, Machine.step, Run.perform]
    rcases emitted : terminal.emit head.read with ⟨next, _ | _⟩
    · exact .ended (by decide) (Reading.ends_of_step (step emitted)) ⟨rfl, rfl, rfl⟩
    · exact .finished (Nat.le_refl _) (Reading.advance_one (step emitted))

theorem write_eq_get_write (head : Head) (value : UInt8) :
    Reading.write head.tape.get head.index value = (head.write value).tape.get := by
  funext cell
  let sight : Sight := { cells := head.tape.get, index := head.index }
  have written : (head.write value).tape.get cell = Sight.put sight.cells sight.index value cell :=
    Head.get_write (fun _ => rfl) rfl value cell
  exact written.symm

theorem mirrors_input : (act { opcode := .input }).Mirrors
    (·.reading passed (.read :: ahead)) (·.reading (.read :: passed) ahead) := by
  rintro (_ | left) ⟨⟨head, position, register, stack⟩, terminal⟩
  · exact Outcome.mirrors_waiting
  · simp only [act, Machine.step, Run.perform]
    rcases answered : terminal.read with ⟨next, byte | _ | _⟩
    · have stepped : Reading.step ⟨passed, .read :: ahead, head.tape.get, head.index, terminal⟩ =
          .running ⟨.read :: passed, ahead, (head.write byte).tape.get, head.index, next⟩ := by
        simp only [Reading.step, answered, write_eq_get_write]
      exact .finished (Nat.le_refl _) (Reading.advance_one stepped)
    · have stepped : Reading.step ⟨passed, .read :: ahead, head.tape.get, head.index, terminal⟩ =
          .running ⟨.read :: passed, ahead, head.tape.get, head.index, next⟩ := by
        simp only [Reading.step, answered]
      exact .finished (Nat.le_refl _) (Reading.advance_one stepped)
    · have stepped : Reading.step ⟨passed, .read :: ahead, head.tape.get, head.index, terminal⟩ =
          .ended .streamFailure ⟨passed, .read :: ahead, head.tape.get, head.index, next⟩ := by
        simp only [Reading.step, answered]
      exact .ended (by decide) (Reading.ends_of_step stepped) ⟨rfl, rfl, rfl⟩

theorem mirrors_stop (finish : Run → Reading) :
    (act .final).Mirrors (·.reading passed []) finish := by
  rintro (_ | left) ⟨⟨head, position, register, stack⟩, terminal⟩
  · exact Outcome.mirrors_waiting
  · have step {next : Terminal} {accepted : Bool} (flushed : terminal.flush = (next, accepted)) :
        Reading.step ⟨passed, [], head.tape.get, head.index, terminal⟩ =
          .ended (if accepted then .stopped else .streamFailure)
            ⟨passed, [], head.tape.get, head.index, next⟩ := by
      cases accepted <;> simp only [Reading.step, flushed] <;> rfl
    simp only [act, Instruction.final, Machine.step, Run.perform, Run.close]
    rcases flushed : terminal.flush with ⟨next, _ | _⟩
    all_goals exact .ended (by decide) (Reading.ends_of_step (step flushed)) ⟨rfl, rfl, rfl⟩

/-! ### Loops -/

section Loops

variable {inner : List Symbol} {body : Behavior} (paired : Paired inner) (spends : body.Spends)
  (inside : ∀ passed ahead, body.Mirrors (·.reading passed (inner ++ ahead))
    (·.reading (inner.reverse ++ passed) ahead))

include paired in
/-- At the end of a loop whose cell is not zero, the reading goes back to behind its beginning. -/
theorem step_closing {run : Run} (marked : run.cell ≠ 0) :
    (run.reading (inner.reverse ++ .opening :: passed) (.closing :: ahead)).step =
      .running (run.reading (.opening :: passed) (inner ++ .closing :: ahead)) := by
  have back : cross .closing .opening 0 (.closing :: ahead) (inner.reverse ++ .opening :: passed) =
      (inner ++ .closing :: ahead, .opening :: passed) :=
    (cross_back_of_paired paired ..).trans cross_partner
  rw [Run.cell_eq_get] at marked
  simp only [Run.reading, Reading.step, if_neg marked, back]

include paired in
/-- At the beginning of a loop whose cell is zero, the reading goes on behind its end. -/
theorem step_opening {run : Run} (zero : run.cell = 0) :
    (run.reading passed (.opening :: (inner ++ .closing :: ahead))).step =
      .running (run.reading (.closing :: (inner.reverse ++ .opening :: passed)) ahead) := by
  have across : cross .opening .closing 0 (.opening :: passed) (inner ++ .closing :: ahead) =
      (inner.reverse ++ .opening :: passed, .closing :: ahead) :=
    (cross_of_paired paired ..).trans cross_partner
  rw [Run.cell_eq_get] at zero
  simp only [Run.reading, Reading.step, if_pos zero, across]

include paired spends inside

/-- The induction is on the instructions that are left, which every turn spends. -/
theorem mirrors_again (start : Nat) : (again start body).Mirrors
    (·.reading (inner.reverse ++ .opening :: passed) (.closing :: ahead))
    (·.reading (.closing :: (inner.reverse ++ .opening :: passed)) ahead) := by
  intro left
  induction left using Nat.strongRecOn with
  | ind left ih =>
    intro run
    cases left with
    | zero => exact Outcome.mirrors_waiting
    | succ left =>
      rw [again_succ spends]
      split
      · next zero =>
        rw [Run.cell_eq_get] at zero
        have stepped : (run.reading (inner.reverse ++ .opening :: passed) (.closing :: ahead)).step =
            .running (run.reading (.closing :: (inner.reverse ++ .opening :: passed)) ahead) := by
          simp only [Run.reading, Reading.step, if_pos zero]
        exact .finished (Nat.le_refl _) (Reading.advance_one stepped)
      · next marked =>
        have back := Reading.advance_one (step_closing passed ahead paired marked)
        refine Outcome.Mirrors.after ?_ back (Nat.le_refl _)
        refine (inside (.opening :: passed) (.closing :: ahead) left (run.hop start)).andThen ?_
        intro rest next completed
        exact ih rest (Nat.lt_succ_of_le (spends _ _ _ _ completed)) next

theorem mirrors_loop (size : Nat) : (loop size body).Mirrors
    (·.reading passed (.opening :: (inner ++ .closing :: ahead)))
    (·.reading (.closing :: (inner.reverse ++ .opening :: passed)) ahead) := by
  intro left run
  cases left with
  | zero => exact Outcome.mirrors_waiting
  | succ left =>
    rw [loop_succ spends]
    split
    · next zero =>
      exact .finished (Nat.le_refl _) (Reading.advance_one (step_opening passed ahead paired zero))
    · next marked =>
      rw [Run.cell_eq_get] at marked
      have stepped : (run.reading passed (.opening :: (inner ++ .closing :: ahead))).step =
          .running (run.reading (.opening :: passed) (inner ++ .closing :: ahead)) := by
        simp only [Run.reading, Reading.step, if_neg marked]
      refine Outcome.Mirrors.after ?_ (Reading.advance_one stepped) (Nat.le_refl _)
      let start := run.machine.position + 1
      exact (inside (.opening :: passed) (.closing :: ahead)).andThen
        (mirrors_again passed ahead paired spends inside start) left (run.hop start)

end Loops

end Behavior

/-! ### Moves and additions -/

/-- The amounts of moves and additions, newest first, that were gathered from symbols. -/
inductive Gathered : List Symbol → List (Opcode × Int) → Prop where
  | nil : Gathered [] []
  | more {symbols : List Symbol} {symbol : Symbol} {pending : List (Opcode × Int)} {opcode : Opcode}
      {amount : Int} (before : Gathered symbols pending)
      (folds : symbol.folds? = some (opcode, amount)) :
      Gathered (symbols ++ [symbol]) (Code.amounts opcode amount pending)

namespace Gathered

variable {symbols : List Symbol} {pending : List (Opcode × Int)}

theorem paired (gathered : Gathered symbols pending) {before : List Symbol} (paired : Paired before) :
    Paired (before ++ symbols) := by
  induction gathered with
  | nil => rwa [List.append_nil]
  | more _ folds ih =>
    rw [← List.append_assoc]
    refine ih.symbol ?_ ?_ <;> rintro rfl <;> cases folds

theorem amounts (gathered : Gathered symbols pending) : Code.Amounts pending := by
  induction gathered with
  | nil => exact fun _ _ member => absurd member List.not_mem_nil
  | more _ folds ih =>
    obtain ⟨written, one⟩ := folds?_eq_some folds
    exact Code.amounts_amounts ih written (by omega)

end Gathered

namespace Code

theorem straight_written {pending : List (Opcode × Int)} (sound : Amounts pending) :
    (empty.written pending).Straight false := by
  induction pending with
  | nil => trivial
  | cons newest earlier ih =>
    obtain ⟨written, marked, others⟩ := amounts_cons sound
    refine ⟨ih others, straight_of_written written, .of_amount ?_ marked⟩
    rcases written with written | written <;> simp [written]

/-- One more amount does no more than it would on its own. -/
theorem sweep_amounts {opcode : Opcode} (written : opcode = .move ∨ opcode = .add) (amount : Int)
    (pending : List (Opcode × Int)) (sight : Sight) :
    ((empty.written (amounts opcode amount pending)).sweep true 0 sight).Improves
      (Instruction.sweep 0 { opcode := opcode, value := amount }
        ((empty.written pending).sweep true 0 sight)) := by
  cases pending with
  | nil => exact .refl _
  | cons newest earlier =>
    obtain ⟨kind, value⟩ := newest
    let last : Instruction := { opcode := kind, value := value }
    rw [amounts]
    split
    · next same =>
      replace same : last.opcode = opcode := same
      split
      · next gone => exact Instruction.sweep_cancelled same written gone _
      · exact Instruction.sweep_joined same written _
    · exact .refl _

end Code

/-- Carrying out a symbol that moves or adds. -/
theorem Symbol.step_of_folds {symbol : Symbol} {opcode : Opcode} {amount : Int}
    (folds : symbol.folds? = some (opcode, amount)) (passed ahead : List Symbol) (sight : Sight)
    (terminal : Terminal) :
    Reading.step ⟨passed, symbol :: ahead, sight.cells, sight.index, terminal⟩ =
      let next := Instruction.sweep 0 { opcode := opcode, value := amount } sight
      .running ⟨symbol :: passed, ahead, next.cells, next.index, terminal⟩ := by
  cases symbol with
  | decrement =>
    cases folds
    have less : sight.cell - 1 = sight.cell + UInt8.ofInt (-1) := by
      rw [UInt8.sub_eq_add_neg]
      rfl
    simp only [Instruction.sweep, ← less]
    rfl
  | right | left | increment => cases folds; rfl
  | write | read | opening | closing => cases folds

/-- What a reading does with symbols from which amounts were gathered is what the amounts do. -/
structure Gathered.Carries (symbols : List Symbol) (sight final : Sight) : Prop where
  cost : final.cost ≤ sight.cost + symbols.length
  reached : ∀ passed ahead terminal,
    Reading.advance symbols.length
        ⟨passed, symbols ++ ahead, sight.cells, sight.index, terminal⟩ =
      .running ⟨symbols.reverse ++ passed, ahead, final.cells, final.index, terminal⟩
  visited : ∀ cell ∈ final.visited, cell ∈ sight.visited ∨ ∀ passed ahead terminal, ∃ count last,
    Reading.advance count ⟨passed, symbols ++ ahead, sight.cells, sight.index, terminal⟩ =
      .running last ∧ last.index = cell

theorem Gathered.carries {symbols : List Symbol} {pending : List (Opcode × Int)}
    (gathered : Gathered symbols pending) (sight : Sight) :
    Gathered.Carries symbols sight ((Code.empty.written pending).sweep true 0 sight) := by
  induction gathered with
  | nil => exact ⟨Nat.le_refl _, fun _ _ _ => rfl, fun _ member => .inl member⟩
  | @more symbols symbol pending opcode amount before folds ih =>
    obtain ⟨cost, reached, visited⟩ := ih
    obtain ⟨written, -⟩ := folds?_eq_some folds
    have improves := Code.sweep_amounts written amount pending sight
    have straight : opcode.IsStraight false := Code.straight_of_written written
    have one := Instruction.cost_sweep
      (show ({ opcode := opcode, value := amount } : Instruction).opcode.IsStraight false from straight) 0
      ((Code.empty.written pending).sweep true 0 sight)
    have step := Symbol.step_of_folds folds
    generalize (Code.empty.written pending).sweep true 0 sight = between at *
    let after := Instruction.sweep 0 { opcode := opcode, value := amount } between
    have whole (passed ahead : List Symbol) (terminal : Terminal) :
        Reading.advance (symbols.length + 1)
            ⟨passed, symbols ++ [symbol] ++ ahead, sight.cells, sight.index, terminal⟩ =
          .running ⟨(symbols ++ [symbol]).reverse ++ passed, ahead, after.cells, after.index, terminal⟩ := by
      have early := reached passed (symbol :: ahead) terminal
      rw [List.append_assoc, List.singleton_append, Reading.advance_add early,
        Reading.advance_one (step _ _ _ _), List.reverse_concat, List.cons_append]
    refine ⟨?_, fun passed ahead terminal => ?_, fun cell member => ?_⟩
    · have cheap := improves.cost
      rw [List.length_append, List.length_singleton]
      omega
    · rw [improves.cells, improves.index, List.length_append, List.length_singleton]
      exact whole passed ahead terminal
    · have there := improves.visited cell member
      rw [Instruction.visited_sweep] at there
      rcases List.mem_append.mp there with new | old
      · refine .inr fun passed ahead terminal => ⟨_, _, whole passed ahead terminal, ?_⟩
        rcases written with rfl | rfl
        · exact (List.mem_singleton.mp new).symm
        · exact absurd new List.not_mem_nil
      · refine (visited cell old).imp_right fun passes passed ahead terminal => ?_
        rw [List.append_assoc]
        exact passes passed ([symbol] ++ ahead) terminal

/-- The amounts carry a reading along over the symbols they were gathered from. -/
theorem Behavior.mirrors_gathered {symbols : List Symbol} {pending : List (Opcode × Int)}
    (gathered : Gathered symbols pending) (passed ahead : List Symbol) :
    ((Code.empty.written pending).exec true).Mirrors (·.reading passed (symbols ++ ahead))
      (·.reading (symbols.reverse ++ passed) ahead) := by
  intro left run
  have reaches := Code.reaches_exec_self (Code.straight_written gathered.amounts) true run
  obtain ⟨cost, reached, visited⟩ := gathered.carries run.sight
  generalize (Code.empty.written pending).sweep true 0 run.sight = final at *
  rw [show run.sight.cost = 0 from rfl, Nat.zero_add] at cost
  by_cases completed : final.InRange ∧ final.cost ≤ left
  · obtain ⟨next, shows, terminal, -, -, done⟩ := reaches.completes completed.1
    obtain ⟨rest, rfl⟩ := Nat.exists_eq_add_of_le' completed.2
    rw [done]
    refine .finished (Nat.add_le_add_left cost rest) ((reached passed ahead run.terminal).trans ?_)
    rw [Run.reading, terminal, shows.index, funext shows.cells]
  · obtain ⟨last, -, ⟨short, broken⟩ | ⟨outside, broken⟩⟩ := reaches.breaks left completed
    · rw [broken]
      exact .running (by omega) (reached passed ahead run.terminal)
    · rw [broken]
      obtain ⟨cell, member, lost⟩ : ∃ cell ∈ final.visited, ¬ Tape.IsIndex cell := by
        simpa [Sight.InRange] using outside
      obtain ⟨count, state, passes, rfl⟩ :=
        (visited cell member).resolve_left List.not_mem_nil passed ahead run.terminal
      exact .overflow passes lost

/-! ### Codes -/

namespace Code

/-- The code carries a reading along over the symbols. -/
def Renders (code : Code) (symbols : List Symbol) : Prop :=
  ∀ passed ahead, (code.exec true).Mirrors (·.reading passed (symbols ++ ahead))
    (·.reading (symbols.reverse ++ passed) ahead)

/-- The code is a base that renders some of the symbols, with what was gathered from the others behind
it. -/
structure Spells (code : Code) (symbols : List Symbol) : Prop where
  paired : Paired symbols
  parts : ∃ (base : Code) (pending : List (Opcode × Int)) (early late : List Symbol),
    code = base.written pending ∧ symbols = early ++ late ∧ base.Apart ∧ base.Renders early ∧
      Gathered late pending

variable {code outer body : Code} {symbols before inner : List Symbol}

theorem written_eq_append (base : Code) (pending : List (Opcode × Int)) :
    base.written pending = base ++ empty.written pending := by
  induction pending with
  | nil => rfl
  | cons newest earlier ih => rw [written, ih, written, append_plain]

theorem Renders.behind {second : Code} {behind : List Symbol} (here : code.Renders symbols)
    (there : second.Renders behind) : (code ++ second).Renders (symbols ++ behind) := by
  intro passed ahead
  rw [exec_append, List.append_assoc, List.reverse_append, List.append_assoc]
  exact (here passed (behind ++ ahead)).andThen (there (symbols.reverse ++ passed) ahead)

theorem Spells.renders (spells : code.Spells symbols) : code.Renders symbols := by
  obtain ⟨base, pending, early, late, rfl, rfl, -, renders, gathered⟩ := spells.parts
  rw [written_eq_append]
  exact renders.behind (Behavior.mirrors_gathered gathered)

/-- What renders spells, as long as nothing joins what it ends in. -/
theorem spells_of_renders (paired : Paired symbols) (apart : code.Apart)
    (renders : code.Renders symbols) : code.Spells symbols :=
  ⟨paired, code, [], symbols, [], rfl, (List.append_nil _).symm, apart, renders, .nil⟩

theorem spells_empty : empty.Spells [] :=
  spells_of_renders .nil (fun _ _ => id) fun _ _ => Behavior.mirrors_skip _

theorem Spells.extend (spells : code.Spells symbols) {symbol : Symbol} {opcode : Opcode} {amount : Int}
    (folds : symbol.folds? = some (opcode, amount)) :
    (code.extend false opcode amount).Spells (symbols ++ [symbol]) := by
  obtain ⟨paired, base, pending, early, late, rfl, rfl, apart, renders, gathered⟩ := spells
  have single : Gathered [symbol] (amounts opcode amount []) := .more .nil folds
  refine ⟨single.paired paired, base, amounts opcode amount pending, early, late ++ [symbol], ?_,
    List.append_assoc .., apart, renders, .more gathered folds⟩
  exact extend_written apart (folds?_eq_some folds).1

/-- An instruction that nothing joins. -/
theorem Spells.plain (spells : code.Spells symbols) {symbol : Symbol} {instruction : Instruction}
    (opening : symbol ≠ .opening) (closing : symbol ≠ .closing)
    (joins : instruction.opcode ≠ .move ∧ instruction.opcode ≠ .add)
    (mirrors : ∀ passed ahead, (Behavior.act instruction).Mirrors
      (·.reading passed (symbol :: ahead)) (·.reading (symbol :: passed) ahead)) :
    (code.plain instruction).Spells (symbols ++ [symbol]) := by
  refine spells_of_renders (spells.paired.symbol opening closing) ?_ ?_
  · rintro kind written (same | ⟨never, -⟩)
    · rcases written with rfl | rfl
      · exact joins.1 same
      · exact joins.2 same
    · cases never
  · have single : (empty.plain instruction).Renders [symbol] := mirrors
    exact spells.renders.behind single

/-- A loop spells what its body spells, in brackets. -/
theorem Spells.loop (around : outer.Spells before) (inside : body.Spells inner) :
    (outer.loop body).Spells (before ++ (.opening :: inner ++ [.closing])) := by
  refine spells_of_renders (around.paired.loop inside.paired) (fun _ _ => id) ?_
  have single : (empty.loop body).Renders (.opening :: inner ++ [.closing]) := by
    intro passed ahead
    have looped := Behavior.mirrors_loop passed ahead inside.paired (body.spends_exec true)
      inside.renders (body.size true)
    simp only [List.cons_append, List.append_assoc, List.nil_append, List.reverse_cons,
      List.reverse_append, List.reverse_nil]
    exact looped
  exact around.renders.behind single

end Code

/-! ### Reading a source -/

/-- The codes around the open loops, innermost first, and the code that is being written spell the
symbols, with an opening bracket between any two. -/
def Spelled (symbols : List Symbol) : List Code → Code → Prop
  | [], code => code.Spells symbols
  | outer :: outers, code => ∃ before inner, symbols = before ++ .opening :: inner ∧
    code.Spells inner ∧ Spelled before outers outer

/-- What becomes of the code that is being written. -/
theorem Spelled.imp {symbols more : List Symbol} {outers : List Code} {code written : Code}
    (spelled : Spelled symbols outers code)
    (grows : ∀ inner, code.Spells inner → written.Spells (inner ++ more)) :
    Spelled (symbols ++ more) outers written := by
  cases outers with
  | nil => exact grows symbols spelled
  | cons outer outers =>
    obtain ⟨before, inner, rfl, inside, around⟩ := spelled
    exact ⟨before, inner ++ more, List.append_assoc .., grows inner inside, around⟩

/-- Every code that symbols lead to without passes spells them. -/
theorem spelled_of_reached {may : Code → Prop} {symbols : List Symbol} {outers : List Code} {code : Code}
    (reached : Reached Passes.none may symbols outers code) : Spelled symbols outers code := by
  induction reached with
  | start => exact Code.spells_empty
  | step before takes ih =>
    cases takes with
    | fold folds => exact ih.imp fun inner spells => spells.extend folds
    | write =>
      exact ih.imp fun inner spells => spells.plain (by decide) (by decide) (by decide)
        Behavior.mirrors_output
    | read =>
      exact ih.imp fun inner spells => spells.plain (by decide) (by decide) (by decide)
        Behavior.mirrors_input
    | opening => exact ⟨_, [], rfl, Code.spells_empty, ih⟩
    | closing closes =>
      rw [eq_loop_of_closes closes]
      obtain ⟨early, inner, rfl, inside, around⟩ := ih
      rw [List.append_assoc]
      exact around.imp fun _ spells => spells.loop inside

/-! ### Finished texts -/

/-- From every tape and terminal: where the program without passes ends, other than by an index out of
range, the reading of its source ends in the same way, with the same streams, cells and place of the
head; where the reading ends the program does too; and an index leaves its range only where the head of
the reading does. -/
def Source.Means (source : Source) : Prop :=
  ∃ raw, assemble Passes.none source = .ok raw ∧ ∀ (tape : Tape) (terminal : Terminal),
    let run : Run := ⟨Machine.onTape tape, terminal⟩
    let reading := Reading.start source tape.get terminal
    (∀ ending last, Run.Ends raw.text run ending last → ending ≠ .overflow →
      ∃ final, reading.Ends ending final ∧ final.Shows last) ∧
    (∀ ending final, reading.Ends ending final → ∃ how last, Run.Ends raw.text run how last ∧
      (how ≠ .overflow → how = ending ∧ final.Shows last)) ∧
    ∀ last, Run.Ends raw.text run .overflow last →
      ∃ count between, reading.advance count = .running between ∧ ¬ Tape.IsIndex between.index

/-- **A program without passes is what its source means.** -/
theorem means_of_balanced {source : Source} (balanced : source.Balanced)
    (short : source.length < 0x80000000) : source.Means := by
  obtain ⟨raw, assembled⟩ := assemble_of_balanced balanced short Passes.none
  obtain ⟨code, reached, written⟩ := code_of_assembled assembled
  have spells : code.Spells source.symbols := spelled_of_reached reached
  refine ⟨raw, assembled, fun tape terminal => ?_⟩
  intro run reading
  have mirrors (count : Nat) : Outcome.Mirrors count reading (·.reading [] [])
      (.broken (Run.advance raw.text count run)) := by
    have whole : ((code.plain .final).exec false).Mirrors (·.reading [] (source.symbols ++ []))
        (·.reading [] []) := by
      rw [Code.exec, Code.exec_of_unfused reached.unfused.1]
      exact (spells.renders [] []).andThen (Behavior.mirrors_stop _ _)
    have begun : run.reading [] (source.symbols ++ []) = reading := by
      rw [List.append_nil, symbols_eq_filterMap]
      exact congrArg (Reading.mk [] _ · 0 terminal) (funext fun cell => Tape.get_reserve tape 0 cell)
    rw [← Code.advance_finished (Code.unlinked_of_proper reached.proper.1) written
      (size_lt_of_reached short reached written) rfl, ← begun]
    exact whole count run
  refine ⟨?_, ?_, ?_⟩
  · rintro ending last ⟨count, ended⟩ inside
    have mirrored := mirrors count
    rw [ended] at mirrored
    cases mirrored with
    | ended _ ends shows => exact ⟨_, ends, shows⟩
    | overflow => exact (inside rfl).elim
  · rintro ending final ⟨count, ended⟩
    have mirrored := mirrors count
    cases outcome : Run.advance raw.text count run with
    | running last =>
      rw [outcome] at mirrored
      cases mirrored with
      | running enough reached =>
        exact absurd (Reading.lt_of_running ended reached) (Nat.not_lt.mpr enough)
    | stuck last =>
      rw [outcome] at mirrored
      cases mirrored
    | ended how last =>
      refine ⟨how, last, ⟨count, outcome⟩, fun inside => ?_⟩
      rw [outcome] at mirrored
      cases mirrored with
      | overflow => exact (inside rfl).elim
      | ended _ ends shows =>
        obtain ⟨rfl, rfl⟩ := Reading.ends_unique ends ⟨count, ended⟩
        exact ⟨rfl, shows⟩
  · rintro last ⟨count, ended⟩
    have mirrored := mirrors count
    rw [ended] at mirrored
    cases mirrored with
    | ended inside => exact (inside rfl).elim
    | overflow reached outside => exact ⟨_, _, reached, outside⟩

/-- Joined moves and additions, a comment, and a loop in a loop. -/
theorem nested_source_means :
    let source : Source := ['+', '+', '[', 'x', '>', '+', '-', '+', '[', '-', '>', '>', '<', '.', ']',
      '<', '-', ']', ','].map Char.toUInt8
    source.Balanced ∧ source.length < 0x80000000 ∧ source.Means := by
  intro source
  have balanced : source.Balanced := by decide +kernel
  have short : source.length < 0x80000000 := by decide
  exact ⟨balanced, short, means_of_balanced balanced short⟩

end TapeMachine
