/-
**What optimized programs do.**

A source is assembled once without passes and once with them, and both texts run from the same tape
and terminal.

* `advance_refines_of_reached`: the run with passes is as good as the one without, at every number of
  instructions, as long as every body that is fused lasts;
* `Code.Unassigned`: without resets there are no constants either, so every body lasts;
* `stepwise_refines_of_apart`: whatever passes are asked for, unless both resets and products are;
* `Draft.Lasts`: every loop that is fused while a source is read lasts;
* `optimized_agrees_of_lasts`: so for these sources, all choices of passes agree with no passes;
* `fused_assignments_disagree`: a source with a loop that does not last, where they do not agree.
-/

import TapeMachine.Proofs.Assembly.Faultless
import TapeMachine.Proofs.Counted.Survey
import TapeMachine.Proofs.Refinement.Program

namespace TapeMachine

/-! ### Two runs of one source -/

theorem begins_onTape {tape : Tape} {clear : Bool} (zero : clear = true → tape.get 0 = 0)
    (terminal : Terminal) : Run.Begins clear ⟨Machine.onTape tape, terminal⟩ := by
  intro begins
  exact (Run.cell_eq_get _).trans ((Tape.get_reserve tape 0 0).trans (zero begins))

section Assembled

variable {source : Source} (short : source.length < 0x80000000) {passes : Passes} {may : Code → Prop}
  {code : Code} (reached : Reached passes may source.symbols [] code) {text : Text}
  (written : text.toList = code.emit false 0 ++ [.final])

include reached written

theorem size_le_of_reached : text.size ≤ source.length + 1 := by
  have dropped := code.size_dropped_le
  have length := reached.length_le
  have tokens := length_tokens_le source
  have size : text.size = code.size false + 1 := by
    rw [← Array.length_toList, written, List.length_append, Code.length_emit, List.length_singleton]
  rw [length_layout] at length
  simp only [preamble, List.length_nil, Source.symbols, List.length_map, Array.length_toList] at length
  omega

include short

theorem size_lt_of_reached : text.size < positionLimit := by
  have size := size_le_of_reached reached written
  unfold positionLimit
  omega

/-- **The run with passes is as good as the one without**, if every body that is fused lasts. -/
theorem advance_refines_of_reached
    (lasts : ∀ body, may body → body.Straight false → ∀ cell, body.Lasts cell) {every : Code → Prop}
    {model : Code} (modeled : Reached Passes.none every source.symbols [] model) {raw : Text}
    (writtenRaw : raw.toList = model.emit false 0 ++ [.final]) {tape : Tape}
    (zero : passes .commentBlock = true → tape.get 0 = 0) (terminal : Terminal) (count : Nat) :
    (Run.advance text count ⟨Machine.onTape tape, terminal⟩).Refines
      (Run.advance raw count ⟨Machine.onTape tape, terminal⟩) :=
  Code.advance_refines (refines_of_reached lasts modeled reached)
    (Code.unlinked_of_proper modeled.proper.1) (Code.unlinked_of_proper reached.proper.1) writtenRaw
    written (size_lt_of_reached short modeled writtenRaw) (size_lt_of_reached short reached written)
    (begins_onTape zero terminal) (.refl _) rfl rfl count

end Assembled

/-! ### Passes without resets or without products -/

/-- No instruction assigns to a cell. -/
def Code.Unassigned : Code → Prop
  | .empty => True
  | .plain before instruction =>
    before.Unassigned ∧ instruction.opcode ≠ .set ∧ instruction.opcode ≠ .reset
  | .loop before body => before.Unassigned ∧ body.Unassigned
  | .region before _ body => before.Unassigned ∧ body.Unassigned

namespace Code

/-- Where nothing is assigned, everything lasts. -/
theorem lasts_of_unassigned {code : Code} (unassigned : code.Unassigned) (cell : Int) :
    code.Lasts cell := by
  have never {code : Code} (unassigned : code.Unassigned) (cell : Int) (value : UInt8) :
      ¬ code.Assigns cell value := by
    induction code generalizing cell with
    | empty => exact id
    | plain before instruction ih =>
      rintro (early | ⟨set, -⟩ | ⟨reset, -⟩)
      · exact ih unassigned.1 cell early
      · exact unassigned.2.1 set
      · exact unassigned.2.2 reset
    | loop before body ihBefore _ => exact ihBefore unassigned.1 cell
    | region before fast body ihBefore ihBody =>
      rintro (early | late)
      · exact ihBefore unassigned.1 cell early
      · exact ihBody unassigned.2 _ late
  induction code with
  | empty => trivial
  | plain before instruction ih => exact .inr (ih unassigned.1)
  | loop before body ihBefore _ => exact ihBefore unassigned.1
  | region before fast body ihBefore _ =>
    exact ⟨ihBefore unassigned.1, fun _ _ other assigned =>
      (never unassigned.2 _ other assigned).elim⟩

theorem unassigned_append {first second : Code} (here : first.Unassigned)
    (there : second.Unassigned) : (first ++ second).Unassigned := by
  induction second with
  | empty => exact here
  | plain before instruction ih => exact ⟨ih there.1, there.2⟩
  | loop before body ihBefore _ => exact ⟨ihBefore there.1, there.2⟩
  | region before fast body ihBefore _ => exact ⟨ihBefore there.1, there.2⟩

theorem unassigned_extend {code : Code} (unassigned : code.Unassigned) {opcode : Opcode}
    (written : opcode = .move ∨ opcode = .add) (folding : Bool) (amount : Int) :
    (code.extend folding opcode amount).Unassigned := by
  have other : opcode ≠ .set ∧ opcode ≠ .reset := by rcases written with rfl | rfl <;> simp
  cases code with
  | plain before last =>
    rw [extend]
    split
    · split
      · exact unassigned.1
      · exact unassigned
    · split
      · next set => exact (unassigned.2.1 set.2.2).elim
      · split
        · next reset => exact (unassigned.2.2 reset.2.2.1).elim
        · exact ⟨unassigned, other⟩
  | empty | loop before body | region before fast body => exact ⟨unassigned, other⟩

theorem unassigned_moveTo {woven : Woven} (unassigned : woven.code.Unassigned) (target : Int) :
    (woven.moveTo target).code.Unassigned := by
  unfold Woven.moveTo
  split
  · exact unassigned
  · exact ⟨unassigned, nofun, nofun⟩

theorem unassigned_weave {inner : Bool} {code : Code} (straight : code.Straight inner)
    (unassigned : code.Unassigned) : code.weave.code.Unassigned := by
  induction code generalizing inner with
  | empty => trivial
  | plain before instruction ih =>
    have early := ih straight.1 unassigned.1
    rcases weave_plain_cases straight.2.1 with same | ⟨target, -, same⟩ | ⟨-, same⟩
    · rw [same]
      exact early
    · rw [same]
      exact ⟨early, nofun, nofun⟩
    · rw [same]
      exact ⟨unassigned_moveTo early _, unassigned.2⟩
  | loop before body _ _ => exact straight.elim
  | region before fast body ihBefore ihBody =>
    exact ⟨unassigned_moveTo (ihBefore straight.1 unassigned.1) _,
      unassigned_moveTo (ihBody straight.2.2.2.1 unassigned.2) _⟩

theorem unassigned_fuse {body : Code} (counted : body.Counted) (unassigned : body.Unassigned) :
    body.fuse.Unassigned := by
  rcases body.fuse_cases with ⟨product, -, -, same⟩ | ⟨-, same⟩
  · rw [same]
    exact ⟨trivial, nofun, nofun⟩
  · rw [same]
    exact ⟨trivial, unassigned_moveTo (unassigned_weave counted.straight unassigned) _⟩

end Code

section Apart

variable {passes : Passes} {may : Code → Prop}

theorem unassigned_of_closes {outermost : Bool} {outer body code : Code}
    (disabled : passes .reset = false) (closes : Closes passes may outermost outer body code)
    (around : outer.Unassigned) (inside : body.Unassigned) : code.Unassigned := by
  have never (enabled : passes .reset = true) : False := by
    rw [disabled] at enabled
    cases enabled
  cases closes with
  | kept => exact ⟨around, inside⟩
  | first | dead | emptied => exact around
  | again enabled | wider enabled | cleared enabled => exact (never enabled).elim
  | sought => exact ⟨around, nofun, nofun⟩
  | fused enabled counted =>
    exact Code.unassigned_append around (Code.unassigned_fuse counted inside)

theorem Closes.imp {other : Code → Prop} {outermost : Bool} {outer body code : Code}
    (closes : Closes passes may outermost outer body code)
    (allowed : passes .multiplication = true → may body → other body) :
    Closes passes other outermost outer body code := by
  cases closes with
  | kept spared => exact .kept spared
  | first enabled top start => exact .first enabled top start
  | dead enabled zero => exact .dead enabled zero
  | again enabled sole odd behind opcode single => exact .again enabled sole odd behind opcode single
  | wider enabled sole odd behind opcode moves near stride =>
    exact .wider enabled sole odd behind opcode moves near stride
  | cleared enabled sole odd => exact .cleared enabled sole odd
  | sought enabled sole opcode => exact .sought enabled sole opcode
  | fused enabled counted fusible => exact .fused enabled counted (allowed enabled fusible)
  | emptied enabled nothing => exact .emptied enabled nothing

theorem Takes.imp {other : Code → Prop} {symbol : Symbol} {outers around : List Code}
    {code written : Code} (takes : Takes passes may symbol outers code around written)
    (allowed : passes .multiplication = true → may code → other code) :
    Takes passes other symbol outers code around written := by
  cases takes with
  | fold folds => exact .fold folds
  | write => exact .write
  | read => exact .read
  | opening => exact .opening
  | closing closes => exact .closing (closes.imp allowed)

/-- Without resets nothing is ever assigned. -/
theorem Reached.unassigned (disabled : passes .reset = false) {symbols : List Symbol}
    {outers : List Code} {code : Code} (reached : Reached passes may symbols outers code) :
    code.Unassigned ∧ ∀ outer ∈ outers, outer.Unassigned := by
  refine reached.invariant trivial ?_ ?_ ?_
  · exact fun code opcode amount written _ unassigned => Code.unassigned_extend unassigned written _ _
  · intro code opcode plain unassigned
    rcases plain with rfl | rfl <;> exact ⟨unassigned, nofun, nofun⟩
  · exact fun outermost outer body code closes around inside =>
      unassigned_of_closes disabled closes around inside

/-- Without resets or without products, everything that is fused lasts. -/
theorem Reached.lasting (apart : ¬ (passes .reset = true ∧ passes .multiplication = true))
    {symbols : List Symbol} {outers : List Code} {code : Code}
    (reached : Reached passes may symbols outers code) :
    Reached passes (fun body => ∀ cell, body.Lasts cell) symbols outers code := by
  induction reached with
  | start => exact .start
  | step before takes ih =>
    refine ih.step (takes.imp fun enabled _ cell => ?_)
    have disabled : passes .reset = false := Bool.eq_false_iff.mpr fun both => apart ⟨both, enabled⟩
    exact Code.lasts_of_unassigned (before.unassigned disabled).1 cell

end Apart

/-- From every tape, on which the first cell is zero if comment blocks are deleted, and every terminal:
whatever number of instructions the program without passes has done, the program with passes has made
at least the same calls on the streams within as many, and if the first has ended, other than by an
index out of range, the other has ended in the same way, with the same streams, cells and place of the
head, and no more pages. -/
def Source.RefinesStepwise (source : Source) (passes : Passes) : Prop :=
  ∃ raw optimized, assemble Passes.none source = .ok raw ∧
    assemble passes source = .ok optimized ∧
      ∀ (tape : Tape) (terminal : Terminal), (passes .commentBlock = true → tape.get 0 = 0) →
        ∀ count,
          let run : Run := ⟨Machine.onTape tape, terminal⟩
          (Run.advance raw.text count run).run.calls <+:
              (Run.advance optimized.text count run).run.calls ∧
            ∀ ending last, Run.advance raw.text count run = .ended ending last →
              ending ≠ .overflow →
                ∃ other, Run.advance optimized.text count run = .ended ending other ∧
                  other.terminal = last.terminal ∧
                  other.machine.head.index = last.machine.head.index ∧
                  (∀ cell, other.machine.head.tape.get cell = last.machine.head.tape.get cell) ∧
                  other.machine.head.tape.pages ≤ last.machine.head.tape.pages

/-- **Step by step refinement**, of every source with all brackets paired and by any choice of passes
that does not have both resets and products. -/
theorem stepwise_refines_of_apart {source : Source} (balanced : source.Balanced)
    (short : source.length < 0x80000000) {passes : Passes}
    (apart : ¬ (passes .reset = true ∧ passes .multiplication = true)) :
    source.RefinesStepwise passes := by
  obtain ⟨raw, assembledRaw⟩ := assemble_of_balanced balanced short Passes.none
  obtain ⟨optimized, assembled⟩ := assemble_of_balanced balanced short passes
  obtain ⟨model, modeled, writtenRaw⟩ := code_of_assembled assembledRaw
  obtain ⟨code, reached, written⟩ := code_of_assembled assembled
  refine ⟨raw, optimized, assembledRaw, assembled, fun tape terminal zero count => ?_⟩
  obtain ⟨calls, ends⟩ := advance_refines_of_reached short (reached.lasting apart) written
    (fun _ lasts _ => lasts) modeled writtenRaw zero terminal count
  refine ⟨calls, fun ending last ended proper => ?_⟩
  obtain ⟨other, done, resembles⟩ := ends ending last ended proper
  exact ⟨other, done, resembles.terminal, resembles.index, resembles.cells,
    Tape.pages_le_of_within resembles.within⟩

/-- The products of a source that clears no cell. -/
theorem nested_products_refine_stepwise :
    let source : Source := ['+', '+', '[', '-', '>', '+', '+', '[', '-', '>', '+', '<', ']', '<', ']',
      '>', '>', '.'].map Char.toUInt8
    let passes := Passes.ofList [.commentBlock, .multiplication, .setFolding]
    source.Balanced ∧ source.length < 0x80000000 ∧
      ¬ (passes .reset = true ∧ passes .multiplication = true) ∧ source.RefinesStepwise passes := by
  intro source passes
  have balanced : source.Balanced := by decide +kernel
  have short : source.length < 0x80000000 := by decide
  have apart : ¬ (passes .reset = true ∧ passes .multiplication = true) := by decide
  exact ⟨balanced, short, apart, stepwise_refines_of_apart balanced short apart⟩

/-! ### All choices of passes -/

/-- Every loop that is fused while the tokens are taken in lasts. -/
def Draft.Lasts (passes : Passes) : List Token → Draft → Prop
  | [], _ => True
  | token :: rest, draft =>
    (token.symbol = .closing → ∀ fused ∈ draft.fusing passes, Loop.Lasting fused.1 fused.2) ∧
      ∀ next ∈ (draft.take passes token).toOption, Lasts passes rest next

instance decidableLasts (passes : Passes) :
    (tokens : List Token) → (draft : Draft) → Decidable (draft.Lasts passes tokens)
  | [], _ => isTrue trivial
  | _ :: rest, _ =>
    have := decidableLasts passes rest
    inferInstanceAs (Decidable (_ ∧ _))

/-- Every loop that is fused while the source is assembled lasts. -/
def Source.Lasts (source : Source) (passes : Passes) : Prop :=
  Draft.empty.Lasts passes (scan source).tokens.toList

instance (source : Source) (passes : Passes) : Decidable (source.Lasts passes) :=
  decidableLasts passes _ _

theorem lasting_of_lasts {passes : Passes} {read unread : List Token} {token : Token}
    {draft reading : Draft} (lasts : draft.Lasts passes (read ++ token :: unread))
    (taken : read.foldlM (Draft.take passes) draft = .ok reading) (closes : token.symbol = .closing)
    {closed : Text} {start : Nat} (fusing : reading.fusing passes = some (closed, start)) :
    Loop.Lasting closed start := by
  induction read generalizing draft with
  | nil =>
    obtain rfl := pure_eq_ok.mp taken
    exact lasts.1 closes _ fusing
  | cons first read ih =>
    rw [List.foldlM_cons, bind_eq_ok] at taken
    obtain ⟨next, same, rest⟩ := taken
    exact ih (lasts.2 next (by rw [same]; rfl)) rest

/-- The program of the source with passes does on a fresh tape what the program without passes does:
where that ends, other than by an index out of range, it ends in the same way and no later, with the
same calls on the streams, the same data pointer and the same cells. -/
def Source.Agrees (source : Source) (passes : Passes) (terminal : Terminal) : Prop :=
  ∃ raw optimized, Program.ofSource Passes.none source = .ok raw ∧
    Program.ofSource passes source = .ok optimized ∧
      ∀ patience ending last, (raw.run none patience terminal).2 = .ended ending last →
        ending ≠ .overflow →
          ∃ other, (optimized.run none patience terminal).2 = .ended ending other ∧
            other.terminal = last.terminal ∧
            (optimized.run none patience terminal).1.dataPointer =
              (raw.run none patience terminal).1.dataPointer ∧
            ∀ cell, (optimized.run none patience terminal).1.tape.get cell =
              (raw.run none patience terminal).1.tape.get cell

/-- **Optimized programs agree with plain ones**, whichever passes are asked for, if all brackets are
paired and every loop that is fused lasts. -/
theorem optimized_agrees_of_lasts {source : Source} (balanced : source.Balanced)
    (short : source.length < 0x80000000) {passes : Passes} (lasts : source.Lasts passes)
    (terminal : Terminal) : source.Agrees passes terminal := by
  obtain ⟨raw, assembledRaw⟩ := assemble_of_balanced balanced short Passes.none
  obtain ⟨optimized, assembled⟩ := assemble_of_balanced balanced short passes
  obtain ⟨model, modeled, writtenRaw⟩ := code_of_assembled assembledRaw
  have codes : ∃ code,
      Reached passes (fun body => body.Straight false → ∀ cell, body.Lasts cell) source.symbols []
        code ∧ optimized.text.toList = code.emit false 0 ++ [.final] := by
    refine code_of_assemble assembled ?_
    intro read token unread reading closed start outers outer code parts closes taken fusing shape
      straight
    have whole : Draft.empty.Lasts passes (read ++ token :: unread) := parts ▸ lasts
    exact shape.lasts_of_lasting straight (lasting_of_lasts whole taken closes fusing)
  obtain ⟨code, reached, written⟩ := codes
  refine ⟨Program.ofText raw.text, Program.ofText optimized.text, ?_, ?_, ?_⟩
  · rw [Program.ofSource, assembledRaw]
  · rw [Program.ofSource, assembled]
  · intro patience ending last ended proper
    have zero : passes .commentBlock = true → Tape.blank.get 0 = 0 := fun _ => Tape.get_blank 0
    have refines := advance_refines_of_reached short reached written (fun _ may straight => may straight)
      modeled writtenRaw zero terminal patience
    obtain ⟨other, done, resembles⟩ := refines.ends ending last ended proper
    have after {text : Text} {last : Run} (ended : ((Program.ofText text).run none patience terminal).2 =
        .ended ending last) : ((Program.ofText text).run none patience terminal).1 =
          (Program.ofText text).after (.ended ending last) := congrArg (Program.after _) ended
    refine ⟨other, done, resembles.terminal, ?_⟩
    rw [after ended, after done, Program.dataPointer_after_ended, Program.dataPointer_after_ended,
      resembles.index]
    exact ⟨rfl, resembles.cells⟩

/-- A constant inside of a counted loop, which is made once instead of in every turn. -/
theorem repeated_constant_agrees :
    let source : Source := ['+', '+', '[', '-', '>', '[', '-', ']', '+', '<', ']', '>', '.'].map
      Char.toUInt8
    source.Balanced ∧ source.length < 0x80000000 ∧ source.Lasts Passes.all ∧
      source.Agrees Passes.all {} := by
  intro source
  have balanced : source.Balanced := by decide +kernel
  have short : source.length < 0x80000000 := by decide
  have lasts : source.Lasts Passes.all := by decide +kernel
  exact ⟨balanced, short, lasts, optimized_agrees_of_lasts balanced short lasts {}⟩

/-! ### A loop that does not last -/

/-- The run that came to its `stop`. -/
def Progress.stopped? : Progress → Option Run
  | .ended .stopped run => some run
  | _ => none

theorem stopped?_eq_some {progress : Progress} {run : Run}
    (stopped : progress.stopped? = some run) : progress = .ended .stopped run := by
  unfold Progress.stopped? at stopped
  split at stopped
  · cases stopped
    rfl
  · cases stopped

/-- The loop gives a cell the value one outside of a nested region and clears it inside of one, which
is entered in the first turn only. Every turn gives the cell its value again, but done once, the
region has the last word. -/
theorem fused_assignments_disagree :
    let source : Source := ['+', '+', '>', '>', '+', '<', '<', '[', '-', '>', '[', '-', ']', '+', '>',
      '[', '-', '<', '[', '-', ']', '>', ']', '<', '<', ']'].map Char.toUInt8
    source.Balanced ∧ source.length < 0x80000000 ∧ ¬ source.Lasts Passes.all ∧
      ¬ source.Agrees Passes.all {} := by
  intro source
  have plain : ((Program.ofSource Passes.none source).toOption.bind fun program =>
      (program.run none 99 {}).2.stopped?.map fun _ => (program.run none 99 {}).1.tape.get 1) =
        some 1 := by decide +kernel
  have improved : ((Program.ofSource Passes.all source).toOption.bind fun program =>
      (program.run none 99 {}).2.stopped?.map fun _ => (program.run none 99 {}).1.tape.get 1) =
        some 0 := by decide +kernel
  refine ⟨by decide +kernel, by decide, by decide +kernel, ?_⟩
  rintro ⟨raw, optimized, ofRaw, ofOptimized, agrees⟩
  simp only [ofRaw, ofOptimized, Except.toOption, Option.bind_some, Option.map_eq_some_iff]
    at plain improved
  obtain ⟨last, stopped, one⟩ := plain
  obtain ⟨-, -, zero⟩ := improved
  obtain ⟨-, -, -, -, cells⟩ := agrees 99 .stopped last (stopped?_eq_some stopped) (by decide)
  have same := cells 1
  rw [zero, one] at same
  cases same

end TapeMachine
