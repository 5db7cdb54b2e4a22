/-
**What ends with passes ends without.**

Passes that replace a loop know that the loop comes to its end. Only the pass that leaves out loops
without a body may turn a run that goes on for ever into one that ends.

* `Behavior.Reflects`: the worse behavior halts where the better one does;
* `Reflects.andThen`, `Reflects.loop`: what reflects, and refines, can be put in sequence and into loops;
* `Code.halts_of_closes`: every way to close a loop, but that of empty loops, reflects;
* `Code.reflects_dropped`: so does leaving out the idle ends of regions;
* `reflects_of_reached`: and so does the whole code;
* `endings_reflected_of_apart`: a program without passes ends where the one with passes does.
-/

import TapeMachine.Proofs.Refinement.Halting
import TapeMachine.Proofs.Refinement.Optimized

namespace TapeMachine

/-! ### Behaviors -/

namespace Behavior

/-- From runs that resemble each other, the worse behavior halts if the better one does. -/
def Reflects (clear : Bool) (better worse : Behavior) : Prop :=
  ∀ run other, run.Begins clear → other.Resembles run → better.Halts other → worse.Halts run

variable {clear : Bool} {better between worse : Behavior}

theorem reflects_of_halts (always : ∀ run, worse.Halts run) : Reflects clear better worse :=
  fun run _ _ _ _ => always run

theorem Reflects.trans (here : Reflects clear better between)
    (there : Reflects clear between worse) : Reflects clear better worse :=
  fun run other begins resembles halts =>
    there run other begins resembles (here other other (resembles.begins begins) (.refl other) halts)

theorem Reflects.andThen {first second : Behavior} (reflects : Reflects clear better worse)
    (refines : Refines clear better worse) (behind : Reflects false first second)
    (steady : better.Steady) (one : worse.Steady) (two : second.Steady) :
    Reflects clear (better.andThen first) (worse.andThen second) := by
  intro run other begins resembles halts
  have here : worse.Halts run := reflects run other begins resembles halts.left
  refine halts_andThen one two here fun left rest next completed => ?_
  have refined := refines left left run other begins (Nat.le_refl _) resembles
  obtain ⟨more, last, done, -, resembled⟩ := refined.finishes rest next completed
  exact behind next last (fun never => absurd never Bool.false_ne_true) resembled
    (halts.right steady done)

section Loops

variable (inner : Reflects false better worse) (refines : Refines false better worse)
  (fewer : better.Spends) (spends : worse.Spends) (steady : better.Steady) (one : worse.Steady)

include inner refines fewer spends steady one

/-- The induction is on the instructions with which the better loop halts, which every turn spends. -/
theorem Reflects.again (start begun : Nat) :
    Reflects false (Behavior.again start better) (Behavior.again begun worse) := by
  rintro run other - resembles ⟨left, settled⟩
  induction left using Nat.strongRecOn generalizing run other with
  | ind left ih =>
    by_cases zero : run.cell = 0
    · exact halts_again_of_zero spends zero
    · cases left with
      | zero => exact settled.elim
      | succ left =>
        rw [again_succ fewer, resembles.cell, if_neg zero] at settled
        have turn : (better.andThen (Behavior.again start better)).Halts (other.hop start) :=
          ⟨left, settled⟩
        have hopped := resembles.hop start begun
        refine halts_again_of_turn spends (halts_andThen one (steady_again spends one) ?_ ?_)
        · exact inner _ _ (fun never => absurd never Bool.false_ne_true) hopped turn.left
        · intro many rest next completed
          have refined := refines many many _ _ (fun never => absurd never Bool.false_ne_true)
            (Nat.le_refl _) hopped
          obtain ⟨more, last, done, -, resembled⟩ := refined.finishes rest next completed
          simp only [Behavior.andThen] at settled
          cases outcome : better left (other.hop start) with
          | broken progress =>
            rw [outcome] at settled
            obtain ⟨_, same⟩ := steady.unique done outcome settled
            cases same
          | finished spare final =>
            rw [outcome] at settled
            obtain ⟨_, same⟩ := steady.unique done outcome trivial
            cases same
            have spent := fewer _ _ _ _ outcome
            exact ih spare (Nat.lt_succ_of_le spent) next last resembled settled

theorem Reflects.loop (size many : Nat) :
    Reflects clear (Behavior.loop size better) (Behavior.loop many worse) := by
  rintro run other - resembles ⟨left, settled⟩
  by_cases zero : run.cell = 0
  · exact halts_loop_of_zero spends zero
  · refine halts_loop spends fun begun => ?_
    rw [loop_eq_again fewer (resembles.cell ▸ zero)] at settled
    exact Reflects.again inner refines fewer spends steady one _ begun run other
      (fun never => absurd never Bool.false_ne_true) resembles ⟨left, settled⟩

end Loops

end Behavior

/-! ### Closing loops -/

namespace Code

variable {clear folding : Bool} {outer body code : Code} {run : Run}

/-- A move or an addition makes no difference, whether it joins or not. -/
theorem halts_extend_iff (proper : code.Proper) {opcode : Opcode} {amount : Int}
    (written : opcode = .move ∨ opcode = .add) (marked : amount ≠ 0) :
    ((code.extend folding opcode amount).exec true).Halts run ↔ (code.exec true).Halts run := by
  have extended : (code.extend folding opcode amount).Proper := proper_extend proper written marked
  cases code with
  | plain before last =>
    have early : ((before.plain last).exec true).Halts run ↔ (before.exec true).Halts run :=
      halts_plain_iff proper true
    have replaced {other : Instruction} (proper : (before.plain other).Proper) :
        ((before.plain other).exec true).Halts run ↔ ((before.plain last).exec true).Halts run :=
      (halts_plain_iff proper true).trans early.symm
    rw [extend] at extended ⊢
    split at extended
    · next same =>
      rw [if_pos same]
      split at extended
      · next gone =>
        rw [if_pos gone]
        exact early.symm
      · next remains =>
        rw [if_neg remains]
        exact replaced extended
    · next apart =>
      rw [if_neg apart]
      split at extended
      · next constant =>
        rw [if_pos constant]
        exact replaced extended
      · next varies =>
        rw [if_neg varies]
        split at extended
        · next cleared =>
          rw [if_pos cleared]
          exact replaced extended
        · next other =>
          rw [if_neg other]
          exact halts_plain_iff extended true
  | empty | loop before body | region before fast body => exact halts_plain_iff extended true

/-- A loop that comes to its end wherever it begins may stand behind a code. -/
theorem halts_loop_behind (halts : (outer.exec true).Halts run)
    (always : ∀ next, ((empty.loop body).exec true).Halts next) :
    ((outer.loop body).exec true).Halts run :=
  Behavior.halts_andThen_of_always (outer.steady_exec true)
    (Behavior.steady_loop (body.spends_exec true) (body.steady_exec true)) halts always

theorem halts_of_sole_add {step : Instruction} (sole : body = empty.plain step)
    (odd : Loop.addsOdd step = true) (next : Run) : ((empty.loop body).exec true).Halts next := by
  simp only [Loop.addsOdd, Bool.and_eq_true, decide_eq_true_eq] at odd
  rw [sole]
  exact Behavior.halts_add odd.1 odd.2 _ next

/-- **Every way to close a loop halts only where the loop does**, but for that of loops without a
body. -/
theorem halts_of_closes {passes : Passes} {may : Code → Prop} {outermost : Bool}
    (closes : Closes passes may outermost outer body code) (disabled : passes .emptyLoop = false)
    (around : outer.Proper) (inside : body.Proper)
    (begins : outermost = true → passes .commentBlock = true → run.cell = 0)
    (halts : (code.exec true).Halts run) : ((outer.loop body).exec true).Halts run := by
  have spends := body.spends_exec true
  have behind_zero (halts : (outer.exec true).Halts run)
      (zero : ∀ left rest next, outer.exec true left run = .finished rest next → next.cell = 0) :
      ((outer.loop body).exec true).Halts run := by
    refine Behavior.halts_andThen (outer.steady_exec true)
      (Behavior.steady_loop spends (body.steady_exec true)) halts ?_
    intro left rest next completed
    exact Behavior.halts_loop_of_zero spends (zero left rest next completed)
  cases closes with
  | kept => exact halts
  | first enabled top start =>
    refine behind_zero halts fun left rest next completed => ?_
    rw [start] at completed
    cases completed
    exact begins top enabled
  | dead enabled zero =>
    exact behind_zero halts fun left rest next completed => cell_of_exec zero around completed
  | again enabled sole odd => exact halts_loop_behind halts (halts_of_sole_add sole odd)
  | wider enabled sole odd behind =>
    refine halts_loop_behind ?_ (halts_of_sole_add sole odd)
    rw [behind] at around ⊢
    exact (halts_plain_iff around true).mpr ((halts_plain_iff around.1 true).mpr halts.left)
  | cleared enabled sole odd => exact halts_loop_behind halts.left (halts_of_sole_add sole odd)
  | @sought step enabled sole opcode =>
    refine halts_loop_behind halts.left fun next => ?_
    rw [sole] at inside ⊢
    exact Behavior.halts_move opcode (inside.2.2.moving (by simp [opcode])) _ next
  | fused enabled counted =>
    rw [exec_append] at halts
    exact halts_loop_behind halts.left fun next => (reaches_loop_self counted next).halts
  | emptied enabled =>
    rw [disabled] at enabled
    cases enabled

/-! ### Idle ends -/

/-- Leaving out the idle ends of regions keeps nothing from going on for ever. -/
theorem reflects_dropped {code : Code} (proper : code.Proper) {clear : Bool} :
    Behavior.Reflects clear (code.exec false) (code.exec true) := by
  induction code generalizing clear with
  | empty => exact fun run _ _ _ _ => ⟨0, trivial⟩
  | plain before instruction ih =>
    refine (ih proper.1).andThen (refines_dropped proper.1) ?_ (before.steady_exec false)
      (before.steady_exec true) (Behavior.steady_act _)
    exact Behavior.reflects_of_halts (Behavior.halts_act fun seek => proper.2.2.moving (by simp [seek]))
  | loop before body ihBefore ihBody =>
    refine (ihBefore proper.1).andThen (refines_dropped proper.1) ?_ (before.steady_exec false)
      (before.steady_exec true) (Behavior.steady_loop (body.spends_exec true) (body.steady_exec true))
    exact (ihBody proper.2).loop (refines_dropped proper.2) (body.spends_exec false)
      (body.spends_exec true) (body.steady_exec false) (body.steady_exec true) _ _
  | region before fast body ihBefore _ =>
    obtain ⟨early, leaf, inside, back, alone⟩ := proper
    have level : (empty.region fast body).Straight false :=
      ⟨trivial, by rintro ⟨⟩, leaf, inside, back, alone⟩
    refine (ihBefore early).andThen (refines_dropped early) ?_ (before.steady_exec false)
      (before.steady_exec true) (Behavior.steady_region (body.steady_exec true))
    exact Behavior.reflects_of_halts fun run => (reaches_exec_self level true run).halts

end Code

/-! ### Reading a source twice -/

/-- The codes on all levels, innermost first, halt only where those of the model do. -/
def EndAlike (passes : Passes) : List Code → List Code → Prop
  | [], [] => True
  | model :: models, code :: codes =>
    Behavior.Reflects (codes.isEmpty && passes .commentBlock) (code.exec true) (model.exec true) ∧
      EndAlike passes models codes
  | _, _ => False

section Reading

variable {passes : Passes} {may every : Code → Prop} {models codes modelsNext codesNext : List Code}
  {model code modelNext codeNext : Code} {symbol : Symbol}

/-- Reading or writing a byte always comes to an end. -/
theorem reflects_terminal {clear : Bool} {opcode : Opcode} (terminal : opcode = .output ∨ opcode = .input)
    (proper : model.Proper) (reflects : Behavior.Reflects clear (code.exec true) (model.exec true)) :
    Behavior.Reflects clear ((code.plain { opcode := opcode }).exec true)
      ((model.plain { opcode := opcode }).exec true) := by
  have member : opcode ∈ [.move, .add, .input, .output, .reset, .store, .seek, .set] := by
    rcases terminal with rfl | rfl <;> simp
  have sound : ({ opcode := opcode } : Instruction).Sound :=
    .of_bare (by rcases terminal with rfl | rfl <;> rfl)
  intro run other begins resembles halts
  have early := reflects run other begins resembles halts.left
  exact (Code.halts_plain_iff ⟨proper, member, sound⟩ true).mpr early

/-- What becomes of a loop comes to an end only where the loop of the model does. -/
theorem reflects_of_closes (disabled : passes .emptyLoop = false) {outermost : Bool}
    {outer modelOuter : Code} (closes : Closes passes may outermost outer code codeNext)
    (around : outer.Proper) (inside : code.Proper)
    (refinesOuter : Behavior.Refines (outermost && passes .commentBlock) (outer.exec true)
      (modelOuter.exec true))
    (reflectsOuter : Behavior.Reflects (outermost && passes .commentBlock) (outer.exec true)
      (modelOuter.exec true))
    (refines : Behavior.Refines false (code.exec true) (model.exec true))
    (reflects : Behavior.Reflects false (code.exec true) (model.exec true)) :
    Behavior.Reflects (outermost && passes .commentBlock) (codeNext.exec true)
      ((modelOuter.loop model).exec true) := by
  intro run other begins resembles halts
  have looped : ((outer.loop code).exec true).Halts other := by
    refine Code.halts_of_closes closes disabled around inside (fun atStart enabled => ?_) halts
    refine resembles.begins begins ?_
    rw [atStart, enabled]
    rfl
  have both : Behavior.Reflects (outermost && passes .commentBlock) ((outer.loop code).exec true)
      ((modelOuter.loop model).exec true) := by
    refine reflectsOuter.andThen refinesOuter ?_ (outer.steady_exec true)
      (modelOuter.steady_exec true)
      (Behavior.steady_loop (model.spends_exec true) (model.steady_exec true))
    exact reflects.loop refines (code.spends_exec true) (model.spends_exec true)
      (code.steady_exec true) (model.steady_exec true) _ _
  exact both run other begins resembles looped

/-- One more symbol keeps codes that are in step so that they halt alike. -/
theorem endAlike_of_takes (disabled : passes .emptyLoop = false)
    (inStep : InStep passes (model :: models) (code :: codes)) (proper : model.Proper)
    (around : ∀ outer ∈ codes, outer.Proper)
    (alike : EndAlike passes (model :: models) (code :: codes))
    (here : Takes Passes.none every symbol models model modelsNext modelNext)
    (there : Takes passes may symbol codes code codesNext codeNext) :
    EndAlike passes (modelNext :: modelsNext) (codeNext :: codesNext) := by
  obtain ⟨reflects, outwards⟩ := alike
  obtain ⟨follows, behind⟩ := inStep
  cases here with
  | fold folds =>
    obtain ⟨written, marked⟩ := folds?_eq_some folds
    cases there with
    | fold again =>
      cases Option.some.inj (folds.symm.trans again)
      refine ⟨fun run other begins resembles halts => ?_, outwards⟩
      have early := (Code.halts_extend_iff follows.proper written (by omega)).mp halts
      exact (Code.halts_extend_iff proper written (by omega)).mpr
        (reflects run other begins resembles early)
    | write | read | opening | closing => cases folds
  | write =>
    cases there with
    | fold folds => cases folds
    | write => exact ⟨reflects_terminal (.inl rfl) proper reflects, outwards⟩
  | read =>
    cases there with
    | fold folds => cases folds
    | read => exact ⟨reflects_terminal (.inr rfl) proper reflects, outwards⟩
  | opening =>
    cases there with
    | fold folds => cases folds
    | opening => exact ⟨fun run _ _ _ _ => ⟨0, trivial⟩, reflects, outwards⟩
  | closing closed =>
    cases there with
    | fold folds => cases folds
    | closing closes =>
      rw [eq_loop_of_closes closed]
      obtain ⟨outward, rest⟩ := outwards
      exact ⟨reflects_of_closes disabled closes (around _ (List.mem_cons_self ..)) follows.proper
        behind.1.refines outward follows.refines reflects, rest⟩

/-- The codes to which the same symbols lead halt alike. -/
theorem endAlike_of_reached (disabled : passes .emptyLoop = false)
    (lasts : ∀ body, may body → body.Straight false → ∀ cell, body.Lasts cell)
    {symbols : List Symbol} (here : Reached Passes.none every symbols models model)
    (there : Reached passes may symbols codes code) :
    EndAlike passes (model :: models) (code :: codes) := by
  induction here generalizing codes code with
  | start =>
    generalize none : ([] : List Symbol) = symbols at there
    cases there with
    | start => exact ⟨fun run _ _ _ _ => ⟨0, trivial⟩, trivial⟩
    | step before takes => simp at none
  | step before takes ih =>
    obtain ⟨outers, last, earlier, taken⟩ := there.last
    exact endAlike_of_takes disabled (inStep_of_reached lasts before earlier) before.proper.1
      earlier.proper.2 (ih earlier) takes taken

/-- **The code without passes halts where the one with passes does**, unless empty loops are left
out. -/
theorem reflects_of_reached (disabled : passes .emptyLoop = false)
    (lasts : ∀ body, may body → body.Straight false → ∀ cell, body.Lasts cell)
    {symbols : List Symbol} (here : Reached Passes.none every symbols [] model)
    (there : Reached passes may symbols [] code) :
    Behavior.Reflects (passes .commentBlock) (code.exec false) (model.exec false) := by
  have alike := (endAlike_of_reached disabled lasts here there).1
  rw [Code.exec_of_unfused here.unfused.1]
  exact (Code.reflects_dropped there.proper.1).trans alike

end Reading

/-! ### Finished texts -/

/-- A finished text ends if its code halts. -/
theorem exists_ends_of_halts {code : Code} (unlinked : code.Unlinked) {text : Text}
    (written : text.toList = code.emit false 0 ++ [.final]) (small : text.size < positionLimit)
    {run : Run} (first : run.machine.position = 0)
    (halts : ((code.plain .final).exec false).Halts run) : ∃ ending last, Run.Ends text run ending last := by
  obtain ⟨count, settled⟩ := halts
  rw [Code.advance_finished unlinked written small first] at settled
  cases outcome : Run.advance text count run with
  | ended ending last => exact ⟨ending, last, count, outcome⟩
  | running last | stuck last =>
    rw [outcome] at settled
    exact settled.elim

/-- From every tape, on which the first cell is zero if comment blocks are deleted, and every terminal:
where the program with passes ends, other than by an index out of range, the program without passes
ends too, and unless an index leaves its range there, it ends in the same way, with the same streams,
cells and place of the head. -/
def Source.ReflectsEndings (source : Source) (passes : Passes) : Prop :=
  ∃ raw optimized, assemble Passes.none source = .ok raw ∧
    assemble passes source = .ok optimized ∧
      ∀ (tape : Tape) (terminal : Terminal), (passes .commentBlock = true → tape.get 0 = 0) →
        let run : Run := ⟨Machine.onTape tape, terminal⟩
        ∀ ending other, Run.Ends optimized.text run ending other → ending ≠ .overflow →
          ∃ how last, Run.Ends raw.text run how last ∧ (how ≠ .overflow → how = ending ∧
            last.terminal = other.terminal ∧
            last.machine.head.index = other.machine.head.index ∧
            ∀ cell, last.machine.head.tape.get cell = other.machine.head.tape.get cell)

/-- **Nothing ends that would go on for ever**, in a source with all brackets paired and by any choice
of passes that leaves empty loops alone and does not have both resets and products. -/
theorem endings_reflected_of_apart {source : Source} (balanced : source.Balanced)
    (short : source.length < 0x80000000) {passes : Passes} (disabled : passes .emptyLoop = false)
    (apart : ¬ (passes .reset = true ∧ passes .multiplication = true)) :
    source.ReflectsEndings passes := by
  obtain ⟨raw, assembledRaw⟩ := assemble_of_balanced balanced short Passes.none
  obtain ⟨optimized, assembled⟩ := assemble_of_balanced balanced short passes
  obtain ⟨model, modeled, writtenRaw⟩ := code_of_assembled assembledRaw
  obtain ⟨code, reached, written⟩ := code_of_assembled assembled
  have lasting := reached.lasting apart
  have unlinkedModel := Code.unlinked_of_proper modeled.proper.1
  have smallRaw := size_lt_of_reached short modeled writtenRaw
  refine ⟨raw, optimized, assembledRaw, assembled, fun tape terminal zero ending other ends proper => ?_⟩
  have halts : ((code.plain .final).exec false).Halts ⟨Machine.onTape tape, terminal⟩ := by
    obtain ⟨count, ended⟩ := ends
    refine ⟨count, ?_⟩
    rw [Code.advance_finished (Code.unlinked_of_proper reached.proper.1) written
      (size_lt_of_reached short reached written) rfl, ended]
    trivial
  have reflects : Behavior.Reflects (passes .commentBlock) ((code.plain .final).exec false)
      ((model.plain .final).exec false) := by
    refine (reflects_of_reached disabled (fun _ lasts _ => lasts) modeled lasting).andThen
      (refines_of_reached (fun _ lasts _ => lasts) modeled lasting) ?_ (code.steady_exec false)
      (model.steady_exec false) (Behavior.steady_act _)
    exact Behavior.reflects_of_halts (Behavior.halts_act (by rintro ⟨⟩))
  obtain ⟨how, last, count, ended⟩ := exists_ends_of_halts unlinkedModel writtenRaw smallRaw rfl
    (reflects _ _ (begins_onTape zero terminal) (.refl _) halts)
  refine ⟨how, last, ⟨count, ended⟩, fun inside => ?_⟩
  have refines := advance_refines_of_reached short lasting written (fun _ lasts _ => lasts) modeled
    writtenRaw zero terminal count
  obtain ⟨final, done, resembles⟩ := refines.ends how last ended inside
  obtain ⟨rfl, rfl⟩ := Run.ends_unique ends ⟨count, done⟩
  exact ⟨rfl, resembles.terminal.symm, resembles.index.symm, fun cell => (resembles.cells cell).symm⟩

/-- A search, a loop that clears a cell, and one that clears a cell behind it. -/
theorem searching_source_reflects_endings :
    let source : Source := [',', '[', '>', ']', '<', '[', '-', '-', '-', ']', '>', '[', '-', '[', '+',
      ']', ']', '.'].map Char.toUInt8
    let passes := Passes.ofList [.commentBlock, .reset, .seek, .setFolding]
    source.Balanced ∧ source.length < 0x80000000 ∧ passes .emptyLoop = false ∧
      ¬ (passes .reset = true ∧ passes .multiplication = true) ∧ source.ReflectsEndings passes := by
  intro source passes
  have balanced : source.Balanced := by decide +kernel
  have short : source.length < 0x80000000 := by decide
  have disabled : passes .emptyLoop = false := by decide
  have apart : ¬ (passes .reset = true ∧ passes .multiplication = true) := by decide
  exact ⟨balanced, short, disabled, apart, endings_reflected_of_apart balanced short disabled apart⟩

end TapeMachine
