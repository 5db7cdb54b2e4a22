/-
**A program with passes for the program without.**

A source is read twice in step, once without passes and once with them. On every level of open loops
the code that is written with passes follows the one that is written without, so the finished programs
do too.

* `InStep`: the codes on all levels follow each other;
* `inStep_of_takes`: one more symbol keeps them in step;
* `refines_of_reached`: so the whole code refines the one without passes;
* `Code.advance_refines`: and so do runs of the finished texts.
-/

import TapeMachine.Proofs.Assembly.Finished
import TapeMachine.Proofs.Refinement.Dropped
import TapeMachine.Proofs.Refinement.Following

namespace TapeMachine

/-! ### Without passes -/

/-- Without passes every loop stays. -/
theorem eq_loop_of_closes {may : Code → Prop} {outermost : Bool} {outer body code : Code}
    (closes : Closes Passes.none may outermost outer body code) : code = outer.loop body := by
  cases closes with
  | kept => rfl
  | first enabled | dead enabled | again enabled | wider enabled | cleared enabled | sought enabled
  | fused enabled | emptied enabled => cases enabled

/-- There is no region anywhere. -/
def Code.Unfused : Code → Prop
  | .empty => True
  | .plain before _ => before.Unfused
  | .loop before body => before.Unfused ∧ body.Unfused
  | .region _ _ _ => False

namespace Code

theorem unfused_extend {code : Code} (unfused : code.Unfused) (folding : Bool) (opcode : Opcode)
    (amount : Int) : (code.extend folding opcode amount).Unfused := by
  cases code with
  | plain before last =>
    rw [extend]
    repeat' split
    all_goals exact unfused
  | empty | loop before body | region before fast body => exact unfused

theorem size_of_unfused {code : Code} (unfused : code.Unfused) (keep : Bool) :
    code.size keep = code.size true := by
  induction code with
  | empty => rfl
  | plain before instruction ih => rw [size, size, ih unfused]
  | loop before body ihBefore ihBody => rw [size, size, ihBefore unfused.1, ihBody unfused.2]
  | region before fast body _ _ => exact unfused.elim

/-- Without regions there are no idle ends. -/
theorem exec_of_unfused {code : Code} (unfused : code.Unfused) (keep : Bool) :
    code.exec keep = code.exec true := by
  induction code with
  | empty => rfl
  | plain before instruction ih => rw [exec, exec, ih unfused]
  | loop before body ihBefore ihBody =>
    rw [exec, exec, ihBefore unfused.1, ihBody unfused.2, size_of_unfused unfused.2]
  | region before fast body _ _ => exact unfused.elim

end Code

/-- Without passes there are no regions. -/
theorem Reached.unfused {may : Code → Prop} {symbols : List Symbol} {outers : List Code}
    {code : Code} (reached : Reached Passes.none may symbols outers code) :
    code.Unfused ∧ ∀ outer ∈ outers, outer.Unfused := by
  refine reached.invariant trivial ?_ ?_ ?_
  · exact fun code opcode amount _ _ unfused => Code.unfused_extend unfused _ _ _
  · exact fun code opcode _ unfused => unfused
  · intro outermost outer body code closes around inside
    rw [eq_loop_of_closes closes]
    exact ⟨around, inside⟩

/-! ### Reading a source twice -/

/-- The codes on all levels, innermost first, follow those of the model. Only runs of the outermost
code begin at the start of the program. -/
def InStep (passes : Passes) : List Code → List Code → Prop
  | [], [] => True
  | model :: models, code :: codes =>
    Code.Follows (passes .setFolding) (codes.isEmpty && passes .commentBlock) model code ∧
      InStep passes models codes
  | _, _ => False

section Reading

variable {passes : Passes} {may : Code → Prop} {models codes : List Code} {model code : Code}

/-- An instruction that nothing joins, behind codes of which one follows the other. -/
theorem follows_plain {folding clear : Bool} {instruction : Instruction}
    (follows : Code.Follows folding clear model code)
    (opcode : instruction.opcode = .output ∨ instruction.opcode = .input)
    (sound : instruction.Sound) :
    Code.Follows folding clear (model.plain instruction) (code.plain instruction) := by
  have member : instruction.opcode ∈ [.move, .add, .input, .output, .reset, .store, .seek, .set] := by
    rcases opcode with opcode | opcode <;> simp [opcode]
  refine Code.follows_of_refines ⟨follows.proper, member, sound⟩ ?_ ?_ ?_
  · exact Code.folded_plain follows.folded (by rcases opcode with opcode | opcode <;> simp [opcode])
  · rintro kind written (joins | ⟨never, -⟩)
    · rcases opcode with opcode | opcode <;> rcases written with rfl | rfl <;>
        exact nomatch opcode.symm.trans joins
    · cases never
  · exact follows.refines.andThen (Behavior.refines_plain member sound) (Behavior.extends_act _)

/-- What becomes of a loop follows the loop. -/
theorem follows_of_closes {folding clear outermost : Bool} {outer body modelBody : Code}
    (lasts : ∀ body, may body → body.Straight false → ∀ cell, body.Lasts cell)
    (begins : outermost = true → passes .commentBlock = true → clear = true)
    (around : Code.Follows folding clear model outer)
    (inside : Code.Follows folding false modelBody body)
    (closes : Closes passes may outermost outer body code) :
    Code.Follows folding clear (model.loop modelBody) code := by
  have looped : Behavior.Refines false (Behavior.loop (body.size true) (body.exec true))
      (Behavior.loop (modelBody.size true) (modelBody.exec true)) :=
    inside.refines.loop (body.spends_exec true) (modelBody.spends_exec true)
      (body.extends_exec true) _ _
  have both : Behavior.Refines clear ((outer.loop body).exec true) ((model.loop modelBody).exec true) :=
    around.refines.andThen looped (Behavior.extends_loop (body.extends_exec true))
  have improved : Behavior.Improves clear (code.exec true) ((outer.loop body).exec true) :=
    Code.improves_of_closes closes around.proper inside.proper (lasts body) begins
  exact Code.follows_of_refines (proper_of_closes closes around.proper inside.proper)
    (Code.folded_of_closes closes around.folded) (fun _ _ => id) (improved.refines both)

variable {every : Code → Prop} {symbol : Symbol} {modelsNext codesNext : List Code}
  {modelNext codeNext : Code}

/-- One more symbol keeps the codes in step. -/
theorem inStep_of_takes (lasts : ∀ body, may body → body.Straight false → ∀ cell, body.Lasts cell)
    (inStep : InStep passes (model :: models) (code :: codes))
    (here : Takes Passes.none every symbol models model modelsNext modelNext)
    (there : Takes passes may symbol codes code codesNext codeNext) :
    InStep passes (modelNext :: modelsNext) (codeNext :: codesNext) := by
  obtain ⟨follows, around⟩ := inStep
  cases here with
  | fold folds =>
    obtain ⟨written, marked⟩ := folds?_eq_some folds
    cases there with
    | fold again =>
      cases Option.some.inj (folds.symm.trans again)
      exact ⟨follows.extend written (by omega), around⟩
    | write | read | opening | closing => cases folds
  | write =>
    cases there with
    | fold folds => cases folds
    | write =>
      exact ⟨follows_plain follows (.inl rfl) (.of_bare rfl), around⟩
  | read =>
    cases there with
    | fold folds => cases folds
    | read =>
      exact ⟨follows_plain follows (.inr rfl) (.of_bare rfl), around⟩
  | opening =>
    cases there with
    | fold folds => cases folds
    | opening =>
      refine ⟨Code.follows_of_refines trivial trivial (fun _ _ => id) Behavior.refines_skip, follows, ?_⟩
      exact around
  | closing closed =>
    cases there with
    | fold folds => cases folds
    | closing closes =>
      rw [eq_loop_of_closes closed]
      obtain ⟨outer, rest⟩ := around
      refine ⟨follows_of_closes lasts ?_ outer follows closes, rest⟩
      intro outermost enabled
      rw [outermost, enabled]
      rfl

/-- The codes to which the same symbols lead are in step. -/
theorem inStep_of_reached (lasts : ∀ body, may body → body.Straight false → ∀ cell, body.Lasts cell)
    {symbols : List Symbol} (here : Reached Passes.none every symbols models model)
    (there : Reached passes may symbols codes code) :
    InStep passes (model :: models) (code :: codes) := by
  induction here generalizing codes code with
  | start =>
    generalize none : ([] : List Symbol) = symbols at there
    cases there with
    | start =>
      exact ⟨Code.follows_of_refines trivial trivial (fun _ _ => id) Behavior.refines_skip, trivial⟩
    | step before takes => simp at none
  | step before takes ih =>
    obtain ⟨outers, last, earlier, taken⟩ := there.last
    exact inStep_of_takes lasts (ih earlier) takes taken

/-- **The code with passes refines the one without**, if everything that is fused lasts. -/
theorem refines_of_reached (lasts : ∀ body, may body → body.Straight false → ∀ cell, body.Lasts cell)
    {symbols : List Symbol} (here : Reached Passes.none every symbols [] model)
    (there : Reached passes may symbols [] code) :
    Behavior.Refines (passes .commentBlock) (code.exec false) (model.exec false) := by
  have follows := (inStep_of_reached lasts here there).1
  rw [Code.exec_of_unfused here.unfused.1]
  exact (Code.refines_dropped there.proper.1).trans follows.refines

end Reading

/-! ### Finished texts -/

/-- What has become of a run is as good as what has become of another: it has made at least the same
calls on the streams, and if the other has ended, other than by an index out of range, it has ended in
the same way. -/
structure Progress.Refines (better worse : Progress) : Prop where
  calls : worse.run.calls <+: better.run.calls
  ends : ∀ ending last, worse = .ended ending last → ending ≠ .overflow →
    ∃ other, better = .ended ending other ∧ other.Resembles last

namespace Code

/-- Idle ends only add to the text. -/
theorem size_dropped_le (code : Code) : code.size false ≤ code.size true := by
  induction code with
  | empty => exact Nat.le_refl _
  | plain before instruction ih => exact Nat.succ_le_succ ih
  | loop before body ihBefore ihBody =>
    simp only [size]
    omega
  | region before fast body ihBefore ihBody =>
    have ends : (regionEnd false fast 0).length ≤ (regionEnd true fast 0).length := by
      cases fast <;> decide
    simp only [size]
    omega

/-- Behind a code that ends with `stop` nothing is done. -/
theorem exec_final_ne_finished (code : Code) (keep : Bool) (left rest : Nat) (run next : Run) :
    (code.plain .final).exec keep left run ≠ .finished rest next := by
  intro completed
  simp only [exec, Behavior.andThen] at completed
  cases outcome : code.exec keep left run with
  | broken progress =>
    rw [outcome] at completed
    cases completed
  | finished between middle =>
    rw [outcome] at completed
    have performed := (Behavior.act_eq_finished completed).2
    simp only [Instruction.final, Machine.step, Run.perform, Run.close] at performed
    split at performed <;> cases performed

/-- A run of a finished text is a run of its code and `stop`. -/
theorem advance_finished {code : Code} (unlinked : code.Unlinked) {text : Text}
    (written : text.toList = code.emit false 0 ++ [.final]) (small : text.size < positionLimit)
    {run : Run} (first : run.machine.position = 0) (count : Nat) :
    (code.plain .final).exec false count run = .broken (Run.advance text count run) := by
  have whole : (code.plain .final).Unlinked := ⟨unlinked, rfl⟩
  have carried : Carries text run.machine.position
      ((code.plain .final).emit false run.machine.position) := by
    rw [first]
    rw [Carries, List.drop_zero, written]
    exact List.prefix_refl _
  rw [advance_of_carries small whole carried]
  cases outcome : (code.plain .final).exec false count run with
  | finished rest next => exact (exec_final_ne_finished _ _ _ _ _ _ outcome).elim
  | broken progress => rfl

/-- Where one code refines another, their finished texts do so from runs that resemble each other. -/
theorem advance_refines {clear : Bool} {model code : Code} {raw text : Text}
    (refines : Behavior.Refines clear (code.exec false) (model.exec false))
    (unlinkedModel : model.Unlinked) (unlinked : code.Unlinked)
    (writtenRaw : raw.toList = model.emit false 0 ++ [.final])
    (written : text.toList = code.emit false 0 ++ [.final])
    (smallRaw : raw.size < positionLimit) (small : text.size < positionLimit) {run other : Run}
    (begins : run.Begins clear) (resembles : other.Resembles run)
    (first : run.machine.position = 0) (firstOther : other.machine.position = 0) (count : Nat) :
    (Run.advance text count other).Refines (Run.advance raw count run) := by
  have both : Behavior.Refines clear ((code.plain .final).exec false)
      ((model.plain .final).exec false) :=
    refines.andThen Behavior.refines_stop (Behavior.extends_act _)
  obtain ⟨calls, -, ends⟩ := both count count run other begins (Nat.le_refl _) resembles
  rw [advance_finished unlinkedModel writtenRaw smallRaw first,
    advance_finished unlinked written small firstOther] at calls ends
  refine ⟨calls, fun ending last ended proper => ?_⟩
  obtain ⟨final, done, resembled⟩ := ends ending last (congrArg Outcome.broken ended) proper
  exact ⟨final, Outcome.broken.inj done, resembled⟩

end Code

end TapeMachine
