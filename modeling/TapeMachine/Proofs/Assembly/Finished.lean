/-
**Finished texts.**

* `length_tokens_le`: a source has no more tokens than bytes;
* `code_of_assemble`: the text of an assembled source is that of a code to which its symbols lead,
  without idle ends, and `stop`.
-/

import TapeMachine.Proofs.Assembly.Reached
import TapeMachine.Proofs.Code.Final

namespace TapeMachine

/-- The instruction that ends every finished text. -/
def Instruction.final : Instruction := { opcode := .stop }

/-- The symbols of a source, in their order. -/
def Source.symbols (source : Source) : List Symbol :=
  (scan source).tokens.toList.map Token.symbol

/-- A source has no more tokens than bytes. -/
theorem length_tokens_le (source : Source) : (scan source).tokens.size ≤ source.length := by
  suffices general : ∀ before : Scan,
      (source.foldl Scan.next before).tokens.size ≤ before.tokens.size + source.length by
    exact Nat.le_trans (general Scan.start) (Nat.le_of_eq (Nat.zero_add _))
  induction source with
  | nil => exact fun before => Nat.le_refl _
  | cons byte rest ih =>
    rintro ⟨tokens, place⟩
    have late := ih (Scan.next ⟨tokens, place⟩ byte)
    have early : (Scan.next ⟨tokens, place⟩ byte).tokens.size ≤ tokens.size + 1 := by
      simp only [Scan.next]
      split <;> simp
    simp only [List.foldl_cons, List.length_cons]
    omega

/-- The finished text of a draft without open loops. -/
theorem finish_of_depicts {draft : Draft} {code : Code} (depicts : draft.Depicts [] code)
    (passes : Passes) :
    ∃ text : Text, text.toList = code.emit false 0 ++ [.final] ∧ draft.finish passes =
      .ok ⟨text, draft.diagnostics.push (.finished text.size passes.toList)⟩ := by
  have closed : draft.waiting = [] := List.map_eq_nil_iff.mp depicts.waiting
  have written : (draft.text.push .final).toList = code.emit true 0 ++ [.final] :=
    toList_push_of_depicted depicts.text .final |>.trans (layout_plain [] code .final) |>.trans rfl
  obtain ⟨text, dropped, final⟩ := Region.dropFastEnds_emit
    (Code.unlinked_of_proper depicts.proper) (by decide) (by decide) written
  refine ⟨text, final, ?_⟩
  unfold Draft.finish
  rw [closed]
  simp only
  rw [show draft.text.push { opcode := .stop } = draft.text.push .final from rfl, dropped]

/-- The text of an assembled source. -/
theorem code_of_assemble {passes : Passes} {may : Code → Prop} {source : Source}
    {assembly : Assembly} (assembled : assemble passes source = .ok assembly)
    (fusible : ∀ read token unread reading closed start outers outer code,
      (scan source).tokens.toList = read ++ token :: unread → token.symbol = .closing →
        read.foldlM (Draft.take passes) Draft.empty = .ok reading →
          reading.fusing passes = some (closed, start) → Closed outers outer code closed start → may code) :
    ∃ code, Reached passes may source.symbols [] code ∧
      assembly.text.toList = code.emit false 0 ++ [.final] := by
  simp only [assemble, ← Array.foldlM_toList, bind_eq_ok] at assembled
  obtain ⟨draft, taken, finished⟩ := assembled
  obtain ⟨outers, code, depicts, reached⟩ := reached_of_foldlM taken fusible
  cases outers with
  | cons outer outers =>
    have waiting := depicts.waiting
    unfold Draft.finish at finished
    split at finished
    · cases finished
    · next none =>
      rw [none] at waiting
      cases waiting
  | nil =>
    obtain ⟨text, written, done⟩ := finish_of_depicts depicts passes
    rw [done] at finished
    obtain rfl := Except.ok.inj finished
    exact ⟨code, reached, written⟩

/-- The text of an assembled source, whatever was fused. -/
theorem code_of_assembled {passes : Passes} {source : Source} {assembly : Assembly}
    (assembled : assemble passes source = .ok assembly) :
    ∃ code, Reached passes (fun _ => True) source.symbols [] code ∧
      assembly.text.toList = code.emit false 0 ++ [.final] :=
  code_of_assemble assembled fun _ _ _ _ _ _ _ _ _ _ _ _ _ _ => trivial

end TapeMachine
