/-
**Taking in a source.**

A draft is always the text of some codes around its open loops and of the code being written, and a
token does one of five things to them.

* `Draft.Depicts`: the codes of a draft;
* `Takes`: what a token does to the codes;
* `takes_of_take`: a draft that takes in a token does that;
* `depicts_of_foldlM`: so every draft that a source leads to has its codes.
-/

import TapeMachine.Proofs.Assembly.Closing
import TapeMachine.Proofs.Assembly.Folding

namespace TapeMachine

/-- The text of the draft is that of the codes around its open loops, innermost first, and of the code
that is being written. -/
structure Draft.Depicts (draft : Draft) (outers : List Code) (code : Code) : Prop where
  text : draft.text.toList = layout outers code
  waiting : draft.waiting.map OpenLoop.start = starts outers
  proper : code.Proper
  around : ∀ outer ∈ outers, outer.Proper

/-- The symbols that move or add, and how. -/
def Symbol.folds? : Symbol → Option (Opcode × Int)
  | .right => some (.move, 1)
  | .left => some (.move, -1)
  | .increment => some (.add, 1)
  | .decrement => some (.add, -1)
  | _ => none

/-- What a symbol does to the codes of a draft. -/
inductive Takes (passes : Passes) (may : Code → Prop) : Symbol → List Code → Code → List Code →
    Code → Prop where
  | fold {symbol : Symbol} {opcode : Opcode} {amount : Int} {outers : List Code} {code : Code}
      (folds : symbol.folds? = some (opcode, amount)) :
      Takes passes may symbol outers code outers
        (code.extend (passes .setFolding) opcode amount)
  | write {outers : List Code} {code : Code} :
      Takes passes may .write outers code outers (code.plain { opcode := .output })
  | read {outers : List Code} {code : Code} :
      Takes passes may .read outers code outers (code.plain { opcode := .input })
  | opening {outers : List Code} {code : Code} :
      Takes passes may .opening outers code (code :: outers) .empty
  | closing {outers : List Code} {outer body code : Code}
      (closes : Closes passes may outers.isEmpty outer body code) :
      Takes passes may .closing (outer :: outers) body outers code

theorem folds?_eq_some {symbol : Symbol} {opcode : Opcode} {amount : Int}
    (folds : symbol.folds? = some (opcode, amount)) :
    (opcode = .move ∨ opcode = .add) ∧ (amount = 1 ∨ amount = -1) := by
  cases symbol <;> cases folds <;> simp

/-! ### Codes stay proper -/

theorem proper_append {first second : Code} (here : first.Proper) (there : second.Proper) :
    (first ++ second).Proper := by
  induction second with
  | empty => exact here
  | plain before instruction ih => exact ⟨ih there.1, there.2⟩
  | loop before body ihBefore _ => exact ⟨ihBefore there.1, there.2⟩
  | region before fast body ihBefore _ => exact ⟨ihBefore there.1, there.2⟩

theorem proper_of_closes {passes : Passes} {may : Code → Prop} {outermost : Bool}
    {outer body code : Code} (closes : Closes passes may outermost outer body code)
    (around : outer.Proper) (inside : body.Proper) : code.Proper := by
  cases closes with
  | kept => exact ⟨around, inside⟩
  | first | dead | again | emptied => exact around
  | wider enabled sole odd behind opcode moves near stride =>
    subst behind
    obtain ⟨⟨before, -, sound⟩, -⟩ := around
    exact ⟨before, by simp [opcode], sound.wider opcode near stride⟩
  | cleared => exact ⟨around, by simp, .single⟩
  | sought enabled sole opcode =>
    subst sole
    have marked := inside.2.2.moving (by simp [opcode])
    exact ⟨around, by simp, .of_amount (by simp) marked⟩
  | fused enabled counted fusible => exact proper_append around counted.proper_fuse

/-! ### Taking in tokens -/

/-- A closed loop stands at the end of the text. -/
theorem closed_of_close {outers : List Code} {outer body : Code} {text closed : Text}
    (depicted : text.toList = layout (outer :: outers) body)
    (done : text.close (layout outers outer).length = .ok closed) :
    Closed outers outer body closed (layout outers outer).length := by
  refine ⟨?_, rfl⟩
  have written : text = (layout outers outer ++ { opcode := .loopStart } ::
      body.emit true ((layout outers outer).length + 1)).toArray :=
    Array.toList_inj.mp (depicted.trans (layout_cons ..))
  have size : text.size = (layout outers outer).length + 1 + body.size true := by
    rw [written, List.size_toArray]
    simp only [List.length_append, List.length_cons, Code.length_emit]
    omega
  unfold Text.close at done
  split at done
  · obtain rfl := Except.ok.inj done
    rw [size, written, Region.modify_append, Array.toList_push, layout_loop]
    simp
  · cases done

/-- The loop that would be replaced as a counted loop, if the innermost open loop of the draft were
closed now: the text that ends with it, and where it begins. -/
def Draft.fusing (passes : Passes) (draft : Draft) : Option (Text × Nat) :=
  match draft.waiting with
  | [] => none
  | ⟨start, _⟩ :: _ =>
    match draft.text.close start with
    | .error _ => none
    | .ok closed =>
      match improve passes closed start with
      | .ok ⟨some (.multiplication, _), _⟩ => some (closed, start)
      | _ => none

theorem fusing_eq_some_iff {passes : Passes} {draft : Draft} {closed : Text} {start : Nat} :
    draft.fusing passes = some (closed, start) ↔
      ∃ bracket waiting edit refusals, draft.waiting = ⟨start, bracket⟩ :: waiting ∧
        draft.text.close start = .ok closed ∧
        improve passes closed start = .ok ⟨some (.multiplication, edit), refusals⟩ := by
  constructor
  · intro fusing
    unfold Draft.fusing at fusing
    split at fusing
    · cases fusing
    · next first bracket waiting opened =>
      split at fusing
      · cases fusing
      · next text ended =>
        split at fusing
        · next edit refusals improved =>
          cases fusing
          exact ⟨bracket, waiting, edit, refusals, opened, ended, improved⟩
        · cases fusing
  · rintro ⟨bracket, waiting, edit, refusals, opened, ended, improved⟩
    simp only [Draft.fusing, opened, ended, improved]

section Taking

variable {passes : Passes} {draft next : Draft} {outers : List Code} {code : Code} (depicts : draft.Depicts outers code)

include depicts

theorem depicts_fold {opcode : Opcode} {amount : Int} (written : opcode = .move ∨ opcode = .add)
    (marked : amount ≠ 0) (folded : draft.fold passes opcode amount = .ok next) :
    next.Depicts outers (code.extend (passes .setFolding) opcode amount) := by
  rcases draft with ⟨text, waiting, diagnostics⟩
  simp only [Draft.fold] at folded
  split at folded
  · next accumulated =>
    obtain rfl := Except.ok.inj folded
    exact ⟨toList_accumulate written depicts.text accumulated, depicts.waiting,
      Code.proper_extend depicts.proper written marked, depicts.around⟩
  · cases folded

theorem depicts_write {instruction : Instruction}
    (plain : instruction.opcode = .output ∨ instruction.opcode = .input)
    (sound : instruction.Sound) :
    (draft.write instruction).Depicts outers (code.plain instruction) where
  text := toList_push_of_depicted depicts.text instruction
  waiting := depicts.waiting
  proper := ⟨depicts.proper, by rcases plain with opcode | opcode <;> simp [opcode], sound⟩
  around := depicts.around

theorem depicts_openLoop (bracket : Token) :
    (draft.openLoop bracket).Depicts (code :: outers) .empty where
  text := by
    rw [layout_empty, preamble_cons]
    exact (Array.toList_push ..).trans (congrArg (· ++ _) depicts.text)
  waiting := by
    have size : draft.text.size = (layout outers code).length := by
      rw [← depicts.text, Array.length_toList]
    refine (congrArg (List.cons _) depicts.waiting).trans ?_
    rw [size]
    rfl
  proper := trivial
  around outer member := by
    rcases List.mem_cons.mp member with rfl | old
    · exact depicts.proper
    · exact depicts.around outer old

theorem takes_closeLoop (may : Code → Prop) {bracket : Token} (done : draft.closeLoop passes bracket = .ok next)
    (fusible : ∀ closed start outers outer, draft.fusing passes = some (closed, start) →
      Closed outers outer code closed start → may code) :
    ∃ around written, next.Depicts around written ∧
      Takes passes may .closing outers code around written := by
  obtain ⟨text, waiting, diagnostics⟩ := draft
  cases waiting with
  | nil => cases done
  | cons innermost waiting =>
    obtain ⟨start, opened⟩ := innermost
    cases outers with
    | nil => cases depicts.waiting
    | cons outer outers =>
      obtain ⟨place, others⟩ := List.cons.inj depicts.waiting
      obtain rfl : start = (layout outers outer).length := place
      simp only [Draft.closeLoop] at done
      split at done
      · cases done
      · next closed ended =>
        split at done
        · cases done
        · next improvement improved =>
          obtain rfl := Except.ok.inj done
          have shape := closed_of_close depicts.text ended
          obtain ⟨written, closes, emitted⟩ := closes_of_improve shape depicts.proper improved
            fun edit applied => by
              obtain ⟨_, refusals⟩ := improvement
              obtain rfl := applied
              refine fusible closed _ outers outer (fusing_eq_some_iff.mpr ?_) shape
              exact ⟨opened, waiting, edit, refusals, rfl, ended, improved⟩
          have around := depicts.around
          refine ⟨outers, written, ⟨emitted waiting diagnostics, ?_, ?_, ?_⟩, .closing closes⟩
          · simp only [Draft.adopt]
            split <;> exact others
          · exact proper_of_closes closes (around outer (List.mem_cons_self ..)) depicts.proper
          · exact fun other member => around other (List.mem_cons_of_mem _ member)

/-- **What a token does** to the codes of a draft. -/
theorem takes_of_take (may : Code → Prop) {token : Token} (taken : draft.take passes token = .ok next)
    (fusible : ∀ closed start outers outer, token.symbol = .closing →
      draft.fusing passes = some (closed, start) → Closed outers outer code closed start → may code) :
    ∃ around written, next.Depicts around written ∧
      Takes passes may token.symbol outers code around written := by
  rcases token with ⟨symbol, place⟩
  have fold {opcode : Opcode} {amount : Int} (folds : symbol.folds? = some (opcode, amount))
      (folded : draft.fold passes opcode amount = .ok next) :
      ∃ around written, next.Depicts around written ∧
        Takes passes may symbol outers code around written := by
    obtain ⟨either, unit⟩ := folds?_eq_some folds
    exact ⟨_, _, depicts_fold depicts either (by omega) folded, .fold folds⟩
  cases symbol with
  | right | left | increment | decrement => exact fold rfl taken
  | write =>
    obtain rfl := Except.ok.inj taken
    exact ⟨_, _, depicts_write depicts (.inl rfl) (.of_bare rfl), .write⟩
  | read =>
    obtain rfl := Except.ok.inj taken
    exact ⟨_, _, depicts_write depicts (.inr rfl) (.of_bare rfl), .read⟩
  | opening =>
    obtain rfl := Except.ok.inj taken
    exact ⟨_, _, depicts_openLoop depicts _, .opening⟩
  | closing =>
    exact takes_closeLoop depicts may taken fun closed start outers outer fusing shape =>
      fusible closed start outers outer rfl fusing shape

end Taking

theorem depicts_empty : Draft.empty.Depicts [] .empty where
  text := rfl
  waiting := rfl
  proper := trivial
  around _ member := absurd member List.not_mem_nil

/-- Every draft that some tokens lead to has its codes. -/
theorem depicts_of_foldlM {passes : Passes} {tokens : List Token} {draft : Draft}
    (taken : tokens.foldlM (Draft.take passes) Draft.empty = .ok draft) :
    ∃ outers code, draft.Depicts outers code := by
  suffices general : ∀ {initial : Draft} {outers code}, initial.Depicts outers code →
      tokens.foldlM (Draft.take passes) initial = .ok draft →
        ∃ outers code, draft.Depicts outers code from general depicts_empty taken
  clear taken
  induction tokens with
  | nil =>
    rintro initial outers code depicts taken
    obtain rfl := pure_eq_ok.mp taken
    exact ⟨outers, code, depicts⟩
  | cons token tokens ih =>
    rintro initial outers code depicts taken
    rw [List.foldlM_cons, bind_eq_ok] at taken
    obtain ⟨next, first, rest⟩ := taken
    obtain ⟨around, written, depicted, -⟩ :=
      takes_of_take depicts (fun _ => True) first fun _ _ _ _ _ _ _ => trivial
    exact ih depicted rest

end TapeMachine
