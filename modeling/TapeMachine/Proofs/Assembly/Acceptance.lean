/-
**Which sources are programs.**

Whether the brackets match is found out while loops are rewritten underneath, and still depends on
nothing but the brackets.

* `waiting_of_take`: which brackets a draft waits for behind a token;
* `Reads`: what becomes of the tokens of a source: a draft that waits for the open brackets, or the
  first closing bracket without a partner;
* `reads_scan`: one of these becomes of every source, whichever passes are asked for;
* `Source.Blames`: the bracket that a source is rejected for;
* `assemble_ne_fault`: no source is given up for another reason than a bracket;
* `judged_of_short`: which sources are programs, and which bracket the others are rejected for.
-/

import TapeMachine.Proofs.Assembly.Faultless
import TapeMachine.Proofs.Language.Brackets
import TapeMachine.Proofs.Language.Places

namespace TapeMachine

/-! ### Counting open brackets -/

theorem opened_append (depth : Nat) (first second : List Symbol) :
    Symbol.opened depth (first ++ second) =
      (Symbol.opened depth first).bind fun between => Symbol.opened between second := by
  induction first generalizing depth with
  | nil => rfl
  | cons symbol first ih =>
    cases symbol <;> cases depth <;> first | exact ih _ | rfl

/-! ### Open brackets of a draft -/

/-- The brackets that a draft waits for behind a token. -/
theorem waiting_of_take {passes : Passes} {draft next : Draft} {token : Token}
    (taken : draft.take passes token = .ok next) :
    next.waiting.map OpenLoop.bracket =
      match token.symbol with
      | .opening => token :: draft.waiting.map OpenLoop.bracket
      | .closing => (draft.waiting.map OpenLoop.bracket).tail
      | _ => draft.waiting.map OpenLoop.bracket := by
  rcases token with ⟨symbol, place⟩
  rcases draft with ⟨text, waiting, diagnostics⟩
  have fold {opcode : Opcode} {amount : Int}
      (folded : Draft.fold passes opcode amount ⟨text, waiting, diagnostics⟩ = .ok next) :
      next.waiting = waiting := by
    simp only [Draft.fold] at folded
    split at folded
    · obtain rfl := Except.ok.inj folded
      rfl
    · cases folded
  cases symbol with
  | right | left | increment | decrement => exact congrArg _ (fold taken)
  | write | read | opening =>
    obtain rfl := Except.ok.inj taken
    rfl
  | closing =>
    cases waiting with
    | nil => cases taken
    | cons innermost waiting =>
      simp only [Draft.take, Draft.closeLoop] at taken
      split at taken
      · cases taken
      · split at taken
        · cases taken
        · obtain rfl := Except.ok.inj taken
          simp only [Draft.adopt]
          split <;> rfl

/-- The opening bracket at a position. -/
def Source.openingAt (source : Source) (position : Nat) : Token :=
  ⟨.opening, source.placeAt position⟩

/-- The closing bracket at a position. -/
def Source.closingAt (source : Source) (position : Nat) : Token :=
  ⟨.closing, source.placeAt position⟩

/-- The draft has taken in the source, and waits for the brackets that are open at its end. -/
structure Draft.Holds (passes : Passes) (source : Source) (draft : Draft) (waiting : List Nat) :
    Prop where
  depicted : ∃ outers code, draft.Depicts outers code ∧
    Reached passes (fun _ => True) source.symbols outers code
  opens : source.Opens waiting
  brackets : draft.waiting.map OpenLoop.bracket = waiting.map source.openingAt

/-- What becomes of the tokens of a source: they are taken in, or given up at the first closing bracket
without a partner. -/
inductive Reads (passes : Passes) (source : Source) : Except Rejection Draft → Prop where
  | taken {draft : Draft} {waiting : List Nat} (holds : draft.Holds passes source waiting) :
      Reads passes source (.ok draft)
  | unopened {first : Nat} (least : IsLeast {stop | source.Unopened stop} first)
      (reports : Array Diagnostic) :
      Reads passes source (.error ⟨.unmatched (source.closingAt first), reports⟩)

section Reading

variable {passes : Passes} {source : Source} {draft next : Draft} {waiting : List Nat} {byte : UInt8}
  {symbol : Symbol}

theorem length_symbols_le (source : Source) : source.symbols.length ≤ source.length := by
  rw [Source.symbols, List.length_map, Array.length_toList]
  exact length_tokens_le source

/-- A byte that spells no bracket is none. -/
theorem ne_byte_of_ofByte? {other : Symbol} (spelled : Symbol.ofByte? byte ≠ some other) :
    byte ≠ other.byte :=
  fun same => spelled (Symbol.ofByte?_eq_some_iff.mpr same)

/-- The places of the open brackets stay the same. -/
theorem map_openingAt_append (opens : source.Opens waiting) (more : Source) :
    waiting.map (Source.openingAt (source ++ more)) = waiting.map source.openingAt :=
  List.map_congr_left fun _ member =>
    congrArg (Token.mk .opening) (Source.placeAt_append (Nat.le_of_lt (opens.rises member).1) more)

/-- The first closing bracket without a partner stays the first. -/
theorem isLeast_unopened_append {first : Nat} (least : IsLeast {stop | source.Unopened stop} first)
    (more : Source) : IsLeast {stop | Source.Unopened (source ++ more) stop} first := by
  obtain ⟨unopened, before⟩ := least
  have within : first < source.length := (List.getElem?_eq_some_iff.mp unopened.1).1
  refine ⟨(Source.unopened_append_iff within).mpr unopened, fun stop other => ?_⟩
  by_cases early : stop < source.length
  · exact before ((Source.unopened_append_iff early).mp other)
  · omega

/-- A closing bracket while none is open is the first without a partner. -/
theorem isLeast_unopened_closing (opens : source.Opens []) :
    IsLeast {stop | Source.Unopened (source ++ [Symbol.closing.byte]) stop} source.length := by
  refine ⟨opens.unopened, fun stop other => Nat.le_of_not_lt fun early => ?_⟩
  exact opens.not_unopened stop ((Source.unopened_append_iff early).mp other)

namespace Draft.Holds

variable (holds : draft.Holds passes source waiting)

include holds

/-- A byte that is no symbol. -/
theorem comment (spelled : Symbol.ofByte? byte = none) :
    draft.Holds passes (source ++ [byte]) waiting where
  depicted := by
    rw [symbols_concat, spelled]
    exact (List.append_nil source.symbols).symm ▸ holds.depicted
  opens := holds.opens.other (ne_byte_of_ofByte? (by simp [spelled]))
    (ne_byte_of_ofByte? (by simp [spelled]))
  brackets := holds.brackets.trans (map_openingAt_append holds.opens _).symm

/-- A symbol that is taken in. -/
theorem step (spelled : Symbol.ofByte? byte = some symbol)
    (taken : draft.take passes ⟨symbol, source.place⟩ = .ok next) :
    ∃ waiting, next.Holds passes (source ++ [byte]) waiting := by
  obtain ⟨⟨outers, code, depicts, reached⟩, opens, brackets⟩ := holds
  have depicted : ∃ outers code, next.Depicts outers code ∧
      Reached passes (fun _ => True) (Source.symbols (source ++ [byte])) outers code := by
    obtain ⟨around, written, depicted, takes⟩ :=
      takes_of_take depicts (fun _ => True) taken fun _ _ _ _ _ _ _ => trivial
    rw [symbols_concat, spelled]
    exact ⟨around, written, depicted, reached.step takes⟩
  have waits := waiting_of_take taken
  have same := map_openingAt_append opens [byte]
  have other (opening : symbol ≠ .opening) (closing : symbol ≠ .closing) :
      Source.Opens (source ++ [byte]) waiting :=
    opens.other (ne_byte_of_ofByte? (by simpa [spelled] using opening))
      (ne_byte_of_ofByte? (by simpa [spelled] using closing))
  obtain rfl := Symbol.ofByte?_eq_some_iff.mp spelled
  cases symbol with
  | right | left | increment | decrement | write | read =>
    exact ⟨waiting, depicted, other nofun nofun, (waits.trans brackets).trans same.symm⟩
  | opening =>
    refine ⟨_, depicted, opens.opening, waits.trans ?_⟩
    rw [List.map_cons, same, brackets, Source.openingAt, Source.placeAt_length]
  | closing =>
    cases waiting with
    | nil =>
      rw [List.map_nil, List.map_eq_nil_iff] at brackets
      rcases draft with ⟨text, _, diagnostics⟩
      subst brackets
      cases taken
    | cons first waiting =>
      refine ⟨waiting, depicted, opens.closing, waits.trans ?_⟩
      rw [brackets, ← same]
      rfl

/-- A symbol is taken in, unless it is a closing bracket and none is open. -/
theorem take_ok (room : source.length + 1 < 0x80000000) (paired : symbol = .closing → waiting ≠ []) :
    ∃ next, draft.take passes ⟨symbol, source.place⟩ = .ok next := by
  obtain ⟨⟨outers, code, depicts, reached⟩, opens, brackets⟩ := holds
  have extent := reached.extent_le
  have length := length_symbols_le source
  refine TapeMachine.take_ok depicts _ (fun closes outermost => paired closes ?_)
    (by unfold operandLimit; omega)
  have none : draft.waiting = [] := by
    have starts := depicts.waiting
    rw [outermost] at starts
    exact List.map_eq_nil_iff.mp starts
  rw [none] at brackets
  exact List.map_eq_nil_iff.mp brackets.symm

end Draft.Holds

/-- One more byte. -/
theorem Reads.concat {outcome : Except Rejection Draft} (reads : Reads passes source outcome)
    (room : source.length + 1 < 0x80000000) (byte : UInt8) :
    Reads passes (source ++ [byte]) (outcome >>= fun draft =>
      ((Symbol.ofByte? byte).map fun symbol => ⟨symbol, source.place⟩).toList.foldlM
        (Draft.take passes) draft) := by
  cases reads with
  | @unopened first least reports =>
    have within : first < source.length := (List.getElem?_eq_some_iff.mp least.1.1).1
    have same := Source.placeAt_append (Nat.le_of_lt within) [byte]
    have still : source.closingAt first = Source.closingAt (source ++ [byte]) first :=
      congrArg (Token.mk .closing) same.symm
    rw [still]
    exact .unopened (isLeast_unopened_append least [byte]) reports
  | @taken draft waiting holds =>
    cases spelled : Symbol.ofByte? byte with
    | none => exact .taken (holds.comment spelled)
    | some symbol =>
      show Reads passes _ ([⟨symbol, source.place⟩].foldlM (Draft.take passes) draft)
      rw [List.foldlM_cons]
      by_cases unopened : symbol = .closing ∧ waiting = []
      · obtain ⟨rfl, rfl⟩ := unopened
        obtain rfl := Symbol.ofByte?_eq_some_iff.mp spelled
        have none := List.map_eq_nil_iff.mp (holds.brackets.trans (List.map_nil ..))
        have least := isLeast_unopened_closing holds.opens
        rcases draft with ⟨text, waiting, diagnostics⟩
        obtain rfl : waiting = [] := none
        have place := Source.placeAt_length source [Symbol.closing.byte]
        rw [← place]
        exact .unopened least diagnostics
      · have paired : symbol = .closing → waiting ≠ [] := fun closes none => unopened ⟨closes, none⟩
        obtain ⟨next, taken⟩ := holds.take_ok room paired
        obtain ⟨waiting, later⟩ := holds.step spelled taken
        rw [taken]
        exact .taken later

theorem holds_empty : Draft.empty.Holds passes [] [] where
  depicted := ⟨[], .empty, depicts_empty, .start⟩
  opens := .nested .nil
  brackets := rfl

/-- **What becomes of the tokens of a source** does not depend on what is rewritten. -/
theorem reads_scan (short : source.length < 0x80000000) :
    Reads passes source ((scan source).tokens.toList.foldlM (Draft.take passes) Draft.empty) := by
  induction source using List.reverseRecOn with
  | nil => exact .taken holds_empty
  | append_singleton source byte ih =>
    rw [List.length_append, List.length_singleton] at short
    rw [tokens_concat, List.foldlM_append]
    exact (ih (Nat.lt_of_succ_lt short)).concat short byte

/-! ### Counting brackets -/

/-- Counting open brackets counts those that are open at the end, or comes upon one that closes without
a partner. -/
theorem opened_symbols (source : Source) :
    (∃ waiting, source.Opens waiting ∧ Symbol.opened 0 source.symbols = some waiting.length) ∨
      (∃ stop, source.Unopened stop) ∧ Symbol.opened 0 source.symbols = none := by
  induction source using List.reverseRecOn with
  | nil => exact .inl ⟨[], .nested .nil, rfl⟩
  | append_singleton source byte ih =>
    rw [symbols_concat, opened_append]
    rcases ih with ⟨waiting, opens, counted⟩ | ⟨⟨stop, unopened⟩, counted⟩
    · rw [counted, Option.bind_some]
      have other (opening : Symbol.ofByte? byte ≠ some .opening)
          (closing : Symbol.ofByte? byte ≠ some .closing) : Source.Opens (source ++ [byte]) waiting :=
        opens.other (ne_byte_of_ofByte? opening) (ne_byte_of_ofByte? closing)
      cases spelled : Symbol.ofByte? byte with
      | none =>
        rw [spelled] at other
        exact .inl ⟨waiting, other nofun nofun, rfl⟩
      | some symbol =>
        rw [spelled] at other
        obtain rfl := Symbol.ofByte?_eq_some_iff.mp spelled
        cases symbol with
        | right | left | increment | decrement | write | read =>
          refine .inl ⟨waiting, other nofun nofun, ?_⟩
          cases waiting.length <;> rfl
        | opening =>
          refine .inl ⟨_, opens.opening, ?_⟩
          rw [List.length_cons]
          cases waiting.length <;> rfl
        | closing =>
          cases waiting with
          | nil => exact .inr ⟨⟨_, opens.unopened⟩, rfl⟩
          | cons first waiting => exact .inl ⟨waiting, opens.closing, rfl⟩
    · have within : stop < source.length := (List.getElem?_eq_some_iff.mp unopened.1).1
      rw [counted, Option.bind_none]
      exact .inr ⟨⟨stop, (Source.unopened_append_iff within).mpr unopened⟩, rfl⟩

theorem balanced_iff_nested (source : Source) : source.Balanced ↔ source.Nested := by
  unfold Source.Balanced
  rcases opened_symbols source with ⟨waiting, opens, counted⟩ | ⟨⟨stop, unopened⟩, counted⟩
  · rw [counted, opens.nested_iff, Option.some_inj, List.length_eq_zero_iff]
  · rw [counted]
    exact ⟨nofun, fun nested => (unopened.not_nested nested).elim⟩

/-! ### Programs and rejections -/

/-- A draft that has taken in its source is finished if no bracket is open, and else given up for the
last one. -/
theorem Draft.Holds.finish (holds : draft.Holds passes source waiting) :
    match waiting with
    | [] => ∃ assembly, draft.finish passes = .ok assembly
    | last :: _ =>
      draft.finish passes = .error ⟨.unmatched (source.openingAt last), draft.diagnostics⟩ := by
  obtain ⟨⟨outers, code, depicts, -⟩, -, brackets⟩ := holds
  cases waiting with
  | nil =>
    have none : draft.waiting = [] := List.map_eq_nil_iff.mp brackets
    have starts := depicts.waiting
    rw [none] at starts
    cases outers with
    | nil =>
      obtain ⟨text, -, finished⟩ := finish_of_depicts depicts passes
      exact ⟨_, finished⟩
    | cons outer outers => cases starts
  | cons last waiting =>
    rcases draft with ⟨text, _ | ⟨⟨start, bracket⟩, opened⟩, diagnostics⟩
    · cases brackets
    · obtain rfl : bracket = source.openingAt last := (List.cons.inj brackets).1
      rfl

end Reading

/-- The bracket that a source is rejected for: the first closing bracket without a partner, or if there
is none the last opening bracket without one. -/
inductive Source.Blames (source : Source) : Token → Prop where
  | unopened {first : Nat} (least : IsLeast {stop | source.Unopened stop} first) :
      Blames source ⟨.closing, source.placeAt first⟩
  | unclosed {last : Nat} (none : ∀ stop, ¬ source.Unopened stop)
      (greatest : IsGreatest {start | source.Unclosed start} last) :
      Blames source ⟨.opening, source.placeAt last⟩

namespace Source.Blames

variable {source : Source} {bracket other : Token}

theorem unique (here : source.Blames bracket) (there : source.Blames other) : bracket = other := by
  cases here with
  | unopened least =>
    cases there with
    | unopened other => rw [least.unique other]
    | unclosed none => exact (none _ least.1).elim
  | unclosed none greatest =>
    cases there with
    | unopened other => exact (none _ other.1).elim
    | unclosed _ other => rw [greatest.unique other]

theorem not_nested (blames : source.Blames bracket) : ¬ source.Nested := by
  cases blames with
  | unopened least => exact least.1.not_nested
  | unclosed _ greatest => exact greatest.1.not_nested

end Source.Blames

section Assembling

variable {source : Source} (short : source.length < 0x80000000)

include short

/-- A source is a program if all brackets are paired, and else rejected for the one to blame. -/
theorem assemble_cases (passes : Passes) :
    (source.Nested ∧ ∃ assembly, assemble passes source = .ok assembly) ∨
      ∃ bracket, source.Blames bracket ∧
        ∃ reports, assemble passes source = .error ⟨.unmatched bracket, reports⟩ := by
  have reads : Reads passes source _ := reads_scan short
  rw [Array.foldlM_toList] at reads
  unfold assemble
  generalize (scan source).tokens.foldlM (Draft.take passes) Draft.empty = outcome at reads ⊢
  cases reads with
  | unopened least reports => exact .inr ⟨_, .unopened least, reports, rfl⟩
  | @taken draft waiting holds =>
    have finished := holds.finish
    cases waiting with
    | nil => exact .inl ⟨holds.opens.nested_iff.mpr rfl, finished⟩
    | cons last waiting =>
      exact .inr ⟨_, .unclosed holds.opens.not_unopened holds.opens.isGreatest, _, finished⟩

/-- Which passes are asked for makes no difference to a rejection. -/
theorem rejected_iff_blames (passes : Passes) (error : AssemblyError) :
    (∃ reports, assemble passes source = .error ⟨error, reports⟩) ↔
      ∃ bracket, source.Blames bracket ∧ error = .unmatched bracket := by
  rcases assemble_cases short passes with ⟨nested, assembly, assembled⟩ | ⟨bracket, blames, rejected⟩
  · rw [assembled]
    constructor
    · rintro ⟨reports, rejected⟩
      cases rejected
    · rintro ⟨bracket, blames, -⟩
      exact (blames.not_nested nested).elim
  · constructor
    · rintro ⟨reports, other⟩
      obtain ⟨_, rejected⟩ := rejected
      cases rejected.symm.trans other
      exact ⟨bracket, blames, rfl⟩
    · rintro ⟨other, blamed, rfl⟩
      exact blames.unique blamed ▸ rejected

theorem accepted_iff_nested (passes : Passes) :
    (∃ assembly, assemble passes source = .ok assembly) ↔ source.Nested := by
  rcases assemble_cases short passes with ⟨nested, assembled⟩ | ⟨bracket, blames, reports, rejected⟩
  · exact ⟨fun _ => nested, fun _ => assembled⟩
  · rw [rejected]
    exact ⟨nofun, fun nested => (blames.not_nested nested).elim⟩

end Assembling

/-- **No source is given up for its numbers**: it is a program, or one of its brackets has no partner. -/
theorem assemble_ne_fault {source : Source} (short : source.length ≤ 0x7fffffff) (passes : Passes) :
    (∃ assembly, assemble passes source = .ok assembly) ∨
      ∃ bracket reports, assemble passes source = .error ⟨.unmatched bracket, reports⟩ := by
  rcases assemble_cases (Nat.lt_succ_of_le short) passes with ⟨-, assembled⟩ | ⟨bracket, -, rejected⟩
  · exact .inl assembled
  · exact .inr ⟨bracket, rejected⟩

/-- A reset with a stride, and a region inside of a region, which are read as part of a counted loop. -/
theorem nested_regions_ne_fault :
    let source : Source := ['[', '-', '>', '[', '-', ']', '>', '[', '-', ']', '>', '[', '-', '>', '+', '>',
      '+', '<', '<', ']', '<', '<', '<', ']'].map Char.toUInt8
    source.length ≤ 0x7fffffff ∧
      ((∃ assembly, assemble Passes.all source = .ok assembly) ∨
        ∃ bracket reports, assemble Passes.all source = .error ⟨.unmatched bracket, reports⟩) :=
  ⟨by decide, assemble_ne_fault (by decide) Passes.all⟩

/-- What a source comes to with some passes. -/
structure Source.Judged (source : Source) (passes : Passes) : Prop where
  /-- It is a program if all brackets are paired. -/
  accepted : (∃ assembly, assemble passes source = .ok assembly) ↔ source.Balanced
  /-- A closing bracket without a partner is what it is rejected for, and the first of them. -/
  unopened : (∃ stop, source.Unopened stop) → ∃ first, IsLeast {stop | source.Unopened stop} first ∧
    ∃ reports, assemble passes source = .error ⟨.unmatched ⟨.closing, source.placeAt first⟩, reports⟩
  /-- Without such, it is the last opening bracket that has no partner. -/
  unclosed : (∀ stop, ¬ source.Unopened stop) → (∃ start, source.Unclosed start) →
    ∃ last, IsGreatest {start | source.Unclosed start} last ∧
      ∃ reports, assemble passes source =
        .error ⟨.unmatched ⟨.opening, source.placeAt last⟩, reports⟩
  /-- There is nothing else to reject a source for. -/
  exhausted : source.Balanced ∨ (∃ stop, source.Unopened stop) ∨ ∃ start, source.Unclosed start
  /-- Other passes make no difference. -/
  alike : ∀ (others : Passes) (error : AssemblyError),
    (∃ reports, assemble others source = .error ⟨error, reports⟩) ↔
      ∃ reports, assemble passes source = .error ⟨error, reports⟩

/-- **Which sources are programs**, and which bracket the others are rejected for. -/
theorem judged_of_short {source : Source} (short : source.length < 0x80000000) (passes : Passes) :
    source.Judged passes where
  accepted := (accepted_iff_nested short passes).trans (balanced_iff_nested source).symm
  unopened := by
    rintro ⟨stop, unopened⟩
    rcases assemble_cases short passes with ⟨nested, -⟩ | ⟨bracket, blames, rejected⟩
    · exact (unopened.not_nested nested).elim
    · cases blames with
      | unopened least => exact ⟨_, least, rejected⟩
      | unclosed none => exact (none stop unopened).elim
  unclosed := by
    rintro none ⟨start, unclosed⟩
    rcases assemble_cases short passes with ⟨nested, -⟩ | ⟨bracket, blames, rejected⟩
    · exact (unclosed.not_nested nested).elim
    · cases blames with
      | unopened least => exact (none _ least.1).elim
      | unclosed _ greatest => exact ⟨_, greatest, rejected⟩
  exhausted := by
    rcases assemble_cases short passes with ⟨nested, -⟩ | ⟨bracket, blames, -⟩
    · exact .inl ((balanced_iff_nested source).mpr nested)
    · cases blames with
      | unopened least => exact .inr (.inl ⟨_, least.1⟩)
      | unclosed _ greatest => exact .inr (.inr ⟨_, greatest.1⟩)
  alike others error :=
    (rejected_iff_blames short others error).trans (rejected_iff_blames short passes error).symm

/-- A closing bracket on the second line is at fault, and not the opening one behind it. -/
theorem unopened_bracket_judged :
    let source : Source := ['+', '\n', ' ', ']', '['].map Char.toUInt8
    source.length < 0x80000000 ∧ source.placeAt 3 = ⟨2, 2, 3⟩ ∧ source.Judged Passes.all :=
  ⟨by decide, by decide, judged_of_short (by decide) Passes.all⟩

end TapeMachine
