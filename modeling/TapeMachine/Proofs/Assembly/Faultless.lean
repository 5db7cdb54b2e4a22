/-
**No number leaves its range.**

In a source that is short enough for its length to be an operand, no check on a number ever fails, so
the only sources that are no programs are those with a bracket without a partner.

* `Loop.Fusion.reads_emit`: reading a loop body refuses it or stays within the bounds of its code;
* `improve_ok`: the passes come to an answer about every loop;
* `Source.Balanced`: every bracket has its partner;
* `assemble_of_balanced`: such a source is a program, whichever passes are asked for.
-/

import TapeMachine.Proofs.Assembly.Extent
import TapeMachine.Proofs.Assembly.Finished

namespace TapeMachine

open Loop

/-- The largest operand. -/
def operandLimit : Int := 0x7fffffff

theorem operand_ok {value : Int} (above : -operandLimit - 1 ≤ value) (below : value ≤ operandLimit) :
    operand value = .ok value :=
  operand_of_bounded ⟨above, below⟩

/-! ### Reading a loop body -/

/-- A refusal, or something with a property; but no fault. -/
def Loop.Sound {α : Type} (holds : α → Prop) : Except Obstacle α → Prop
  | .ok value => holds value
  | .error (.refusal _) => True
  | .error (.fault _) => False

theorem Loop.Sound.bind {α β : Type} {first : Except Obstacle α} {rest : α → Except Obstacle β}
    {holds : α → Prop} {later : β → Prop} (sound : Sound holds first)
    (next : ∀ value, holds value → Sound later (rest value)) : Sound later (first >>= rest) := by
  rcases first with (fault | refusal) | value
  · exact sound
  · trivial
  · exact next value sound

theorem Loop.Sound.imp {α : Type} {outcome : Except Obstacle α} {holds later : α → Prop}
    (sound : Sound holds outcome) (next : ∀ value, holds value → later value) :
    Sound later outcome := by
  rcases outcome with (fault | refusal) | value
  · exact sound
  · trivial
  · exact next value sound

theorem Loop.sound_lift {α β : Type} {checked : Except Fault α} {value : α}
    {rest : α → Except Obstacle β} {holds : β → Prop} (ok : checked = .ok value)
    (sound : Sound holds (rest value)) :
    Sound holds ((liftM checked : Except Obstacle α) >>= rest) := by
  rw [lift_eq_ok.mpr ok]
  exact sound

namespace Loop.Fusion

/-- How far a fusion got, with the sum of what it added to the counter within a limit. -/
structure Got (low high current limit : Int) (fusion : Fusion) : Prop where
  current : fusion.current = current
  above : low ≤ fusion.cursor
  below : fusion.cursor ≤ high
  total : fusion.total.natAbs ≤ limit

/-- An instruction that stays where it is may still raise the limit. -/
theorem Got.mono {low high current limit more : Int} {fusion : Fusion}
    (got : Got low high current limit fusion) (wider : limit ≤ more) :
    Got low high (current + 0) more fusion :=
  ⟨got.current.trans (Int.add_zero current).symm, got.above, got.below, Int.le_trans got.total wider⟩

variable {low high limit : Int} {fusion : Fusion} (around : low ≤ 0 ∧ 0 ≤ high)
  (near : high - low ≤ operandLimit)

include near in
theorem flush_ok {current : Int} (got : Got low high current limit fusion) (left : low ≤ current)
    (right : current ≤ high) : ∃ next, fusion.flush = .ok next ∧ Got low high current limit next := by
  obtain ⟨rfl, above, below, total⟩ := got
  have distance : operand (fusion.current - fusion.cursor) = .ok _ :=
    operand_ok (by omega) (by omega)
  unfold flush
  split
  · exact ⟨fusion, rfl, rfl, above, below, total⟩
  · rw [distance]
    exact ⟨_, rfl, rfl, left, right, total⟩

include near in
theorem sound_writeHere {current : Int} (got : Got low high current limit fusion)
    (left : low ≤ current) (right : current ≤ high) (operation : Instruction) :
    Sound (Got low high current limit) (liftM (fusion.writeHere operation)) := by
  obtain ⟨next, flushed, place, above, below, total⟩ := flush_ok near got left right
  have written : fusion.writeHere operation = .ok (next.write operation) := by
    rw [writeHere, flushed]
    rfl
  rw [lift_eq_ok.mpr written]
  exact ⟨place, above, below, total⟩

include near in
theorem sound_multiply {current : Int} (got : Got low high current limit fusion) (factor : Int)
    {target : Int} (left : low ≤ target) (right : target ≤ high) :
    Sound (Got low high current limit) (liftM (fusion.multiply factor target)) := by
  obtain ⟨place, above, below, total⟩ := got
  have distance : operand (target - fusion.cursor) = .ok _ := operand_ok (by omega) (by omega)
  rw [multiply, distance]
  exact ⟨place, above, below, total⟩

include around near in
/-- Reading one instruction refuses it or gets past it. -/
theorem reads_next {place : Int} (got : Got low high place limit fusion)
    (left : low ≤ place) (right : place ≤ high) (instruction : Instruction)
    (first : low ≤ place + min instruction.shift instruction.target)
    (last : place + max instruction.shift instruction.target ≤ high)
    (small : limit + instruction.mass ≤ operandLimit) :
    Sound (Got low high (place + instruction.shift) (limit + instruction.mass))
      (fusion.next instruction) := by
  rcases fusion with ⟨operations, current, cursor, total, depth, leaf, footprint⟩
  rcases instruction with ⟨opcode, value, offset, link⟩
  obtain ⟨same, above, below, sum⟩ := got
  obtain rfl : current = place := same
  simp only at above below sum
  have written (depth : Nat) (leaf : Bool) (noted : Footprint) (operation : Instruction) :
      Sound (Got low high current limit)
        (liftM (Fusion.writeHere ⟨operations, current, cursor, total, depth, leaf, noted⟩ operation)) :=
    sound_writeHere near ⟨rfl, above, below, sum⟩ left right operation
  have multiplied (noted : Footprint) {target : Int} (left : low ≤ target) (right : target ≤ high) :
      Sound (Got low high current limit)
        (liftM (Fusion.multiply ⟨operations, current, cursor, total, depth, leaf, noted⟩ value target)) :=
    sound_multiply near ⟨rfl, above, below, sum⟩ value left right
  unfold Instruction.shift Instruction.target at first last
  unfold Instruction.mass at small
  unfold Instruction.shift Instruction.mass
  cases opcode with
  | input | output | loopStart | loopEnd | seek | stop => trivial
  | nop => exact Got.mono ⟨rfl, above, below, sum⟩ (Int.le_of_eq (Int.add_zero limit).symm)
  | push | pushFast =>
    simp only [Int.add_zero]
    exact written _ _ _ _
  | pop | popFast =>
    simp only [Int.add_zero]
    cases depth with
    | zero => trivial
    | succ depth => exact written _ _ _ _
  | set =>
    simp only at first last small ⊢
    have set := written depth leaf { footprint with
      assigned := current :: footprint.assigned
      constants := current :: footprint.constants } ⟨.set, value, offset, link⟩
    exact set.imp fun _ got => got.mono (by omega)
  | move =>
    simp only at first last small ⊢
    have moved : operand (current + value) = .ok _ := operand_ok (by omega) (by omega)
    exact sound_lift moved ⟨rfl, above, below, by simpa using sum⟩
  | add =>
    simp only at first last small ⊢
    simp only [Fusion.next]
    split
    · have added : operand (total + value) = .ok _ := operand_ok (by omega) (by omega)
      refine sound_lift added ⟨(Int.add_zero _).symm, above, below, ?_⟩
      simp only
      omega
    · exact (multiplied _ left right).imp fun _ got => got.mono (by omega)
  | multiply =>
    simp only at first last small ⊢
    have aimed : operand (current + offset) = .ok _ := operand_ok (by omega) (by omega)
    simp only [Int.add_zero]
    refine sound_lift aimed ?_
    split
    · trivial
    · exact multiplied _ (by omega) (by omega)
  | store =>
    simp only at first last small ⊢
    have aimed : operand (current + offset) = .ok _ := operand_ok (by omega) (by omega)
    simp only [Int.add_zero]
    exact sound_lift aimed (written _ _ _ _)
  | reset =>
    simp only at first last small ⊢
    have fewer : operand (value - 1) = .ok _ := operand_ok (by omega) (by omega)
    have span : operand ((value - 1) * offset) = .ok _ := operand_ok (by omega) (by omega)
    have ended : operand (current + (value - 1) * offset) = .ok _ := operand_ok (by omega) (by omega)
    refine sound_lift fewer (sound_lift span (sound_lift ended ?_))
    refine (written _ _ _ _).bind fun next got => ⟨rfl, ?_, ?_, ?_⟩
    · simp only
      omega
    · simp only
      omega
    · have total := got.total
      simp only
      omega

include around near in
/-- Reading an instruction that only begins or ends something. -/
theorem reads_boundary {place : Int} (got : Got low high place limit fusion)
    (left : low ≤ place) (right : place ≤ high) (instruction : Instruction)
    (boundary : instruction.opcode.isBoundary = true) (small : limit ≤ operandLimit) :
    Sound (Got low high place limit) (fusion.next instruction) := by
  have idle : instruction.shift = 0 ∧ instruction.target = 0 ∧ instruction.mass = 0 := by
    rcases instruction with ⟨opcode, value, offset, link⟩
    cases opcode <;> first | exact ⟨rfl, rfl, rfl⟩ | cases boundary
  have read := reads_next around near got left right instruction
    (by omega) (by omega) (by omega)
  rwa [idle.1, idle.2.2, Int.add_zero, Int.add_zero] at read

include around near in
/-- Reading a code refuses it or gets past it. -/
theorem reads_emit (code : Code) {place : Int} (got : Got low high place limit fusion)
    (first : low ≤ place + code.low) (last : place + code.high ≤ high)
    (small : limit + code.mass ≤ operandLimit) (base : Nat) :
    Sound (Got low high (place + code.shift) (limit + code.mass))
      ((code.emit true base).foldlM Fusion.next fusion) := by
  have ends := code.between
  induction code generalizing fusion place limit base with
  | empty =>
    rw [Code.shift, Code.mass, Int.add_zero, Int.add_zero]
    exact got
  | plain before instruction ih =>
    have early := before.between
    have mass := instruction.mass_nonneg
    simp only [Code.low, Code.high, Code.mass, Code.shift] at first last small ⊢
    rw [Code.emit, List.foldlM_append]
    refine (ih got (by omega) (by omega) (by omega) base early).bind fun next got => ?_
    have read := reads_next around near got (by omega) (by omega) instruction (by omega) (by omega)
      (by omega)
    rw [Int.add_assoc, Int.add_assoc] at read
    exact read.bind fun _ => id
  | loop before body ihBefore _ =>
    rw [Code.emit, List.foldlM_append]
    exact (ihBefore got first last small base ends).bind fun next got => trivial
  | region before fast body ihBefore ihBody =>
    have early := before.between
    have late := body.between
    have mass := body.mass_nonneg
    simp only [Code.low, Code.high, Code.mass, Code.shift] at first last small ⊢
    rw [Code.emit, List.foldlM_append]
    refine (ihBefore got (by omega) (by omega) (by omega) base early).bind fun next got => ?_
    rw [List.foldlM_cons]
    refine (reads_boundary around near got (by omega) (by omega) _ (by cases fast <;> rfl)
      (by omega)).bind fun entered got => ?_
    rw [List.foldlM_append]
    refine (ihBody got (by omega) (by omega) (by omega) _ late).bind fun reading got => ?_
    have read := reads_boundary around near got (by omega) (by omega)
      { opcode := if fast then .popFast else .pop, link := base + before.size true }
      (by cases fast <;> rfl) (by omega)
    rw [Int.add_assoc, Int.add_assoc] at read
    simp only [Code.regionEnd, Bool.true_or, if_true, List.foldlM_cons, List.foldlM_nil]
    exact read.bind fun _ => id

include near in
theorem sound_finish {place : Int} (got : Got low high place limit fusion) (left : low ≤ place)
    (right : place ≤ high) : Sound (fun _ => True) fusion.finish := by
  obtain ⟨next, flushed, -⟩ := flush_ok near got left right
  unfold finish
  split
  · trivial
  · split
    · trivial
    · rw [flushed]
      trivial

end Loop.Fusion

/-! ### Looking at a loop -/

section Judging

variable {outers : List Code} {outer body : Code} {text : Text} {start : Nat}
  (closed : Closed outers outer body text start)

include closed

theorem Loop.sound_counted (small : body.extent ≤ operandLimit) :
    Sound (fun _ => True) (counted text start) := by
  have ends := body.between
  have mass := body.mass_nonneg
  unfold Code.extent at small
  have fresh : Fusion.Got body.low body.high 0 0 {} := ⟨rfl, ends.1, ends.2.1, Int.le_refl _⟩
  have near : body.high - body.low ≤ operandLimit := by omega
  have read := Fusion.reads_emit ⟨ends.1, ends.2.1⟩ near body fresh (by omega) (by omega) (by omega)
    (start + 1)
  have size : text.bodySize start = .ok _ := if_pos (by have := closed.size; omega)
  unfold counted Fusion.ofBody
  rw [Array.foldlM_start_stop, ← Array.foldlM_toList, closed.toList_extract]
  simp only [bind_assoc]
  refine sound_lift size (read.bind fun fusion got => ?_)
  refine (Fusion.sound_finish near got (by omega) (by omega)).bind fun _ _ => trivial

theorem Loop.soleBody_ok : ∃ sole, text.soleBody start = .ok sole := by
  have size : text.bodySize start = .ok _ := if_pos (by have := closed.size; omega)
  rw [Text.soleBody, size]
  simp only [bind, Except.bind]
  split <;> exact ⟨_, rfl⟩

theorem Loop.dead_ok : ∃ edit, dead text start = .ok edit := by
  have size := closed.size
  cases start with
  | zero => exact ⟨_, rfl⟩
  | succ before =>
    rw [dead, Array.getElem?_eq_getElem (by omega)]
    exact ⟨_, rfl⟩

theorem Loop.empty_ok : ∃ edit, empty text start = .ok edit := by
  have size := closed.size
  rw [empty, if_neg (by omega)]
  exact ⟨_, rfl⟩

omit closed in
theorem Loop.grow_ok {first step : Instruction}
    (small : first.opcode = .reset → step.opcode = .move →
      step.value.natAbs ≤ operandLimit ∧ first.value.natAbs < operandLimit) :
    ∃ wider, grow first step = .ok wider := by
  unfold grow
  split
  · next opcodes =>
    obtain ⟨near, less⟩ := small opcodes.1 opcodes.2
    have distance : operand step.value.natAbs = .ok _ := operand_ok (by omega) near
    have wider : operand (first.value + 1) = .ok _ := operand_ok (by omega) (by omega)
    rw [distance, wider]
    simp only [bind, Except.bind]
    split <;> exact ⟨_, rfl⟩
  · exact ⟨_, rfl⟩

/-- A reset and a step before the loop are not too large to grow. -/
theorem Loop.cleared_ok (small : outer.extent < operandLimit) :
    ∃ edit, cleared text start = .ok edit := by
  have grown {first step : Instruction} (second : text.before start 2 = some first)
      (previous : text.before start 1 = some step) : ∃ wider, grow first step = .ok wider := by
    refine grow_ok fun reset move => ?_
    rw [closed.before_one] at previous
    obtain ⟨between, behind⟩ := eq_plain_of_getLast? previous (by rw [move]; rfl)
    rw [closed.before_two behind] at second
    obtain ⟨before, rfl⟩ := eq_plain_of_getLast? second (by rw [reset]; rfl)
    rw [behind] at small
    have distance := Code.value_le_extent (before.plain first) (.inl move)
    have count := Code.value_le_extent before (.inr (.inr (.inr reset)))
    have less := Code.extent_le_plain (before.plain first) step
    omega
  unfold cleared
  simp only
  split
  · exact ⟨_, rfl⟩
  · split
    · next second previous =>
      obtain ⟨wider, grown⟩ := grown second previous
      rw [grown]
      cases wider <;> exact ⟨_, rfl⟩
    · exact ⟨_, rfl⟩

theorem Loop.clearing_ok (small : outer.extent < operandLimit) :
    ∃ edit, clearing text start = .ok edit := by
  obtain ⟨sole, found⟩ := soleBody_ok closed
  obtain ⟨edit, cleared⟩ := cleared_ok closed small
  rw [clearing, found]
  cases sole with
  | none => exact ⟨_, rfl⟩
  | some step =>
    simp only [bind, Except.bind, cleared]
    split <;> exact ⟨_, rfl⟩

theorem Loop.scanning_ok : ∃ edit, scanning text start = .ok edit := by
  obtain ⟨sole, found⟩ := soleBody_ok closed
  rw [scanning, found]
  cases sole with
  | none => exact ⟨_, rfl⟩
  | some step =>
    simp only [bind, Except.bind]
    split <;> exact ⟨_, rfl⟩

/-- Every pass comes to a verdict. -/
theorem judge_ok (around : outer.extent < operandLimit) (inside : body.extent ≤ operandLimit)
    (pass : Pass) : ∃ verdict, pass.judge text start = .ok verdict := by
  cases pass with
  | commentBlock =>
    obtain ⟨edit, judged⟩ := dead_ok closed
    exact ⟨⟨edit, none⟩, by rw [Pass.judge, judged]; rfl⟩
  | reset =>
    obtain ⟨edit, judged⟩ := clearing_ok closed around
    exact ⟨⟨edit, none⟩, by rw [Pass.judge, judged]; rfl⟩
  | seek =>
    obtain ⟨edit, judged⟩ := scanning_ok closed
    exact ⟨⟨edit, none⟩, by rw [Pass.judge, judged]; rfl⟩
  | emptyLoop =>
    obtain ⟨edit, judged⟩ := empty_ok closed
    exact ⟨⟨edit, none⟩, by rw [Pass.judge, judged]; rfl⟩
  | setFolding => exact ⟨_, rfl⟩
  | multiplication =>
    have sound := sound_counted closed inside
    rw [Pass.judge]
    cases judged : counted text start with
    | ok edit => exact ⟨_, rfl⟩
    | error obstacle =>
      rw [judged] at sound
      cases obstacle with
      | refusal refusal => exact ⟨_, rfl⟩
      | fault fault => exact sound.elim

/-- **The passes come to an answer** about every loop. -/
theorem improve_ok (around : outer.extent < operandLimit) (inside : body.extent ≤ operandLimit)
    (passes : Passes) : ∃ improvement, improve passes text start = .ok improvement := by
  unfold improve
  generalize Pass.onLoops = order
  induction order with
  | nil => exact ⟨_, rfl⟩
  | cons pass order ih =>
    obtain ⟨verdict, judged⟩ := judge_ok closed around inside pass
    obtain ⟨later, improved⟩ := ih
    rw [improveBy, judged, improved]
    simp only [bind, Except.bind]
    split
    · split <;> exact ⟨_, rfl⟩
    · exact ⟨_, rfl⟩

end Judging

/-! ### Taking in tokens -/

section Taking

variable {passes : Passes} {draft : Draft} {outers : List Code} {code : Code}
  (depicts : draft.Depicts outers code)

include depicts

theorem accumulate_ok {opcode : Opcode} {amount : Int} (written : opcode = .move ∨ opcode = .add)
    (one : amount = 1 ∨ amount = -1) (small : code.extent < operandLimit) (folding : Bool) :
    ∃ text, draft.text.accumulate folding opcode amount = .ok text := by
  have back : draft.text.back? = (layout outers code).getLast? := by
    rw [← depicts.text, Array.getLast?_toList]
  have summed {last : Instruction} (found : draft.text.back? = some last)
      (joins : last.opcode = .move ∨ last.opcode = .add ∨ last.opcode = .set ∨ last.opcode = .reset) :
      operand (last.value + amount) = .ok (last.value + amount) := by
    have plain : last.opcode.isBoundary = false := by
      rcases joins with same | same | same | same <;> rw [same] <;> rfl
    obtain ⟨before, rfl⟩ := eq_plain_of_getLast? (back.symm.trans found) plain
    have less := before.value_le_extent joins
    exact operand_ok (by omega) (by omega)
  unfold Text.accumulate
  split
  · exact ⟨_, rfl⟩
  · next last found =>
    split
    · next same =>
      have joins : last.opcode = .move ∨ last.opcode = .add ∨ last.opcode = .set ∨
          last.opcode = .reset := by
        rcases written with rfl | rfl
        · exact .inl same
        · exact .inr (.inl same)
      rw [summed found joins]
      simp only [bind, Except.bind]
      split <;> exact ⟨_, rfl⟩
    · split
      · next constant =>
        rw [summed found (.inr (.inr (.inl constant.2.2)))]
        exact ⟨_, rfl⟩
      · split <;> exact ⟨_, rfl⟩

theorem fold_ok {opcode : Opcode} {amount : Int} (written : opcode = .move ∨ opcode = .add)
    (one : amount = 1 ∨ amount = -1) (small : code.extent < operandLimit) :
    ∃ next, draft.fold passes opcode amount = .ok next := by
  obtain ⟨text, accumulated⟩ := accumulate_ok depicts written one small (passes .setFolding)
  rw [Draft.fold, accumulated]
  exact ⟨_, rfl⟩

theorem closeLoop_ok (nested : outers ≠ []) (small : code.extent + extents outers < operandLimit)
    (bracket : Token) : ∃ next, draft.closeLoop passes bracket = .ok next := by
  rcases draft with ⟨text, waiting, diagnostics⟩
  cases outers with
  | nil => exact (nested rfl).elim
  | cons outer outers =>
    cases waiting with
    | nil => cases depicts.waiting
    | cons innermost waiting =>
      obtain ⟨start, opened⟩ := innermost
      obtain rfl : start = (layout outers outer).length := (List.cons.inj depicts.waiting).1
      have inside : (layout outers outer).length < text.size := by
        have whole : text.size = (layout (outer :: outers) code).length :=
          Array.length_toList.symm.trans (congrArg List.length depicts.text)
        rw [whole, layout_cons, List.length_append, List.length_cons]
        omega
      have ended : text.close (layout outers outer).length = .ok _ := if_pos inside
      have closed := closed_of_close depicts.text ended
      have extended (code : Code) := code.extent_nonneg
      have rest : 0 ≤ extents outers := extents_nonneg outers
      have body := extended code
      have around := extended outer
      simp only [extents] at small
      obtain ⟨improvement, improved⟩ := improve_ok closed (by omega) (by omega) passes
      rw [Draft.closeLoop, ended]
      simp only [improved]
      exact ⟨_, rfl⟩

/-- A draft takes in a token, unless that is a closing bracket and no loop is open. -/
theorem take_ok (token : Token) (paired : token.symbol = .closing → outers ≠ [])
    (small : code.extent + extents outers < operandLimit) :
    ∃ next, draft.take passes token = .ok next := by
  have rest := extents_nonneg outers
  rcases token with ⟨symbol, place⟩
  cases symbol with
  | right | left => exact fold_ok depicts (.inl rfl) (by omega) (by omega)
  | increment | decrement => exact fold_ok depicts (.inr rfl) (by omega) (by omega)
  | write | read | opening => exact ⟨_, rfl⟩
  | closing => exact closeLoop_ok depicts (paired rfl) small _

end Taking

/-! ### Sources with all brackets paired -/

/-- How many brackets are open behind the symbols, if so many were before, unless one of them closes
without a partner. -/
def Symbol.opened : Nat → List Symbol → Option Nat
  | depth, [] => some depth
  | depth, .opening :: rest => opened (depth + 1) rest
  | 0, .closing :: _ => none
  | depth + 1, .closing :: rest => opened depth rest
  | depth, _ :: rest => opened depth rest

/-- Every bracket has its partner. -/
def Source.Balanced (source : Source) : Prop :=
  Symbol.opened 0 source.symbols = some 0

instance (source : Source) : Decidable source.Balanced :=
  inferInstanceAs (Decidable (_ = _))

/-- What the symbols say about the brackets is what the codes around the open loops say. -/
theorem length_of_takes {passes : Passes} {may : Code → Prop} {symbol : Symbol}
    {outers around : List Code} {code written : Code} {rest : List Symbol}
    (takes : Takes passes may symbol outers code around written) :
    Symbol.opened outers.length (symbol :: rest) = Symbol.opened around.length rest := by
  cases takes with
  | fold folds => cases symbol <;> first | rfl | cases folds
  | write | read | opening | closing => rfl

/-- **A source with all brackets paired is a program**, whichever passes are asked for. -/
theorem assemble_of_balanced {source : Source} (balanced : source.Balanced)
    (short : source.length < 0x80000000) (passes : Passes) :
    ∃ assembly, assemble passes source = .ok assembly := by
  have length := length_tokens_le source
  suffices taken : ∃ draft code, (scan source).tokens.toList.foldlM (Draft.take passes) Draft.empty =
      .ok draft ∧ draft.Depicts [] code by
    obtain ⟨draft, code, taken, depicts⟩ := taken
    obtain ⟨text, -, finished⟩ := finish_of_depicts depicts passes
    refine ⟨_, Eq.trans ?_ finished⟩
    rw [assemble, ← Array.foldlM_toList, taken]
    rfl
  have general : ∀ (unread : List Token) (read : List Symbol) (draft : Draft) (outers : List Code)
      (code : Code), read.length + unread.length ≤ source.length → draft.Depicts outers code →
        Reached passes (fun _ => True) read outers code →
          Symbol.opened outers.length (unread.map Token.symbol) = some 0 →
            ∃ last code, unread.foldlM (Draft.take passes) draft = .ok last ∧
              last.Depicts [] code := by
    intro unread
    induction unread with
    | nil =>
      intro read draft outers code _ depicts _ paired
      obtain rfl : outers = [] := List.length_eq_zero_iff.mp (Option.some.inj paired)
      exact ⟨draft, code, rfl, depicts⟩
    | cons token unread ih =>
      intro read draft outers code room depicts reached paired
      rw [List.length_cons] at room
      have extent := reached.extent_le
      have matched : token.symbol = .closing → outers ≠ [] := by
        rintro closes rfl
        rw [List.map_cons, closes] at paired
        cases paired
      obtain ⟨next, taken⟩ := take_ok depicts token matched (by unfold operandLimit; omega)
      obtain ⟨around, written, depicted, takes⟩ :=
        takes_of_take depicts (fun _ => True) taken fun _ _ _ _ _ _ _ => trivial
      rw [List.map_cons, length_of_takes takes] at paired
      obtain ⟨last, final, folded, closed⟩ := ih (read ++ [token.symbol]) next around written
        (by rw [List.length_append, List.length_singleton]; omega) depicted (reached.step takes) paired
      exact ⟨last, final, by rw [List.foldlM_cons, taken]; exact folded, closed⟩
  exact general _ [] _ [] _ (by simpa using length) depicts_empty .start balanced

end TapeMachine
