/-
**The codes that symbols lead to.**

* `Reached`: what any symbols can lead to, one after the other;
* `Reached.invariant`: what is kept by everything that is written;
* `Reached.length_le`: the text is never longer than the source;
* `reached_of_foldlM`: a draft that takes in tokens has codes to which their symbols lead.
-/

import TapeMachine.Proofs.Assembly.Taking

namespace TapeMachine

/-- The symbols lead to the codes around the open loops and to the code being written. -/
inductive Reached (passes : Passes) (may : Code → Prop) : List Symbol → List Code → Code → Prop where
  | start : Reached passes may [] [] .empty
  | step {symbols : List Symbol} {symbol : Symbol} {outers around : List Code} {code written : Code}
      (before : Reached passes may symbols outers code)
      (takes : Takes passes may symbol outers code around written) :
      Reached passes may (symbols ++ [symbol]) around written

/-- What the last symbol did. -/
theorem Reached.last {passes : Passes} {may : Code → Prop} {symbols : List Symbol} {symbol : Symbol}
    {around : List Code} {written : Code}
    (reached : Reached passes may (symbols ++ [symbol]) around written) :
    ∃ outers code, Reached passes may symbols outers code ∧
      Takes passes may symbol outers code around written := by
  generalize whole : symbols ++ [symbol] = all at reached
  cases reached with
  | start => simp at whole
  | step before takes =>
    obtain ⟨rfl, same⟩ := List.append_inj' whole rfl
    obtain rfl := List.singleton_inj.mp same
    exact ⟨_, _, before, takes⟩

/-! ### The length of the text -/

namespace Code

theorem size_moveTo (woven : Woven) (target : Int) :
    (woven.moveTo target).code.size true ≤
      woven.code.size true + if target = woven.cursor then 0 else 1 := by
  unfold Woven.moveTo
  split <;> simp [size]

/-- What is woven is no longer than the body, with the move that was put off. -/
theorem size_weave {inner : Bool} {code : Code} (straight : code.Straight inner) :
    (code.weave.code.size true + if code.shift = code.weave.cursor then 0 else 1) ≤
      code.size true := by
  induction code generalizing inner with
  | empty => simp [weave, shift, size]
  | plain before instruction ih =>
    have early := ih straight.1
    rcases weave_plain_cases straight.2.1 with same | ⟨target, product, same⟩ | ⟨-, same⟩
    · rw [same, size]
      split at early <;> split <;> omega
    · have still : instruction.shift = 0 := by
        unfold Instruction.shift
        rcases product with ⟨opcode, -⟩ | ⟨opcode, -⟩ <;> rw [opcode]
      rw [same, size, Woven.cursor_multiply, shift, still, Int.add_zero]
      simp only [Woven.multiply, Woven.write, size]
      omega
    · have moved := size_moveTo before.weave before.shift
      rw [same, size, shift, if_pos rfl]
      simp only [size]
      omega
  | loop before body _ _ => exact straight.elim
  | region before fast body ihBefore ihBody =>
    obtain ⟨outer, -, -, inside, -, -⟩ := straight
    have early := ihBefore outer
    have late := ihBody inside
    have movedBefore := size_moveTo before.weave before.shift
    have movedBody := size_moveTo body.weave body.shift
    simp only [weave, shift, size, if_true, regionEnd, Bool.true_or, List.length_singleton] at *
    omega

/-- A counted loop is replaced by no more instructions. -/
theorem size_fuse {body : Code} (counted : body.Counted) :
    body.fuse.size true ≤ body.size true + 2 := by
  have woven := size_weave counted.straight
  have moved := size_moveTo body.weave body.shift
  rcases body.fuse_cases with ⟨product, -, -, same⟩ | ⟨-, same⟩
  · rw [same]
    simp only [size]
    omega
  · rw [same]
    simp only [size, Code.woven, regionEnd, Bool.true_or, if_true, List.length_singleton]
    omega

theorem size_extend (code : Code) (folding : Bool) (opcode : Opcode) (amount : Int) :
    (code.extend folding opcode amount).size true ≤ code.size true + 1 := by
  cases code with
  | plain before last =>
    rw [extend]
    repeat' split
    all_goals simp only [size]; omega
  | empty | loop before body | region before fast body => exact Nat.le_refl _

end Code

theorem size_of_closes {passes : Passes} {may : Code → Prop} {outermost : Bool}
    {outer body code : Code} (closes : Closes passes may outermost outer body code) :
    code.size true ≤ outer.size true + body.size true + 2 := by
  cases closes with
  | kept => exact Nat.le_refl _
  | first | dead | again | emptied => omega
  | wider enabled sole odd behind =>
    rw [behind]
    simp only [Code.size]
    omega
  | cleared | sought =>
    simp only [Code.size]
    omega
  | fused enabled counted =>
    have fused := Code.size_fuse counted
    rw [Code.size_append]
    omega

section Reaching

variable {passes : Passes} {may : Code → Prop}

/-- The text is never longer than the source. -/
theorem Reached.length_le {symbols : List Symbol} {outers : List Code} {code : Code}
    (reached : Reached passes may symbols outers code) :
    (layout outers code).length ≤ symbols.length := by
  induction reached with
  | start => exact Nat.le_refl _
  | step before takes ih =>
    rw [List.length_append, List.length_singleton]
    rw [length_layout] at ih ⊢
    cases takes with
    | fold folds =>
      have extended := Code.size_extend ‹Code› (passes .setFolding)
      exact Nat.le_trans (Nat.add_le_add_left (extended _ _) _) (Nat.succ_le_succ ih)
    | write | read => exact Nat.succ_le_succ ih
    | opening =>
      rw [preamble_cons, List.length_append, List.length_singleton, length_layout]
      simp only [Code.size]
      omega
    | closing closes =>
      have closed := size_of_closes closes
      rw [preamble_cons, List.length_append, List.length_singleton, length_layout] at ih
      omega

/-- What holds of the empty code and is kept by everything that is written holds on all levels. -/
theorem Reached.invariant {holds : Code → Prop} {symbols : List Symbol} {outers : List Code}
    {code : Code} (reached : Reached passes may symbols outers code) (empty : holds .empty)
    (extend : ∀ code opcode amount, opcode = .move ∨ opcode = .add → amount = 1 ∨ amount = -1 →
      holds code → holds (code.extend (passes .setFolding) opcode amount))
    (plain : ∀ code opcode, opcode = .output ∨ opcode = .input → holds code →
      holds (code.plain { opcode := opcode }))
    (closes : ∀ outermost outer body code, Closes passes may outermost outer body code →
      holds outer → holds body → holds code) : holds code ∧ ∀ outer ∈ outers, holds outer := by
  induction reached with
  | start => exact ⟨empty, fun _ member => absurd member List.not_mem_nil⟩
  | step before takes ih =>
    obtain ⟨here, around⟩ := ih
    cases takes with
    | fold folds =>
      obtain ⟨written, one⟩ := folds?_eq_some folds
      exact ⟨extend _ _ _ written one here, around⟩
    | write => exact ⟨plain _ _ (.inl rfl) here, around⟩
    | read => exact ⟨plain _ _ (.inr rfl) here, around⟩
    | opening =>
      refine ⟨empty, fun outer member => ?_⟩
      rcases List.mem_cons.mp member with rfl | old
      · exact here
      · exact around outer old
    | closing closed =>
      exact ⟨closes _ _ _ _ closed (around _ (List.mem_cons_self ..)) here,
        fun other member => around other (List.mem_cons_of_mem _ member)⟩

/-- The codes are made as drafts are. -/
theorem Reached.proper {symbols : List Symbol} {outers : List Code} {code : Code}
    (reached : Reached passes may symbols outers code) :
    code.Proper ∧ ∀ outer ∈ outers, outer.Proper := by
  refine reached.invariant trivial ?_ ?_ ?_
  · intro code opcode amount written one proper
    exact Code.proper_extend proper written (by omega)
  · intro code opcode plain proper
    refine ⟨proper, by rcases plain with rfl | rfl <;> simp, .of_bare ?_⟩
    rcases plain with rfl | rfl <;> rfl
  · exact fun outermost outer body code closes around inside => proper_of_closes closes around inside

/-- A draft that takes in tokens has codes to which their symbols lead. -/
theorem reached_of_foldlM {tokens : List Token} {draft : Draft}
    (taken : tokens.foldlM (Draft.take passes) Draft.empty = .ok draft)
    (fusible : ∀ read token unread reading closed start outers outer code,
      tokens = read ++ token :: unread → token.symbol = .closing →
        read.foldlM (Draft.take passes) Draft.empty = .ok reading →
          reading.fusing passes = some (closed, start) → Closed outers outer code closed start → may code) :
    ∃ outers code, draft.Depicts outers code ∧
      Reached passes may (tokens.map Token.symbol) outers code := by
  suffices general : ∀ unread read reading outers code, tokens = read ++ unread →
      read.foldlM (Draft.take passes) Draft.empty = .ok reading → reading.Depicts outers code →
        Reached passes may (read.map Token.symbol) outers code →
          unread.foldlM (Draft.take passes) reading = .ok draft →
            ∃ outers code, draft.Depicts outers code ∧
              Reached passes may (tokens.map Token.symbol) outers code from
    general tokens [] Draft.empty [] .empty rfl rfl depicts_empty .start taken
  intro unread
  induction unread with
  | nil =>
    rintro read reading outers code rfl - depicts reached rest
    obtain rfl := pure_eq_ok.mp rest
    exact ⟨outers, code, depicts, by rwa [List.append_nil]⟩
  | cons token unread ih =>
    intro read reading outers code parts first depicts reached rest
    rw [List.foldlM_cons, bind_eq_ok] at rest
    obtain ⟨next, second, rest⟩ := rest
    obtain ⟨around, written, depicted, takes⟩ := takes_of_take depicts may second
      fun closed start outers outer closes fuses shape =>
        fusible read token unread reading closed start outers outer code parts closes first fuses
          shape
    refine ih (read ++ [token]) next around written ?_ ?_ depicted ?_ rest
    · rw [parts, List.append_assoc]
      rfl
    · rw [List.foldlM_append, first]
      simp only [bind, Except.bind, List.foldlM_cons, List.foldlM_nil, second]
      rfl
    · rw [List.map_append]
      exact reached.step takes

end Reaching

end TapeMachine
