/-
**What a loop that only moves and adds is replaced by.**

The additions of such a loop become one `store`, or a region of products without the stack. Whatever the
counter is, that adds the counter times what the body adds in one turn, and clears the counter.

* `row`, `ofAdditions`: the products, and the code that is made of the additions;
* `Fusion.toList_region_summary`: it is what is written;
* `cells_row`, `visited_row`: what the products do to the cells, and where they get to;
* `cells_ofAdditions`: the closed form of the whole code;
* `Multiplied`, `InReach`: what becomes of the tape, unless a cell that is added to has no index;
* `Linear`, `linear_of_onlyAdds`: which of these loops are replaced, and what that does.
-/

import TapeMachine.Proofs.Counted.Additions
import TapeMachine.Proofs.Counted.Replacement

namespace TapeMachine

/-- An amount is added to one cell. -/
theorem Sight.cells_addAt (sight : Sight) (distance : Int) (amount : UInt8) (cell : Int) :
    (sight.addAt distance amount).cells cell =
      sight.cells cell + if cell = sight.index + distance then amount else 0 := by
  show (if cell = _ then _ else _) = _
  split
  · next there => rw [there]
  · rw [UInt8.add_zero]

namespace Loop

/-- The products, one behind the other. -/
def row (all : List Addition) : Code :=
  all.foldl (fun code addition => code.plain addition.product) .empty

/-- What the additions become: one alone a `store`, and otherwise a region of products. -/
def ofAdditions : List Addition → Code
  | [alone] => Code.empty.plain { opcode := .store, value := alone.amount, offset := alone.offset }
  | all => Code.empty.region true (row all)

variable {all : List Addition} {body : List Instruction}

theorem ofAdditions_cases (all : List Addition) :
    (∃ alone, all = [alone] ∧ ofAdditions all =
      Code.empty.plain { opcode := .store, value := alone.amount, offset := alone.offset }) ∨
      all.length ≠ 1 ∧ ofAdditions all = Code.empty.region true (row all) := by
  rcases all with _ | ⟨first, _ | ⟨second, rest⟩⟩
  · exact .inr ⟨by simp, rfl⟩
  · exact .inl ⟨first, rfl, rfl⟩
  · exact .inr ⟨by simp, rfl⟩

/-! ### The code -/

theorem row_concat (all : List Addition) (last : Addition) :
    row (all ++ [last]) = (row all).plain last.product := by
  simp [row]

theorem bare_row (all : List Addition) : (row all).bare = all.map Addition.product := by
  induction all using List.reverseRecOn with
  | nil => rfl
  | append_singleton before last ih =>
    rw [row_concat, Code.bare_plain rfl, ih, List.map_append]
    rfl

theorem emit_row (keep : Bool) (base : Nat) (all : List Addition) :
    (row all).emit keep base = all.map Addition.product := by
  induction all using List.reverseRecOn with
  | nil => rfl
  | append_singleton before last ih =>
    rw [row_concat, Code.emit, ih, List.map_append]
    rfl

theorem size_row (keep : Bool) (all : List Addition) : (row all).size keep = all.length := by
  rw [← Code.length_emit keep 0, emit_row, List.length_map]

theorem sound_product (addition : Addition) : addition.product.Sound :=
  .of_product List.mem_cons_self _ _

theorem leaf_row (all : List Addition) : (row all).Leaf := by
  induction all using List.reverseRecOn with
  | nil => trivial
  | append_singleton before last ih =>
    rw [row_concat]
    exact ih

theorem straight_row (all : List Addition) : (row all).Straight true := by
  induction all using List.reverseRecOn with
  | nil => trivial
  | append_singleton before last ih =>
    rw [row_concat]
    exact ⟨ih, .inr rfl, sound_product last⟩

theorem shift_row (all : List Addition) : (row all).shift = 0 := by
  induction all using List.reverseRecOn with
  | nil => rfl
  | append_singleton before last ih =>
    rw [row_concat, Code.shift, ih]
    rfl

/-- Products work where they add, and nowhere else. -/
theorem touches_row {cell : Int} (touches : (row all).Touches cell) :
    ∃ addition ∈ all, cell = addition.offset := by
  induction all using List.reverseRecOn with
  | nil => simp [row, Code.Touches, Code.Counts, Code.Targets, Code.Assigns] at touches
  | append_singleton before last ih =>
    rw [row_concat, Code.touches_plain, shift_row, Int.sub_zero] at touches
    rcases touches with early | works
    · obtain ⟨addition, member, same⟩ := ih early
      exact ⟨addition, List.mem_append_left _ member, same⟩
    · refine ⟨last, List.mem_append_right _ List.mem_cons_self, ?_⟩
      simpa [Instruction.Works, Instruction.Targets, Instruction.Assigns, Addition.product] using works

theorem straight_ofAdditions (away : ∀ addition ∈ all, addition.offset ≠ 0) :
    (ofAdditions all).Straight false := by
  rcases ofAdditions_cases all with ⟨alone, -, same⟩ | ⟨-, same⟩
  · rw [same]
    exact ⟨trivial, .inl (by simp), .of_product (by simp) _ _⟩
  · rw [same]
    refine ⟨trivial, by rintro ⟨⟩, fun _ => leaf_row all, straight_row all, shift_row all, ?_⟩
    intro touches
    obtain ⟨addition, member, zero⟩ := touches_row touches
    exact away addition member zero.symm

theorem offset_ne_zero_of_elsewhere (all : List Addition) :
    ∀ addition ∈ elsewhere all, addition.offset ≠ 0 := by
  intro addition member
  simpa using (List.mem_filter.mp member).2

/-- What is written in place of the loop is the code of its additions. -/
theorem Fusion.toList_region_summary (body : List Instruction) (base : Nat) :
    ((Fusion.summary body).region base).toList =
      (ofAdditions (elsewhere (additions 0 body))).emit true base := by
  have away := offset_ne_zero_of_elsewhere (additions 0 body)
  have straight := straight_ofAdditions away
  rcases ofAdditions_cases (elsewhere (additions 0 body)) with ⟨alone, sole, same⟩ | ⟨several, same⟩
  · rw [same]
    simp [Fusion.region, Fusion.summary, sole, Addition.product, Option.filter, Code.emit]
  · rw [same] at straight ⊢
    have none : ¬ ((Fusion.summary body).leaf = true ∧ (Fusion.summary body).operations.size = 1) := by
      simpa [Fusion.summary] using several
    have written : Region.link base ((#[({ opcode := .pushFast } : Instruction)] ++
        (Fusion.summary body).operations).push { opcode := .popFast }) =
          ((Code.empty.region true (row (elsewhere (additions 0 body)))).emit true base).toArray := by
      rw [← Code.link_bare straight, Code.bare_region, bare_row]
      congr 1
      simp [Fusion.summary, Code.bare, Code.emit]
    unfold Fusion.region
    simp only [if_neg none, Option.filter_none]
    exact congrArg Array.toList written

/-! ### What the products do -/

theorem totalAt_concat (offset : Int) (all : List Addition) (last : Addition) :
    totalAt offset (all ++ [last]) =
      totalAt offset all + if last.offset = offset then last.amount else 0 := by
  rw [totalAt_append]
  simp [totalAt]

/-- What is added to another cell than the counter is added elsewhere. -/
theorem totalAt_elsewhere {offset : Int} (away : offset ≠ 0) (all : List Addition) :
    totalAt offset (elsewhere all) = totalAt offset all := by
  induction all using List.reverseRecOn with
  | nil => rfl
  | append_singleton before last ih =>
    have parts : elsewhere (before ++ [last]) = elsewhere before ++ elsewhere [last] :=
      List.filter_append ..
    rw [parts, totalAt_append, ih, totalAt_concat]
    by_cases counter : last.offset = 0
    · simp [elsewhere, totalAt, counter, Ne.symm away]
    · simp [elsewhere, totalAt, counter]

/-- What one addition contributes to a cell, times a factor. -/
theorem mul_ofInt_amount (factor : UInt8) (addition : Addition) (index cell : Int) :
    factor * UInt8.ofInt (if addition.offset = cell - index then addition.amount else 0) =
      if cell = index + addition.offset then factor * UInt8.ofInt addition.amount else 0 := by
  by_cases there : cell = index + addition.offset
  · rw [if_pos there, if_pos (by omega)]
  · rw [if_neg there, if_neg (by omega)]
    exact UInt8.mul_zero

section Row

variable (keep : Bool) (register : UInt8) (sight : Sight)

theorem index_row (all : List Addition) :
    ((row all).sweep keep register sight).index = sight.index := by
  rw [Code.index_sweep (straight_row all), shift_row, Int.add_zero]

/-- Products add to every cell the register times what is added there. -/
theorem cells_row (all : List Addition) (cell : Int) :
    ((row all).sweep keep register sight).cells cell =
      sight.cells cell + register * UInt8.ofInt (totalAt (cell - sight.index) all) := by
  induction all using List.reverseRecOn with
  | nil =>
    show sight.cells cell = sight.cells cell + register * 0
    rw [UInt8.mul_zero, UInt8.add_zero]
  | append_singleton before last ih =>
    rw [row_concat, Code.sweep, totalAt_concat]
    show (Sight.addAt _ last.offset (register * UInt8.ofInt last.amount)).cells cell = _
    rw [Sight.cells_addAt, index_row, ih, UInt8.ofInt_add, UInt8.mul_add, UInt8.add_assoc,
      mul_ofInt_amount]

/-- They get to the cells that they add to. -/
theorem visited_row (all : List Addition) (cell : Int) :
    cell ∈ ((row all).sweep keep register sight).visited ↔
      (∃ addition ∈ all, cell = sight.index + addition.offset) ∨ cell ∈ sight.visited := by
  induction all using List.reverseRecOn with
  | nil => simp [row, Code.sweep]
  | append_singleton before last ih =>
    rw [row_concat, Code.sweep]
    show cell ∈ (_ + last.offset) :: _ ↔ _
    rw [index_row, List.mem_cons, ih]
    simp only [List.mem_append, List.mem_singleton, or_and_right, exists_or, exists_eq_left]
    exact or_assoc.symm.trans (or_congr_left or_comm)

end Row

theorem totalAt_eq_zero {offset : Int} (apart : ∀ addition ∈ all, addition.offset ≠ offset) :
    totalAt offset all = 0 := by
  induction all with
  | nil => rfl
  | cons first rest ih =>
    have later := ih fun addition member => apart addition (List.mem_cons_of_mem _ member)
    have none : ¬ first.offset = offset := apart first List.mem_cons_self
    simpa [totalAt, none] using later

theorem shift_ofAdditions (all : List Addition) : (ofAdditions all).shift = 0 := by
  rcases ofAdditions_cases all with ⟨alone, -, same⟩ | ⟨-, same⟩
  · rw [same]
    rfl
  · rw [same, Code.shift, shift_row]
    rfl

section Whole

variable (keep : Bool) (register : UInt8) {sight : Sight}

/-- A `store` whose counter is not zero. -/
theorem sweep_store (marked : sight.cell ≠ 0) (alone : Addition) :
    (Code.empty.plain ⟨.store, alone.amount, alone.offset, 0⟩).sweep keep register sight =
      ((sight.addAt alone.offset (sight.cell * UInt8.ofInt alone.amount)).write 0).tick :=
  if_neg marked

/-- A region of products whose counter is not zero. -/
theorem sweep_region_row (marked : sight.cell ≠ 0) (all : List Addition) :
    (Code.empty.region true (row all)).sweep keep register sight =
      ((row all).sweep keep sight.cell (sight.enter true)).leave keep true :=
  if_neg marked

/-- Where the counter is zero, nothing happens. -/
theorem sweep_of_zero (zero : sight.cell = 0) :
    (ofAdditions all).sweep keep register sight = sight.tick := by
  rcases ofAdditions_cases all with ⟨alone, -, same⟩ | ⟨-, same⟩ <;> rw [same] <;> exact if_pos zero

/-- **The closed form.** All additions happen at once, times the counter, and the counter is cleared. -/
theorem cells_ofAdditions (away : ∀ addition ∈ all, addition.offset ≠ 0) (cell : Int) :
    ((ofAdditions all).sweep keep register sight).cells cell =
      if cell = sight.index then 0
      else sight.cells cell + sight.cell * UInt8.ofInt (totalAt (cell - sight.index) all) := by
  by_cases zero : sight.cell = 0
  · rw [sweep_of_zero keep register zero, zero, UInt8.zero_mul, UInt8.add_zero]
    split
    · next under => rwa [under]
    · rfl
  rcases ofAdditions_cases all with ⟨alone, rfl, same⟩ | ⟨-, same⟩
  · have one : totalAt (cell - sight.index) [alone] =
        if alone.offset = cell - sight.index then alone.amount else 0 := Int.add_zero _
    rw [same, sweep_store keep register zero, one, mul_ofInt_amount, ← Sight.cells_addAt]
    rfl
  · rw [same, sweep_region_row keep register zero]
    show Sight.cells ((row all).sweep keep sight.cell (sight.enter true)) cell = _
    rw [cells_row, Sight.index_enter]
    split
    · next under =>
      have cleared : (sight.enter true).cells cell = 0 := under ▸ Sight.put_self _ _ _
      rw [cleared, under, Int.sub_self, totalAt_eq_zero away]
      exact (UInt8.zero_add _).trans UInt8.mul_zero
    · next apart => rw [Sight.cells_enter_of_ne true apart]

/-- Where that gets to, unless the counter is zero. -/
theorem visited_ofAdditions (marked : sight.cell ≠ 0) (cell : Int) :
    cell ∈ ((ofAdditions all).sweep keep register sight).visited ↔
      (∃ addition ∈ all, cell = sight.index + addition.offset) ∨ cell ∈ sight.visited := by
  rcases ofAdditions_cases all with ⟨alone, rfl, same⟩ | ⟨-, same⟩
  · rw [same, sweep_store keep register marked]
    show cell ∈ (sight.index + alone.offset) :: sight.visited ↔ _
    simp
  · rw [same, sweep_region_row keep register marked, Sight.visited_leave, visited_row,
      Sight.index_enter, Sight.visited_enter]

end Whole

/-! ### Runs -/

/-- What becomes of the tape, if a loop with this body is done in one go. -/
structure Multiplied (body : List Instruction) (head last : Head) : Prop where
  /-- The head is at the counter, -/
  index : last.index = head.index
  /-- which is zero. -/
  counter : last.tape.get head.index = 0
  /-- Every other cell has grown by the counter times what the body adds to it in one turn. -/
  grown : ∀ offset ≠ 0, last.tape.get (head.index + offset) = head.tape.get (head.index + offset) +
    head.read * UInt8.ofInt (totalAt offset (additions 0 body))
  /-- Where the body adds nothing, nothing has changed. -/
  others : ∀ offset ≠ 0, (∀ addition ∈ additions 0 body, addition.offset ≠ offset) →
    last.tape.get (head.index + offset) = head.tape.get (head.index + offset)

/-- Every cell that is added to has an index, or nothing is done. -/
def InReach (body : List Instruction) (head : Head) : Prop :=
  head.read = 0 ∨
    ∀ addition ∈ additions 0 body, addition.offset ≠ 0 → Tape.IsIndex (head.index + addition.offset)

theorem multiplied_of_shows {run next : Run}
    (shows : next.Shows ((ofAdditions (elsewhere (additions 0 body))).sweep true 0 run.sight)) :
    Multiplied body run.machine.head next.machine.head := by
  have away := offset_ne_zero_of_elsewhere (additions 0 body)
  have index : ((ofAdditions (elsewhere (additions 0 body))).sweep true 0 run.sight).index =
      run.sight.index := by
    rw [Code.index_sweep (straight_ofAdditions away), shift_ofAdditions, Int.add_zero]
  have cells (cell : Int) := (shows.cells cell).trans (cells_ofAdditions true 0 away cell)
  have under : run.sight.cell = run.machine.head.read := (Head.read_eq_get _).symm
  have grown (offset : Int) (apart : offset ≠ 0) :
      next.machine.head.tape.get (run.machine.head.index + offset) =
        run.machine.head.tape.get (run.machine.head.index + offset) +
          run.machine.head.read * UInt8.ofInt (totalAt offset (additions 0 body)) := by
    have other : ¬ run.machine.head.index + offset = run.sight.index := by
      show ¬ run.machine.head.index + offset = run.machine.head.index
      omega
    have place : run.machine.head.index + offset - run.sight.index = offset := by
      show run.machine.head.index + offset - run.machine.head.index = offset
      omega
    rw [cells, if_neg other, place, totalAt_elsewhere apart, under]
    rfl
  refine ⟨shows.index.trans index, (cells _).trans (if_pos rfl), grown, ?_⟩
  intro offset apart none
  rw [grown offset apart, totalAt_eq_zero none]
  exact (congrArg _ UInt8.mul_zero).trans (UInt8.add_zero _)

theorem inRange_iff {run : Run} :
    ((ofAdditions (elsewhere (additions 0 body))).sweep true 0 run.sight).InRange ↔
      InReach body run.machine.head := by
  have under : run.sight.cell = run.machine.head.read := (Head.read_eq_get _).symm
  unfold Sight.InRange InReach
  by_cases zero : run.machine.head.read = 0
  · have still : ∀ cell ∈ run.sight.visited, Tape.IsIndex cell := fun _ member =>
      absurd member List.not_mem_nil
    rw [sweep_of_zero true 0 (under.trans zero)]
    exact ⟨fun _ => .inl zero, fun _ => still⟩
  · have marked : run.sight.cell ≠ 0 := fun same => zero (under.symm.trans same)
    constructor
    · refine fun inside => .inr fun addition member away => inside _ ?_
      exact (visited_ofAdditions true 0 marked _).mpr
        (.inl ⟨addition, List.mem_filter.mpr ⟨member, by simpa using away⟩, rfl⟩)
    · intro reach cell visited
      rcases (visited_ofAdditions true 0 marked cell).mp visited with ⟨addition, member, rfl⟩ | old
      · exact reach.resolve_left zero addition (List.mem_filter.mp member).1
          (offset_ne_zero_of_elsewhere _ addition member)
      · exact absurd old List.not_mem_nil

/-- One `store`, or products between the ends of a region without the stack. -/
def Replacement (start : Nat) (tail : Array Instruction) : Prop :=
  (∃ value offset, tail.toList = [{ opcode := .store, value := value, offset := offset }]) ∨
    ∃ products : List Instruction, (∀ product ∈ products, product.opcode = .multiply) ∧
      tail.toList = { opcode := .pushFast, link := start + products.length + 1 } ::
        (products ++ [{ opcode := .popFast, link := start }])

theorem replacement_of_toList {start : Nat} {tail : Array Instruction}
    (written : tail.toList = (ofAdditions all).emit true start) : Replacement start tail := by
  rcases ofAdditions_cases all with ⟨alone, -, same⟩ | ⟨-, same⟩
  · exact .inl ⟨alone.amount, alone.offset, written.trans (congrArg (Code.emit true start) same)⟩
  · refine .inr ⟨all.map Addition.product, ?_, ?_⟩
    · intro product member
      obtain ⟨addition, -, rfl⟩ := List.mem_map.mp member
      rfl
    · rw [written, same, Code.emit, emit_row, size_row, List.length_map]
      rfl

/-- What a pass makes of a loop that only moves and adds, and what that does. -/
structure Linear (body : List Instruction) (text : Text) (start : Nat) : Prop where
  /-- The loop is rewritten if the head comes back and the counter loses one, and only then. -/
  accepts : (∃ edit, Pass.multiplication.judge text start = .ok ⟨some edit, none⟩) ↔ CountsDown body
  /-- Otherwise it is refused. -/
  refuses : ¬ CountsDown body → Pass.multiplication.judge text start =
      .ok ⟨none, some (.uncounted (displacement body) (totalAt 0 (additions 0 body)))⟩
  /-- What is written in place of it is one `store`, or products between the ends of a region. -/
  writes : ∀ edit, Pass.multiplication.judge text start = .ok ⟨some edit, none⟩ →
    edit.keep = start ∧ Replacement start edit.tail
  /-- From every machine and at every terminal, it runs to its end and does what all turns do. -/
  computes : ∀ edit, Pass.multiplication.judge text start = .ok ⟨some edit, none⟩ →
    ∀ (head : Head) (register : UInt8) (stack : List UInt8) (terminal : Terminal), InReach body head →
      ∃ last, Run.Ends (text.apply edit) ⟨⟨head, start, register, stack⟩, terminal⟩
          (.overrun (text.apply edit).size) last ∧
        Multiplied body head last.machine.head ∧ last.machine.stack = stack ∧ last.terminal = terminal
  /-- Where a cell that is added to has no index, the run overflows. -/
  overflows : ∀ edit, Pass.multiplication.judge text start = .ok ⟨some edit, none⟩ →
    ∀ (head : Head) (register : UInt8) (stack : List UInt8) (terminal : Terminal),
      ¬ InReach body head →
        ∃ last, Run.Ends (text.apply edit) ⟨⟨head, start, register, stack⟩, terminal⟩ .overflow last

/-! ### The loop at the end of a text -/

theorem length_additions_le (here : Int) (body : List Instruction) :
    (additions here body).length ≤ body.length := by
  induction body generalizing here with
  | nil => exact Nat.le_refl _
  | cons instruction rest ih =>
    rw [additions, List.length_cons]
    split
    · exact Nat.le_succ_of_le (ih _)
    · exact Nat.succ_le_succ (ih _)
    · exact Nat.le_succ_of_le (ih _)

/-- The code is no longer than the loop. -/
theorem size_ofAdditions_le (body : List Instruction) :
    (ofAdditions (elsewhere (additions 0 body))).size true ≤ body.length + 2 := by
  have few : (elsewhere (additions 0 body)).length ≤ body.length :=
    Nat.le_trans (List.length_filter_le ..) (length_additions_le 0 body)
  rcases ofAdditions_cases (elsewhere (additions 0 body)) with ⟨alone, -, same⟩ | ⟨-, same⟩
  · rw [same]
    exact Nat.le_add_left 1 _
  · rw [same]
    show 0 + (row _).size true + 1 + 1 ≤ _
    rw [size_row]
    omega

variable {text : Text} {before : List Instruction} {first last : Instruction}

/-- What the pass answers, if all sums are operands. -/
theorem judge_of_onlyAdds (written : text.toList = before ++ first :: (body ++ [last]))
    (simple : OnlyAdds body) (fits : Fits body) :
    Pass.multiplication.judge text before.length =
      if CountsDown body then
        .ok ⟨some ⟨before.length, (Fusion.summary body).region before.length⟩, none⟩
      else .ok ⟨none, some (.uncounted (displacement body) (totalAt 0 (additions 0 body)))⟩ := by
  rcases counted_of_onlyAdds written simple with ⟨large, -⟩ | ⟨-, judged⟩
  · exact (large fits).elim
  · by_cases counts : CountsDown body
    · rw [if_pos counts] at judged ⊢
      rw [Pass.judge, judged]
      rfl
    · rw [if_neg counts] at judged ⊢
      rw [Pass.judge, judged]
      rfl

/-- What is written in place of the loop, if it is. -/
theorem eq_of_judge {edit : Edit} (written : text.toList = before ++ first :: (body ++ [last]))
    (simple : OnlyAdds body) (fits : Fits body)
    (accepted : Pass.multiplication.judge text before.length = .ok ⟨some edit, none⟩) :
    CountsDown body ∧ edit = ⟨before.length, (Fusion.summary body).region before.length⟩ := by
  rw [judge_of_onlyAdds written simple fits] at accepted
  split at accepted
  · next counts =>
    cases accepted
    exact ⟨counts, rfl⟩
  · cases accepted

/-- The text with the code in place of the loop. -/
theorem toList_apply_region (written : text.toList = before ++ first :: (body ++ [last])) :
    (text.apply ⟨before.length, (Fusion.summary body).region before.length⟩).toList =
      before ++ (ofAdditions (elsewhere (additions 0 body))).emit true before.length := by
  rw [Text.toList_apply, written, List.take_left, Fusion.toList_region_summary]

/-- **Loops that only move and add are replaced exactly if they count down**, and what replaces them does
all their turns at once. -/
theorem linear_of_onlyAdds (written : text.toList = before ++ first :: (body ++ [last]))
    (small : text.size < positionLimit) (simple : OnlyAdds body) (fits : Fits body) :
    Linear body text before.length := by
  have judged := judge_of_onlyAdds written simple fits
  have away := offset_ne_zero_of_elsewhere (additions 0 body)
  have straight := straight_ofAdditions away
  have unlinked := Code.unlinked_of_straight straight
  have replaced := toList_apply_region written
  have bounded : (text.apply ⟨before.length, (Fusion.summary body).region before.length⟩).size <
      positionLimit := by
    have size := size_of_written written
    have fewer := size_ofAdditions_le body
    rw [← Array.length_toList, replaced, List.length_append, Code.length_emit]
    omega
  refine ⟨?_, ?_, ?_, ?_, ?_⟩
  · rw [judged]
    split
    · next counts => exact ⟨fun _ => counts, fun _ => ⟨_, rfl⟩⟩
    · next other => exact ⟨by rintro ⟨edit, ⟨⟩⟩, fun counts => (other counts).elim⟩
  · intro other
    rw [judged, if_neg other]
  · intro edit accepted
    obtain ⟨-, rfl⟩ := eq_of_judge written simple fits accepted
    exact ⟨rfl, replacement_of_toList (Fusion.toList_region_summary body before.length)⟩
  · intro edit accepted head register stack terminal reach
    obtain ⟨-, rfl⟩ := eq_of_judge written simple fits accepted
    have reaches := Code.reaches_exec_self straight true
      ⟨⟨head, before.length, register, stack⟩, terminal⟩
    obtain ⟨last, shows, still, held, -, done⟩ := reaches.completes (inRange_iff.mpr reach)
    exact ⟨last, Run.ends_of_completes bounded unlinked replaced rfl (done 0),
      multiplied_of_shows shows, held.1, still⟩
  · intro edit accepted head register stack terminal reach
    obtain ⟨-, rfl⟩ := eq_of_judge written simple fits accepted
    have reaches := Code.reaches_exec_self straight true
      ⟨⟨head, before.length, register, stack⟩, terminal⟩
    obtain ⟨last, -, ⟨short, -⟩ | ⟨-, broken⟩⟩ :=
      reaches.breaks _ fun both => reach (inRange_iff.mp both.1)
    · exact absurd short (Nat.lt_irrefl _)
    · exact ⟨last, Run.ends_of_breaks bounded unlinked replaced rfl broken⟩

/-- A loop that counts down in two places, and adds to one of two cells twice. -/
theorem spread_counter_linear :
    let body : List Instruction := [{ opcode := .add, value := 100 }, { opcode := .move, value := 2 },
      { opcode := .add, value := 3 }, { opcode := .move, value := -2 }, { opcode := .add, value := 155 },
      { opcode := .move, value := -1 }, { opcode := .add, value := -7 }, { opcode := .move, value := 3 },
      { opcode := .add, value := 254 }, { opcode := .move, value := -2 }]
    let first : Instruction := { opcode := .loopStart, link := 12 }
    let last : Instruction := { opcode := .loopEnd, link := 1 }
    let text : Text := #[{ opcode := .output }, first] ++ body.toArray.push last
    text.size < positionLimit ∧ OnlyAdds body ∧ Fits body ∧ Linear body text 1 ∧
      ∃ edit, Pass.multiplication.judge text 1 = .ok ⟨some edit, none⟩ := by
  intro body first last text
  have written : text.toList = [{ opcode := .output }] ++ first :: (body ++ [last]) := rfl
  have small : text.size < positionLimit := by decide
  have simple : OnlyAdds body := by decide
  have fits : Fits body := by decide
  have linear : Linear body text 1 := linear_of_onlyAdds written small simple fits
  exact ⟨small, simple, fits, linear, linear.accepts.mpr (by decide)⟩

end Loop

end TapeMachine
