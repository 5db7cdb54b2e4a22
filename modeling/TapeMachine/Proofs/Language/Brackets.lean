/-
**Brackets and their partners.**

Which bracket belongs to which, read off the bytes of a source and nothing else: a closing bracket and
an opening bracket before it are partners if every bracket between them has its partner between them.

* `Source.Nested`, `Source.Partners`: sources with all brackets paired, and the pairs of a source;
* `Source.Unopened`, `Source.Unclosed`: the brackets without a partner;
* `Source.Opens`: the positions of the open brackets at the end of a source, last first;
* `Opens.not_unopened`, `Opens.unclosed_iff`: these have no partner, and all others have one.
-/

import Mathlib.Order.Bounds.Basic
import TapeMachine.Symbol

namespace TapeMachine

namespace Source

/-- Every bracket in the source has its partner there. -/
inductive Nested : Source → Prop where
  | nil : Nested []
  | other {source : Source} {byte : UInt8} (before : Nested source)
      (opening : byte ≠ Symbol.opening.byte) (closing : byte ≠ Symbol.closing.byte) :
      Nested (source ++ [byte])
  | loop {source inner : Source} (before : Nested source) (inside : Nested inner) :
      Nested (source ++ Symbol.opening.byte :: inner ++ [Symbol.closing.byte])

/-- The bracket at `start` is closed by the one at `stop`. -/
structure Partners (source : Source) (start stop : Nat) : Prop where
  order : start < stop
  opening : source[start]? = some Symbol.opening.byte
  closing : source[stop]? = some Symbol.closing.byte
  between : Nested ((source.take stop).drop (start + 1))

/-- A closing bracket that no bracket before it is open for. -/
def Unopened (source : Source) (stop : Nat) : Prop :=
  source[stop]? = some Symbol.closing.byte ∧ ∀ start, ¬ source.Partners start stop

/-- An opening bracket that is never closed. -/
def Unclosed (source : Source) (start : Nat) : Prop :=
  source[start]? = some Symbol.opening.byte ∧ ∀ stop, ¬ source.Partners start stop

/-- The position is that of a bracket with a partner. -/
def Matched (source : Source) (position : Nat) : Prop :=
  ∃ other, source.Partners position other ∨ source.Partners other position

/-- Between the brackets that are open at the end of the source, last first, all others are paired. -/
inductive Opens : Source → List Nat → Prop where
  | nested {source : Source} (paired : Nested source) : Opens source []
  | bracket {source inner : Source} {waiting : List Nat} (before : Opens source waiting)
      (inside : Nested inner) :
      Opens (source ++ Symbol.opening.byte :: inner) (source.length :: waiting)

/-! ### Parts of a source -/

section Parts

variable {first second source : Source} {start stop position : Nat}

theorem Nested.append (here : Nested first) (there : Nested second) : Nested (first ++ second) := by
  induction there with
  | nil => rwa [List.append_nil]
  | other before opening closing ih =>
    rw [← List.append_assoc]
    exact ih.other opening closing
  | loop before inside ih _ =>
    rw [← List.append_assoc, ← List.append_assoc]
    exact ih.loop inside

/-- What follows a bracket does not change its partner. -/
theorem partners_append_iff (within : stop < first.length) :
    Partners (first ++ second) start stop ↔ Partners first start stop := by
  have early (position : Nat) (before : position ≤ stop) :
      (first ++ second)[position]? = first[position]? :=
    List.getElem?_append_left (Nat.lt_of_le_of_lt before within)
  have taken : (first ++ second).take stop = first.take stop :=
    List.take_append_of_le_length (Nat.le_of_lt within)
  constructor
  · rintro ⟨order, opening, closing, between⟩
    exact ⟨order, early start (Nat.le_of_lt order) ▸ opening, early stop (Nat.le_refl _) ▸ closing,
      taken ▸ between⟩
  · rintro ⟨order, opening, closing, between⟩
    exact ⟨order, (early start (Nat.le_of_lt order)).trans opening,
      (early stop (Nat.le_refl _)).trans closing, taken.symm ▸ between⟩

theorem Partners.stop_lt (partners : Partners source start stop) : stop < source.length :=
  (List.getElem?_eq_some_iff.mp partners.closing).1

theorem Partners.append (partners : Partners first start stop) (second : Source) :
    Partners (first ++ second) start stop :=
  (partners_append_iff partners.stop_lt).mpr partners

/-- Partners stay partners behind something. -/
theorem Partners.behind (partners : Partners second start stop) (first : Source) :
    Partners (first ++ second) (first.length + start) (first.length + stop) := by
  obtain ⟨order, opening, closing, between⟩ := partners
  have later (position : Nat) : (first ++ second)[first.length + position]? = second[position]? := by
    rw [List.getElem?_append_right (Nat.le_add_right ..), Nat.add_sub_cancel_left]
  refine ⟨Nat.add_lt_add_left order _, (later start).trans opening, (later stop).trans closing, ?_⟩
  rwa [List.take_length_add_append, Nat.add_assoc, List.drop_length_add_append]

theorem Matched.append (matched : Matched first position) (second : Source) :
    Matched (first ++ second) position :=
  matched.imp fun _ => Or.imp (·.append second) (·.append second)

theorem Matched.behind (matched : Matched second position) (first : Source) :
    Matched (first ++ second) (first.length + position) := by
  obtain ⟨other, partners⟩ := matched
  exact ⟨first.length + other, partners.imp (·.behind first) (·.behind first)⟩

/-- A closing bracket behind the last byte of what it closes. -/
theorem partners_ring (first : Source) {inner : Source} (inside : Nested inner) :
    Partners (first ++ Symbol.opening.byte :: inner ++ [Symbol.closing.byte]) first.length
      (first.length + (inner.length + 1)) := by
  have whole : Partners (Symbol.opening.byte :: inner ++ [Symbol.closing.byte]) 0
      (inner.length + 1) := by
    refine ⟨Nat.succ_pos _, rfl, by simp, ?_⟩
    simpa using inside
  have placed := whole.behind first
  rwa [← List.append_assoc] at placed

end Parts

/-! ### Brackets with a partner -/

theorem Nested.matched {source : Source} (nested : Nested source) {position : Nat} {byte : UInt8}
    (found : source[position]? = some byte)
    (bracket : byte = Symbol.opening.byte ∨ byte = Symbol.closing.byte) :
    Matched source position := by
  induction nested generalizing position with
  | nil => cases found
  | @other source last before opening closing ih =>
    by_cases early : position < source.length
    · rw [List.getElem?_append_left early] at found
      exact (ih found).append _
    · have only := List.mem_of_getElem? ((List.getElem?_append_right (Nat.le_of_not_lt early)) ▸ found)
      obtain rfl := List.mem_singleton.mp only
      exact absurd bracket (not_or.mpr ⟨opening, closing⟩)
  | @loop source inner before inside ihBefore ihInside =>
    have ring := partners_ring source inside
    rw [List.append_assoc] at found
    by_cases early : position < source.length
    · rw [List.getElem?_append_left early] at found
      exact ((ihBefore found).append _).append _
    · obtain ⟨distance, rfl⟩ := Nat.exists_eq_add_of_le (Nat.le_of_not_lt early)
      rw [List.getElem?_append_right (Nat.le_add_right ..), Nat.add_sub_cancel_left] at found
      cases distance with
      | zero => exact ⟨_, .inl ring⟩
      | succ distance =>
        rw [List.cons_append, List.getElem?_cons_succ] at found
        by_cases within : distance < inner.length
        · rw [List.getElem?_append_left within] at found
          have placed := (((ihInside found).behind [Symbol.opening.byte]).append
            [Symbol.closing.byte]).behind source
          rwa [List.length_singleton, Nat.add_comm 1, List.singleton_append, ← List.append_assoc]
            at placed
        · have size := (List.getElem?_eq_some_iff.mp found).1
          rw [List.length_append, List.length_singleton] at size
          obtain rfl : distance = inner.length := by omega
          exact ⟨_, .inr ring⟩

/-! ### Brackets without a partner -/

/-- How many more brackets the source opens than it closes. -/
def height (source : Source) : Int :=
  source.count Symbol.opening.byte - source.count Symbol.closing.byte

theorem height_append (first second : Source) :
    height (first ++ second) = height first + height second := by
  simp only [height, List.count_append]
  omega

theorem height_opening : height [Symbol.opening.byte] = 1 := by decide

theorem height_closing : height [Symbol.closing.byte] = -1 := by decide

theorem height_other {byte : UInt8} (opening : byte ≠ Symbol.opening.byte)
    (closing : byte ≠ Symbol.closing.byte) : height [byte] = 0 := by
  simp [height, opening, closing]

/-- The source never closes more brackets than it has opened, and `level` before. -/
def Above (level : Int) (source : Source) : Prop :=
  ∀ length, level ≤ height (source.take length)

section Above

variable {first second source inner : Source} {level : Int} {byte : UInt8}

theorem above_append (here : Above level first) (there : Above (level - height first) second) :
    Above level (first ++ second) := by
  intro length
  rw [List.take_append, height_append]
  by_cases early : length ≤ first.length
  · rw [Nat.sub_eq_zero_of_le early]
    exact Int.le_trans (here length) (Int.le_of_eq (Int.add_zero _).symm)
  · have later := there (length - first.length)
    rw [List.take_of_length_le (Nat.le_of_not_le early)]
    omega

theorem above_singleton (none : level ≤ 0) (one : level ≤ height [byte]) : Above level [byte] := by
  intro length
  cases length with
  | zero => exact none
  | succ length => simpa using one

theorem Above.mono (above : Above level source) {lower : Int} (below : lower ≤ level) :
    Above lower source :=
  fun length => Int.le_trans below (above length)

/-- A bracket is opened, and what follows stays above it. -/
theorem above_opened (above : Above 0 inner) : Above 0 (Symbol.opening.byte :: inner) := by
  have bracket : Above 0 [Symbol.opening.byte] :=
    above_singleton (Int.le_refl 0) (by rw [height_opening]; decide)
  refine above_append bracket (above.mono ?_)
  rw [height_opening]
  decide

theorem height_opened (source inner : Source) :
    height (source ++ Symbol.opening.byte :: inner) = height source + 1 + height inner := by
  rw [← List.singleton_append, height_append, height_append, height_opening, Int.add_assoc]

/-- Where all brackets are paired, as many are closed as are opened, and none is closed before. -/
theorem Nested.above (nested : Nested source) : height source = 0 ∧ Above 0 source := by
  induction nested with
  | nil => exact ⟨rfl, fun length => by simp [height]⟩
  | other before opening closing ih =>
    have last := height_other opening closing
    refine ⟨by rw [height_append, ih.1, last]; rfl, above_append ih.2 (above_singleton ?_ ?_)⟩ <;> omega
  | @loop source inner before inside ihBefore ihInside =>
    have ring : height (source ++ Symbol.opening.byte :: inner) = 1 := by
      rw [height_opened, ihBefore.1, ihInside.1]
      rfl
    have early : Above 0 (source ++ Symbol.opening.byte :: inner) := by
      refine above_append ihBefore.2 ?_
      rw [ihBefore.1]
      exact above_opened ihInside.2
    refine ⟨by rw [height_append, ring, height_closing]; rfl, above_append early (above_singleton ?_ ?_)⟩
    · rw [ring]
      decide
    · rw [ring, height_closing]
      decide

end Above

/-- From one partner to the other, the height is the same. -/
theorem Partners.height {source : Source} {start stop : Nat} (partners : Partners source start stop) :
    height (source.take start) < height (source.take stop) ∧
      height (source.take (stop + 1)) = height (source.take start) := by
  obtain ⟨order, opening, closing, between⟩ := partners
  have taken (position : Nat) {byte : UInt8} (found : source[position]? = some byte) :
      source.take (position + 1) = source.take position ++ [byte] := by
    rw [List.take_add_one, found]
    rfl
  have upto : Source.height (source.take stop) = Source.height (source.take start) + 1 := by
    have parts : source.take stop =
        source.take (start + 1) ++ (source.take stop).drop (start + 1) := by
      have whole := (List.take_append_drop (start + 1) (source.take stop)).symm
      rwa [List.take_take, Nat.min_eq_left order] at whole
    rw [parts, height_append, between.above.1, taken start opening, height_append, height_opening,
      Int.add_zero]
  refine ⟨by omega, ?_⟩
  rw [taken stop closing, height_append, upto, height_closing]
  omega

/-! ### Open brackets -/

section Opens

variable {source inner : Source} {waiting : List Nat} (opens : Opens source waiting)
  {start stop position first : Nat} {byte : UInt8}

include opens

theorem Opens.append (paired : Nested inner) : Opens (source ++ inner) waiting := by
  cases opens with
  | nested before => exact .nested (before.append paired)
  | bracket before inside =>
    rw [List.append_assoc]
    exact .bracket before (inside.append paired)

/-- A byte that is no bracket. -/
theorem Opens.other (opening : byte ≠ Symbol.opening.byte) (closing : byte ≠ Symbol.closing.byte) :
    Opens (source ++ [byte]) waiting :=
  opens.append (Nested.nil.other opening closing)

/-- An opening bracket. -/
theorem Opens.opening : Opens (source ++ [Symbol.opening.byte]) (source.length :: waiting) :=
  .bracket opens .nil

omit opens in
/-- A closing bracket, while one is open. -/
theorem Opens.closing (opens : Opens source (first :: waiting)) :
    Opens (source ++ [Symbol.closing.byte]) waiting := by
  cases opens with
  | bracket before inside =>
    rw [List.append_assoc]
    exact before.append (Nested.nil.loop inside)

omit opens in
/-- A closing bracket, while none is open. -/
theorem Opens.unopened (opens : Opens source []) :
    Unopened (source ++ [Symbol.closing.byte]) source.length := by
  cases opens with
  | nested paired =>
    refine ⟨by simp, fun start partners => ?_⟩
    have above := paired.above.2 start
    have below := partners.height.1
    have order := partners.order
    rw [List.take_append_of_le_length (Nat.le_of_lt order), List.take_left, paired.above.1] at below
    omega

/-- The source never gets back to where it was before an open bracket. -/
theorem Opens.rises (member : start ∈ waiting) :
    start < source.length ∧
      ∀ length, start < length → height (source.take start) < height (source.take length) := by
  induction opens with
  | nested => cases member
  | @bracket source inner waiting before inside ih =>
    have later (length : Nat) (behind : source.length < length) :
        height source < height ((source ++ Symbol.opening.byte :: inner).take length) := by
      obtain ⟨more, rfl⟩ := Nat.exists_eq_add_of_lt behind
      have above := inside.above.2 more
      rw [Nat.add_assoc, List.take_length_add_append, List.take_succ_cons, height_opened]
      omega
    rcases List.mem_cons.mp member with rfl | earlier
    · rw [List.take_left]
      exact ⟨by simp, later⟩
    · obtain ⟨within, rises⟩ := ih earlier
      rw [List.take_append_of_le_length (Nat.le_of_lt within)]
      refine ⟨by rw [List.length_append]; omega, fun length behind => ?_⟩
      by_cases early : length ≤ source.length
      · rw [List.take_append_of_le_length early]
        exact rises length behind
      · have whole := rises source.length within
        rw [List.take_length] at whole
        exact Int.lt_trans whole (later length (Nat.lt_of_not_le early))

/-- An open bracket has no partner, -/
theorem Opens.unclosed (member : start ∈ waiting) : Unclosed source start := by
  constructor
  · induction opens with
    | nested => cases member
    | bracket before inside ih =>
      rcases List.mem_cons.mp member with rfl | earlier
      · simp
      · rw [List.getElem?_append_left (before.rises earlier).1]
        exact ih earlier
  · intro stop partners
    have rises := (opens.rises member).2 (stop + 1) (Nat.lt_succ_of_lt partners.order)
    rw [partners.height.2] at rises
    exact Int.lt_irrefl _ rises

/-- and every other bracket has one. -/
theorem Opens.matched (found : source[position]? = some byte)
    (bracket : byte = Symbol.opening.byte ∨ byte = Symbol.closing.byte) :
    Matched source position ∨ position ∈ waiting := by
  induction opens generalizing position with
  | nested paired => exact .inl (paired.matched found bracket)
  | @bracket source inner waiting before inside ih =>
    by_cases early : position < source.length
    · rw [List.getElem?_append_left early] at found
      exact (ih found).imp (·.append _) (List.mem_cons_of_mem _)
    · obtain ⟨distance, rfl⟩ := Nat.exists_eq_add_of_le (Nat.le_of_not_lt early)
      rw [List.getElem?_append_right (Nat.le_add_right ..), Nat.add_sub_cancel_left] at found
      cases distance with
      | zero => exact .inr (List.mem_cons_self ..)
      | succ distance =>
        rw [List.getElem?_cons_succ] at found
        have placed := ((inside.matched found bracket).behind [Symbol.opening.byte]).behind source
        rw [List.length_singleton, Nat.add_comm 1, List.singleton_append] at placed
        exact .inl placed

theorem Opens.not_unopened (stop : Nat) : ¬ Unopened source stop := by
  rintro ⟨closing, alone⟩
  rcases opens.matched closing (.inr rfl) with ⟨other, partners | partners⟩ | member
  · cases partners.opening.symm.trans closing
  · exact alone other partners
  · cases (opens.unclosed member).1.symm.trans closing

theorem Opens.unclosed_iff : Unclosed source start ↔ start ∈ waiting := by
  refine ⟨fun ⟨opening, alone⟩ => ?_, opens.unclosed⟩
  rcases opens.matched opening (.inl rfl) with ⟨other, partners | partners⟩ | member
  · exact (alone other partners).elim
  · cases partners.closing.symm.trans opening
  · exact member

omit opens in
/-- Of the open brackets, the first in the list is the rightmost. -/
theorem Opens.isGreatest (opens : Opens source (first :: waiting)) :
    IsGreatest {start | Unclosed source start} first := by
  refine ⟨opens.unclosed (List.mem_cons_self ..), fun start unclosed => ?_⟩
  have member := opens.unclosed_iff.mp unclosed
  cases opens with
  | bracket before inside =>
    rcases List.mem_cons.mp member with rfl | earlier
    · exact Nat.le_refl _
    · exact Nat.le_of_lt (before.rises earlier).1

/-- All brackets are paired if none is open. -/
theorem Opens.nested_iff : Nested source ↔ waiting = [] := by
  constructor
  · intro nested
    refine List.eq_nil_iff_forall_not_mem.mpr fun start member => ?_
    exact absurd ((Opens.nested nested).unclosed_iff.mp (opens.unclosed member)) List.not_mem_nil
  · rintro rfl
    cases opens with
    | nested paired => exact paired

end Opens

theorem Unopened.not_nested {source : Source} {stop : Nat} (unopened : Unopened source stop) :
    ¬ Nested source :=
  fun nested => (Opens.nested nested).not_unopened stop unopened

theorem Unclosed.not_nested {source : Source} {start : Nat} (unclosed : Unclosed source start) :
    ¬ Nested source :=
  fun nested => absurd ((Opens.nested nested).unclosed_iff.mp unclosed) List.not_mem_nil

/-- What follows does not give a closing bracket a partner. -/
theorem unopened_append_iff {first second : Source} {stop : Nat} (within : stop < first.length) :
    Unopened (first ++ second) stop ↔ Unopened first stop := by
  unfold Unopened
  rw [List.getElem?_append_left within]
  simp only [partners_append_iff within]

end Source

end TapeMachine
