/-
**Exactly the pages that are needed are stored.**

A tape begins with one page. Then it stores the pages that a head was sent to and those between them and
the start, no matter in which order, and keeps each of them where it is.

* `Operation.addressed?`, `Operation.lands`: the cell that an operation addresses, and where it leaves the
  head;
* `addressed`: the cells that operations address, one after the other;
* `Tape.covers_iff_pageOf`: the pages that are stored, by their numbers;
* `Tape.Keeps`: every page stays in its slot, and keeps what it holds but for one cell;
* `keeps_reply`: so it is with every operation;
* `grows_reply`, `grows_replies`: an operation stores what it addresses, and nothing else, and so do many;
* `sizes_of_grows`: what is stored if some cells were addressed and nothing else;
* `Head.Allocates`, `allocates_of_blank`: what operations store on a tape that was blank.
-/

import Mathlib.Data.Int.Order.Basic
import TapeMachine.Proofs.Tape.Growth
import TapeMachine.Proofs.Tape.Unbounded

namespace TapeMachine

/-! ### What operations address -/

namespace Operation

/-- The cell that an operation addresses, if the head is at an index. -/
def addressed? (operation : Operation) (index : Int) : Option Int :=
  match operation with
  | cursorAt target => some target
  | advance distance => some (index + distance)
  | addAt distance _ => some (index + distance)
  | _ => none

/-- The cell that an operation writes, if the head is at an index. -/
def written? (operation : Operation) (index : Int) : Option Int :=
  match operation with
  | write _ => some index
  | addAt distance _ => some (index + distance)
  | _ => none

/-- Where an operation leaves the head. -/
def lands (operation : Operation) (index : Int) : Int :=
  match operation with
  | cursorAt target => target
  | advance distance => index + distance
  | _ => index

end Operation

/-- The cells that operations address, one after the other. -/
def addressed : Int → List Operation → List Int
  | _, [] => []
  | index, operation :: rest =>
    (operation.addressed? index).toList ++ addressed (operation.lands index) rest

/-- The largest of some numbers, or zero. -/
def highest (numbers : List Int) : Int := numbers.max?.getD 0

/-- The smallest of some numbers, or zero. -/
def lowest (numbers : List Int) : Int := numbers.min?.getD 0

theorem highest_mem {numbers : List Int} (nonempty : numbers ≠ []) : highest numbers ∈ numbers := by
  obtain ⟨number, found⟩ := Option.ne_none_iff_exists'.mp (mt List.max?_eq_none_iff.mp nonempty)
  rw [highest, found]
  exact (List.max?_eq_some_iff.mp found).1

theorem le_highest {numbers : List Int} {number : Int} (member : number ∈ numbers) :
    number ≤ highest numbers := by
  obtain ⟨largest, found⟩ :=
    Option.ne_none_iff_exists'.mp (mt List.max?_eq_none_iff.mp (List.ne_nil_of_mem member))
  rw [highest, found]
  exact (List.max?_eq_some_iff.mp found).2 number member

theorem lowest_mem {numbers : List Int} (nonempty : numbers ≠ []) : lowest numbers ∈ numbers := by
  obtain ⟨number, found⟩ := Option.ne_none_iff_exists'.mp (mt List.min?_eq_none_iff.mp nonempty)
  rw [lowest, found]
  exact (List.min?_eq_some_iff.mp found).1

theorem lowest_le {numbers : List Int} {number : Int} (member : number ∈ numbers) :
    lowest numbers ≤ number := by
  obtain ⟨smallest, found⟩ :=
    Option.ne_none_iff_exists'.mp (mt List.min?_eq_none_iff.mp (List.ne_nil_of_mem member))
  rw [lowest, found]
  exact (List.min?_eq_some_iff.mp found).2 number member

/-! ### Pages by their numbers -/

namespace Tape

variable {tape before after : Tape} {slot : Slot} {index : Int}

/-- The pages that are stored have numbers next to each other. -/
theorem covers_iff_pageOf : tape.Covers index ↔
    -(tape.left.size : Int) ≤ pageOf index ∧ pageOf index < tape.right.size := by
  unfold Covers Slot.ofPage
  split <;> simp only [Stores] <;> omega

/-- A blank tape that stores the pages from one number to another, and the one of the starting cell. -/
def spanning (low high : Int) : Tape where
  right := Array.replicate (1 + (max 0 high).toNat) Page.blank
  left := Array.replicate (max 0 (-low)).toNat Page.blank
  origin := by
    rw [Array.size_replicate]
    omega

theorem covers_spanning_iff {low high : Int} : (spanning low high).Covers index ↔
    min 0 low ≤ pageOf index ∧ pageOf index ≤ max 0 high := by
  simp only [covers_iff_pageOf, spanning, Array.size_replicate]
  omega

theorem within_spanning (low high : Int) : blank.Within (spanning low high) := by
  intro index covered
  rw [covers_iff_pageOf] at covered
  rw [covers_spanning_iff]
  simp only [blank, List.size_toArray, List.length_singleton, List.length_nil] at covered
  omega

/-- Every page stays in its slot, and keeps what it holds but for the cell that is written. -/
structure Keeps (written : Option Int) (before after : Tape) : Prop where
  stores : ∀ slot, before.Stores slot → after.Stores slot
  cells : ∀ slot (stored : before.Stores slot) (still : after.Stores slot) place,
    (∀ index ∈ written, slot = Slot.ofPage (pageOf index) → place ≠ placeOf index) →
    (after.page slot still).cell place = (before.page slot stored).cell place

theorem keeps_refl (written : Option Int) (tape : Tape) : tape.Keeps written tape :=
  ⟨fun _ => id, fun _ _ _ _ _ => rfl⟩

theorem Keeps.trans {last : Tape} {written : Option Int} (here : before.Keeps written after)
    (there : after.Keeps written last) : before.Keeps written last where
  stores slot stored := there.stores slot (here.stores slot stored)
  cells slot stored still place other :=
    (there.cells slot (here.stores slot stored) still place other).trans
      (here.cells slot stored _ place other)

theorem keeps_ensure (written : Option Int) (tape : Tape) (slot : Slot) :
    tape.Keeps written (tape.ensure slot) where
  stores _ stored := stores_ensure stored slot
  cells other stored still place _ := by rw [cell_page, cell_page, cell_ensure]

theorem keeps_put (tape : Tape) (index : Int) (value : UInt8) :
    tape.Keeps (some index) (tape.put (Slot.ofPage (pageOf index)) (placeOf index) value) where
  stores _ := stores_put_iff.mpr
  cells other stored still place apart := by
    rw [cell_page, cell_page]
    refine cell_put_of_ne ?_
    by_cases same : other = Slot.ofPage (pageOf index)
    · exact .inr (apart index rfl same)
    · exact .inl same

theorem Keeps.pages_le {written : Option Int} (keeps : before.Keeps written after) :
    before.pages ≤ after.pages :=
  pages_le_of_within fun _ covered => keeps.stores _ covered

end Tape

/-! ### Operations -/

namespace Head

variable {head last : Head}

theorem keeps_moveTo (written : Option Int) (head : Head) (index : Int) :
    head.tape.Keeps written (head.moveTo index).tape :=
  Tape.keeps_ensure written head.tape _

theorem keeps_write (head : Head) (value : UInt8) :
    head.tape.Keeps (some head.index) (head.write value).tape := by
  show head.tape.Keeps _ (head.tape.put head.slot head.place value)
  rw [head.slot_eq, head.place_eq]
  exact Tape.keeps_put head.tape head.index value

theorem pages_write (head : Head) (value : UInt8) : (head.write value).tape.pages = head.tape.pages :=
  Nat.le_antisymm (Tape.pages_le_of_within fun _ => covers_write_iff.mp)
    (Tape.pages_le_of_within fun _ => covers_write_iff.mpr)

/-- **No operation moves a page or clears it**: only the cell that it writes may change. -/
theorem keeps_reply (head : Head) (operation : Operation) :
    head.tape.Keeps (operation.written? head.index) (head.reply operation).1.tape := by
  cases operation with
  | read | index | get index => exact Tape.keeps_refl _ _
  | write value => exact keeps_write head value
  | cursorAt index => exact keeps_moveTo _ head index
  | advance distance =>
    by_cases inside : Tape.IsIndex (head.index + distance)
    · rw [reply, advance_of_isIndex inside]
      exact keeps_moveTo _ head _
    · rw [reply, advance_of_not_isIndex inside]
      exact Tape.keeps_refl _ _
  | addAt distance amount =>
    by_cases inside : Tape.IsIndex (head.index + distance)
    · rw [reply, addAt_of_isIndex amount inside]
      exact ((keeps_moveTo _ head _).trans (keeps_write _ _)).trans (keeps_moveTo _ _ _)
    · rw [reply, addAt_of_not_isIndex amount inside]
      exact Tape.keeps_refl _ _

/-- An operation that is not given up goes to a cell that has an index. -/
theorem isIndex_of_reply {operation : Operation} (proper : (head.reply operation).2 ≠ .overflow)
    {target : Int} (goes : operation.target? head.index = some target) : Tape.IsIndex target := by
  by_contra outside
  exact proper (congrArg Prod.snd (reply_of_not_isIndex goes outside))

/-- An operation that is not given up leaves the head where it lands. -/
theorem index_reply {operation : Operation} (proper : (head.reply operation).2 ≠ .overflow) :
    (head.reply operation).1.index = operation.lands head.index := by
  cases operation with
  | read | write value | cursorAt index | index | get index => rfl
  | advance distance =>
    have inside : Tape.IsIndex (head.index + distance) := isIndex_of_reply proper rfl
    rw [reply, advance_of_isIndex inside]
    rfl
  | addAt distance amount =>
    have inside : Tape.IsIndex (head.index + distance) := isIndex_of_reply proper rfl
    rw [reply, addAt_of_isIndex amount inside]
    rfl

/-- **An operation stores what it addresses**, and nothing else. -/
theorem grows_reply {operation : Operation} (proper : (head.reply operation).2 ≠ .overflow) :
    Grows (operation.addressed? head.index).toList head (head.reply operation).1 := by
  cases operation with
  | read | index | get index => exact Grows.refl head
  | write value => exact grows_write head value
  | cursorAt index => exact grows_moveTo head index
  | advance distance =>
    have inside : Tape.IsIndex (head.index + distance) := isIndex_of_reply proper rfl
    rw [reply, advance_of_isIndex inside]
    exact grows_moveTo head _
  | addAt distance amount =>
    have inside : Tape.IsIndex (head.index + distance) := isIndex_of_reply proper rfl
    obtain ⟨changed, added⟩ := addAt_ok_iff.mpr inside
    rw [reply, added]
    exact grows_addAt added

/-- **So do many of them**, one after the other. -/
theorem grows_replies {operations : List Operation} (proper : .overflow ∉ (head.replies operations).2) :
    Grows (addressed head.index operations) head (head.replies operations).1 := by
  induction operations generalizing head with
  | nil => exact Grows.refl head
  | cons operation rest ih =>
    have each : .overflow ∉
        (head.reply operation).2 :: ((head.reply operation).1.replies rest).2 := proper
    rw [List.mem_cons, not_or] at each
    have first := grows_reply (Ne.symm each.1)
    have later := ih each.2
    rw [index_reply (Ne.symm each.1)] at later
    refine (first.trans later).congr fun cell => ?_
    rw [addressed, List.mem_append, List.mem_append, or_comm]

theorem tape_onTape_blank : (onTape Tape.blank 0).tape = Tape.blank :=
  Tape.ensure_of_stores (show Tape.blank.Stores (.right 0) from Nat.one_pos)

/-- **What is stored if some cells were addressed**, beginning with a blank tape: on both sides as many
pages as the outermost of them needs. -/
theorem sizes_of_grows {cells : List Int} (grows : Grows cells (onTape Tape.blank 0) last) :
    (last.tape.right.size : Int) = 1 + max 0 (highest (cells.map pageOf)) ∧
      (last.tape.left.size : Int) = max 0 (-lowest (cells.map pageOf)) := by
  have covers : ∀ page ∈ cells.map pageOf,
      -(last.tape.left.size : Int) ≤ page ∧ page < last.tape.right.size := by
    intro page member
    obtain ⟨cell, among, rfl⟩ := List.mem_map.mp member
    exact Tape.covers_iff_pageOf.mp (grows.visited cell among)
  generalize pages : cells.map pageOf = numbers at covers ⊢
  have inside : last.tape.Within (Tape.spanning (lowest numbers) (highest numbers)) := by
    refine grows.within _ ?_ fun cell member => ?_
    · rw [tape_onTape_blank]
      exact Tape.within_spanning (lowest numbers) (highest numbers)
    have among : pageOf cell ∈ numbers := pages ▸ List.mem_map_of_mem member
    have high := le_highest among
    have low := lowest_le among
    exact Tape.covers_spanning_iff.mpr ⟨by omega, by omega⟩
  obtain ⟨right, left⟩ := Tape.within_iff.mp inside
  simp only [Tape.spanning, Array.size_replicate] at right left
  have origin := last.tape.origin
  by_cases none : numbers = []
  · subst none
    simp only [highest, lowest, List.max?_nil, List.min?_nil, Option.getD_none] at right left ⊢
    omega
  · have high := covers _ (highest_mem none)
    have low := covers _ (lowest_mem none)
    omega

end Head

/-! ### Runs of operations -/

/-- What operations have stored on a tape that was blank. -/
structure Head.Allocates (operations : List Operation) (head : Head) : Prop where
  /-- The number of pages is told by the outermost pages that were addressed on both sides. -/
  exact : (head.tape.pages : Int) =
    1 + max 0 (highest ((addressed 0 operations).map pageOf)) +
      max 0 (-lowest ((addressed 0 operations).map pageOf))
  /-- Reading, writing and asking for a cell do not change it. -/
  rests : ∀ value index, (head.reply .read).1.tape.pages = head.tape.pages ∧
    (head.reply (.write value)).1.tape.pages = head.tape.pages ∧
    (head.reply (.get index)).1.tape.pages = head.tape.pages
  /-- No operation makes it smaller. -/
  lasts : ∀ operation, head.tape.pages ≤ (head.reply operation).1.tape.pages
  /-- No operation moves a page or clears it. -/
  keeps : ∀ operation, head.tape.Keeps (operation.written? head.index) (head.reply operation).1.tape

/-- **Exactly the pages that are needed are stored**, whatever is done from a blank tape on without
leaving the range of indexes. -/
theorem allocates_of_blank (operations : List Operation)
    (proper : .overflow ∉ ((Head.onTape Tape.blank 0).replies operations).2) :
    ((Head.onTape Tape.blank 0).replies operations).1.Allocates operations where
  exact := by
    obtain ⟨right, left⟩ := Head.sizes_of_grows (Head.grows_replies proper)
    rw [Tape.pages, Int.natCast_add, left, right, Int.add_comm]
    rfl
  rests value index := ⟨rfl, Head.pages_write _ value, rfl⟩
  lasts operation := (Head.keeps_reply _ operation).pages_le
  keeps := Head.keeps_reply _

/-- To both sides and back, past the borders of pages: five pages, from the second below zero to the
second above. -/
theorem zigzag_allocates :
    let operations : List Operation := [.advance 256, .write 7, .addAt (-600) 200, .get (-9999),
      .advance (-512), .read, .cursorAt 700, .addAt (-700) 3, .index]
    .overflow ∉ ((Head.onTape Tape.blank 0).replies operations).2 ∧
      ((Head.onTape Tape.blank 0).replies operations).1.tape.pages = 5 ∧
      ((Head.onTape Tape.blank 0).replies operations).1.Allocates operations :=
  ⟨by decide +kernel, by decide +kernel, allocates_of_blank _ (by decide +kernel)⟩

end TapeMachine
