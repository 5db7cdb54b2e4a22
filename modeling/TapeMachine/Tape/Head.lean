/-
**The head.**

The head stands on a stored cell of the tape, and remembers which page that is on and where the page is
kept. It reads and writes that cell, moves, adds to cells at a distance, and looks for zero cells. Only
a move to another page looks for the slot of a page. An operation that would leave the range of indexes
is given up and answers the head as it then is, as an error.

* `place_eq`, `read_eq_get`: so the head is at the cell with its index;
* `shift_eq_moveTo`: moving within a page is no different from going there anew;
* `read_write`: what is written is read;
* `advance_ok_iff`, `addAt_ok_iff`: moving and adding at a distance fail only at the ends of the
  range.
-/

import TapeMachine.Tape.Basic

namespace TapeMachine

/-- A tape with the head on one of its cells. -/
structure Head where
  tape : Tape
  index : Int
  /-- The page of the cell. -/
  page : Int
  /-- Where that page is kept. -/
  slot : Slot
  onPage : pageOf index = page
  inSlot : Slot.ofPage page = slot
  stored : tape.Stores slot

namespace Head

/-- The head on a cell of a tape. -/
def onTape (tape : Tape) (index : Int) : Head :=
  let page := pageOf index
  let slot := Slot.ofPage page
  ⟨tape.ensure slot, index, page, slot, rfl, rfl, tape.stores_ensure_self slot⟩

/-- The head on another cell. -/
def moveTo (head : Head) (index : Int) : Head :=
  match head with
  | ⟨tape, _, _, _, _, _, _⟩ => onTape tape index

theorem place_lt (head : Head) : (head.index - head.page * pageSize).toNat < pageSize := by
  have page := head.onPage
  simp only [pageOf, pageSize] at page ⊢
  omega

/-- The place of the cell on its page. -/
def place (head : Head) : Fin pageSize :=
  ⟨(head.index - head.page * pageSize).toNat, head.place_lt⟩

/-- The cell under the head. -/
def read (head : Head) : UInt8 :=
  (head.tape.page head.slot head.stored).cell head.place

/-- Writes the cell under the head. -/
def write (head : Head) (value : UInt8) : Head :=
  let place := head.place
  match head with
  | ⟨tape, index, page, slot, onPage, inSlot, stored⟩ =>
    ⟨tape.put slot place value, index, page, slot, onPage, inSlot, Tape.stores_put_iff.mpr stored⟩

/-- Moves by a distance, wherever that leads. -/
def shift (head : Head) (distance : Int) : Head :=
  match head with
  | ⟨tape, index, page, slot, _, inSlot, stored⟩ =>
    let target := index + distance
    if same : pageOf target = page then ⟨tape, target, page, slot, same, inSlot, stored⟩
    else onTape tape target

/-- Moves by a distance. -/
def advance (head : Head) (distance : Int) : Except Head Head :=
  if Tape.IsIndex (head.index + distance) then .ok (head.shift distance)
  else .error head

/-- Adds to the cell at a distance: the head moves there and back again. -/
def addAt (head : Head) (distance : Int) (amount : UInt8) : Except Head Head :=
  match head.advance distance with
  | .ok moved =>
    let cell := moved.read + amount
    .ok ((moved.write cell).shift (-distance))
  | .error head => .error head

/-- Clears cells, moving by a stride between two of them. -/
def clearRun (stride : Int) : Nat → Head → Except Head Head
  | 0, head => .ok head
  | 1, head => .ok (head.write 0)
  | count + 2, head =>
    match (head.write 0).advance stride with
    | .ok head => clearRun stride (count + 1) head
    | .error head => .error head

/-- Moves by a stride until the cell is zero. There is no answer if the head stays for ever. -/
def seek (head : Head) (stride : Int) : Option (Except Head Head) :=
  match head.tape.walk stride head.index with
  | .found index => some (.ok (head.moveTo index))
  | .lost index => some (.error (head.moveTo index))
  | .never => none

/-! ### What the head remembers -/

theorem slot_eq (head : Head) : head.slot = Slot.ofPage (pageOf head.index) := by
  rw [head.onPage, head.inSlot]

theorem place_eq (head : Head) : head.place = placeOf head.index := by
  have page := head.onPage
  simp only [place, placeOf, pageOf, pageSize, Fin.mk.injEq] at page ⊢
  omega

theorem covered (head : Head) : head.tape.Covers head.index := by
  unfold Tape.Covers
  rw [← head.slot_eq]
  exact head.stored

theorem read_eq_get (head : Head) : head.read = head.tape.get head.index := by
  rw [read, Tape.cell_page, head.slot_eq, head.place_eq, Tape.get]

/-- The head is told by its tape and its index. -/
theorem ext_of_index {head other : Head} (tape : head.tape = other.tape)
    (index : head.index = other.index) : head = other := by
  rcases head with ⟨first, here, _, _, rfl, rfl, _⟩
  rcases other with ⟨second, there, _, _, rfl, rfl, _⟩
  obtain rfl : first = second := tape
  obtain rfl : here = there := index
  rfl

/-- Staying on a page, or going to another one, the head is where it would be if it was put there. -/
theorem shift_eq_moveTo (head : Head) (distance : Int) :
    head.shift distance = head.moveTo (head.index + distance) := by
  rcases head with ⟨tape, index, page, slot, onPage, inSlot, stored⟩
  simp only [shift]
  split
  · next same =>
    have there : Slot.ofPage (pageOf (index + distance)) = slot := by rw [same, inSlot]
    exact ext_of_index (Tape.ensure_of_stores (there ▸ stored)).symm rfl
  · rfl

theorem advance_of_isIndex {head : Head} {distance : Int}
    (inside : Tape.IsIndex (head.index + distance)) :
    head.advance distance = .ok (head.moveTo (head.index + distance)) := by
  rw [advance, if_pos inside, shift_eq_moveTo]

theorem advance_of_not_isIndex {head : Head} {distance : Int}
    (outside : ¬ Tape.IsIndex (head.index + distance)) : head.advance distance = .error head :=
  if_neg outside

/-! ### Operations -/

@[simp] theorem index_moveTo (head : Head) (index : Int) : (head.moveTo index).index = index := rfl

@[simp] theorem get_moveTo (head : Head) (index other : Int) :
    (head.moveTo index).tape.get other = head.tape.get other :=
  Tape.get_reserve ..

@[simp] theorem index_write (head : Head) (value : UInt8) : (head.write value).index = head.index :=
  rfl

theorem get_write_apply (head : Head) (value : UInt8) (other : Int) :
    (head.write value).tape.get other = if other = head.index then value else head.tape.get other := by
  have written : (head.write value).tape = head.tape.put head.slot head.place value := rfl
  rw [written, head.slot_eq, head.place_eq]
  exact Tape.get_put head.covered other value

theorem get_write_self (head : Head) (value : UInt8) :
    (head.write value).tape.get head.index = value := by
  rw [get_write_apply, if_pos rfl]

theorem get_write_of_ne {head : Head} {other : Int} (different : other ≠ head.index)
    (value : UInt8) : (head.write value).tape.get other = head.tape.get other := by
  rw [get_write_apply, if_neg different]

@[simp] theorem read_write (head : Head) (value : UInt8) : (head.write value).read = value := by
  rw [read_eq_get, index_write, get_write_self]

@[simp] theorem covers_write_iff {head : Head} {value : UInt8} {index : Int} :
    (head.write value).tape.Covers index ↔ head.tape.Covers index :=
  Tape.stores_put_iff

theorem advance_ok_iff {head : Head} {distance : Int} :
    (∃ moved, head.advance distance = .ok moved) ↔ Tape.IsIndex (head.index + distance) := by
  unfold advance
  split <;> simp_all

theorem addAt_of_isIndex {head : Head} {distance : Int} (amount : UInt8)
    (inside : Tape.IsIndex (head.index + distance)) :
    head.addAt distance amount =
      let moved := head.moveTo (head.index + distance)
      .ok ((moved.write (moved.read + amount)).moveTo head.index) := by
  rw [addAt, advance_of_isIndex inside]
  simp only [shift_eq_moveTo, index_write, index_moveTo, Int.add_neg_cancel_right]

theorem addAt_of_not_isIndex {head : Head} {distance : Int} (amount : UInt8)
    (outside : ¬ Tape.IsIndex (head.index + distance)) : head.addAt distance amount = .error head := by
  rw [addAt, advance_of_not_isIndex outside]

theorem addAt_ok_iff {head : Head} {distance : Int} {amount : UInt8} :
    (∃ changed, head.addAt distance amount = .ok changed) ↔
      Tape.IsIndex (head.index + distance) := by
  by_cases inside : Tape.IsIndex (head.index + distance)
  · exact ⟨fun _ => inside, fun _ => ⟨_, addAt_of_isIndex amount inside⟩⟩
  · rw [addAt_of_not_isIndex amount inside]
    exact ⟨nofun, fun within => (inside within).elim⟩

theorem get_addAt {head changed : Head} {distance : Int} {amount : UInt8}
    (added : head.addAt distance amount = .ok changed) (other : Int) :
    changed.tape.get other =
      if other = head.index + distance then head.tape.get other + amount
      else head.tape.get other := by
  obtain rfl := Except.ok.inj
    ((addAt_of_isIndex amount (addAt_ok_iff.mp ⟨changed, added⟩)).symm.trans added)
  simp only [get_moveTo, get_write_apply, index_moveTo, read_eq_get]
  split
  · next same => rw [same]
  · rfl

theorem index_addAt {head changed : Head} {distance : Int} {amount : UInt8}
    (added : head.addAt distance amount = .ok changed) : changed.index = head.index := by
  obtain rfl := Except.ok.inj
    ((addAt_of_isIndex amount (addAt_ok_iff.mp ⟨changed, added⟩)).symm.trans added)
  rfl

end Head

end TapeMachine
