/-
**The tape.**

The tape is a row of byte cells without ends. Cells are numbered from the one where programs start,
those to the left of it by negative numbers, and all are zero until they are written. Only pages near
the start are stored: a page is added when the head gets there, together with all pages between it and
the start.

* `covers_iff`: the cells that are stored;
* `get_put`: writing changes the cell that is written and no other;
* `get_reserve`: storing more of the tape changes no cell;
* `covers_reserve_self`, `covers_reserve`: what is reserved is stored, and stays so;
* `covers_of_get_ne_zero`: a cell that is not zero is stored, so there are finitely many of them;
* `walk_eq_never_iff`, `exists_of_walk_eq_found`: so a walk with a stride ends, and on the first zero
  cell that it meets.
-/

import TapeMachine.Tape.Page

namespace TapeMachine

/-- The tape, as two rows of pages. -/
structure Tape where
  /-- The pages from zero on. -/
  right : Row
  /-- The pages below zero. -/
  left : Row
  /-- The page of the starting cell is always stored. -/
  origin : 0 < right.size

namespace Tape

/-- Nothing was written yet, and the head has been nowhere else. -/
def blank : Tape := ⟨#[Page.blank], #[], Nat.one_pos⟩

/-- A page is kept in the slot. -/
def Stores (tape : Tape) : Slot → Prop
  | .right number => number < tape.right.size
  | .left number => number < tape.left.size

/-- The page in a slot. -/
def page (tape : Tape) (slot : Slot) (stored : tape.Stores slot) : Page :=
  match slot, stored with
  | .right number, stored => tape.right[number]
  | .left number, stored => tape.left[number]

/-- The cell at a place of the page in a slot, which is zero if there is none. -/
def cell (tape : Tape) : Slot → Fin pageSize → UInt8
  | .right number, place => tape.right.cell number place
  | .left number, place => tape.left.cell number place

/-- Writes at a place of the page in a slot. -/
def put (tape : Tape) (slot : Slot) (place : Fin pageSize) (value : UInt8) : Tape :=
  match tape, slot with
  | ⟨right, left, origin⟩, .right number =>
    ⟨right.put number place value, left, Row.size_put.symm ▸ origin⟩
  | ⟨right, left, origin⟩, .left number => ⟨right, left.put number place value, origin⟩

/-- Stores a page in a slot, and in all slots between it and the middle. -/
def ensure (tape : Tape) (slot : Slot) : Tape :=
  match tape, slot with
  | ⟨right, left, origin⟩, .right number =>
    ⟨right.fill number, left, by rw [Row.size_fill]; omega⟩
  | ⟨right, left, origin⟩, .left number => ⟨right, left.fill number, origin⟩

/-- A cell. -/
def get (tape : Tape) (index : Int) : UInt8 :=
  tape.cell (Slot.ofPage (pageOf index)) (placeOf index)

/-- Stores the page of a cell and all pages between it and the start. -/
def reserve (tape : Tape) (index : Int) : Tape :=
  tape.ensure (Slot.ofPage (pageOf index))

/-- The cell is stored. -/
def Covers (tape : Tape) (index : Int) : Prop :=
  tape.Stores (Slot.ofPage (pageOf index))

/-- The number of stored pages. -/
def pages (tape : Tape) : Nat :=
  tape.left.size + tape.right.size

/-- The cells that are not zero, from left to right. -/
def support (tape : Tape) : List (Int × UInt8) :=
  let left := (List.range (tape.left.size * pageSize)).reverse.map Int.negSucc
  let right := (List.range (tape.right.size * pageSize)).map Int.ofNat
  ((left ++ right).map fun index => (index, tape.get index)).filter fun cell => cell.2 ≠ 0

/-! ### Pages in slots -/

section Slots

variable {tape : Tape} {slot other : Slot} {place there : Fin pageSize} {value : UInt8}

theorem cell_page (stored : tape.Stores slot) (place : Fin pageSize) :
    (tape.page slot stored).cell place = tape.cell slot place := by
  cases slot <;> simp only [page, cell, Row.cell, Array.getElem?_eq_getElem stored]

theorem cell_put_self (stored : tape.Stores slot) :
    (tape.put slot place value).cell slot place = value := by
  cases slot <;> exact Row.cell_put_self stored

theorem cell_put_of_ne (different : other ≠ slot ∨ there ≠ place) :
    (tape.put slot place value).cell other there = tape.cell other there := by
  cases slot <;> cases other <;> simp only [cell, put]
  all_goals
    refine Row.cell_put_of_ne (different.imp_left fun off same => off ?_)
    rw [same]

@[simp] theorem stores_put_iff : (tape.put slot place value).Stores other ↔ tape.Stores other := by
  cases slot <;> cases other <;> simp [Stores, put]

theorem ensure_of_stores (stored : tape.Stores slot) : tape.ensure slot = tape := by
  cases slot <;> simp only [ensure, Row.fill_of_lt stored]

@[simp] theorem cell_ensure : (tape.ensure slot).cell other place = tape.cell other place := by
  cases slot <;> cases other <;> simp [cell, ensure]

theorem stores_ensure_self (tape : Tape) (slot : Slot) : (tape.ensure slot).Stores slot := by
  cases slot <;> simp only [Stores, ensure, Row.size_fill] <;> omega

theorem stores_ensure (stored : tape.Stores slot) (other : Slot) :
    (tape.ensure other).Stores slot := by
  cases slot <;> cases other <;> simp only [Stores, ensure, Row.size_fill] at stored ⊢ <;> omega

end Slots

/-! ### Cells -/

@[simp] theorem get_blank (index : Int) : blank.get index = 0 := by
  unfold get
  generalize Slot.ofPage (pageOf index) = slot
  cases slot with
  | right number => cases number <;> simp [cell, Row.cell, blank]
  | left number => simp [cell, Row.cell, blank]

theorem get_put {tape : Tape} {index : Int} (covered : tape.Covers index) (other : Int)
    (value : UInt8) :
    (tape.put (Slot.ofPage (pageOf index)) (placeOf index) value).get other =
      if other = index then value else tape.get other := by
  split
  · next same =>
    subst same
    exact cell_put_self covered
  · next different =>
    refine cell_put_of_ne ?_
    by_cases page : Slot.ofPage (pageOf other) = Slot.ofPage (pageOf index)
    · exact .inr fun place => different (eq_of_pageOf_eq (Slot.ofPage_injective page) place)
    · exact .inl page

@[simp] theorem get_reserve (tape : Tape) (index other : Int) :
    (tape.reserve index).get other = tape.get other :=
  cell_ensure

theorem covers_reserve_self (tape : Tape) (index : Int) : (tape.reserve index).Covers index :=
  tape.stores_ensure_self _

theorem covers_reserve {tape : Tape} {index : Int} (covered : tape.Covers index) (other : Int) :
    (tape.reserve other).Covers index :=
  stores_ensure covered _

theorem covers_of_get_ne_zero {tape : Tape} {index : Int} (marked : tape.get index ≠ 0) :
    tape.Covers index := by
  unfold get at marked
  unfold Covers
  generalize Slot.ofPage (pageOf index) = slot at marked ⊢
  cases slot <;> exact Nat.lt_of_not_le fun outside => marked (Row.cell_of_size_le outside)

/-- What is stored is a stretch of the tape. -/
theorem covers_iff {tape : Tape} {index : Int} : tape.Covers index ↔
    -(tape.left.size * pageSize : Nat) ≤ index ∧ index < (tape.right.size * pageSize : Nat) := by
  unfold Covers Slot.ofPage pageOf
  split
  · simp only [Stores, pageSize] at *
    omega
  · simp only [Stores, pageSize] at *
    omega

theorem mem_support {tape : Tape} {index : Int} {value : UInt8} :
    (index, value) ∈ tape.support ↔ tape.get index = value ∧ value ≠ 0 := by
  simp only [support, List.mem_filter, List.mem_map, List.mem_append, List.mem_reverse,
    List.mem_range, Prod.mk.injEq, decide_eq_true_eq]
  constructor
  · rintro ⟨⟨_, _, rfl, found⟩, marked⟩
    exact ⟨found, marked⟩
  · rintro ⟨found, marked⟩
    refine ⟨⟨index, ?_, rfl, found⟩, marked⟩
    obtain ⟨low, high⟩ := covers_iff.mp (covers_of_get_ne_zero (found ▸ marked))
    cases index with
    | ofNat place => exact Or.inr ⟨place, Int.ofNat_lt.mp high, rfl⟩
    | negSucc place => exact Or.inl ⟨place, by omega, rfl⟩

/-! ### Looking for a zero cell -/

/-- Where a walk for a zero cell ends. -/
inductive Landing where
  /-- This cell is zero. -/
  | found (index : Int)
  /-- The next cell would have no index. -/
  | lost (index : Int)
  /-- The walk stays on a cell that is not zero. -/
  | never
  deriving DecidableEq

/-- The indexes that a head can have: the signed 64-bit numbers. -/
def IsIndex (index : Int) : Prop :=
  -0x8000000000000000 ≤ index ∧ index ≤ 0x7fffffffffffffff

instance (index : Int) : Decidable (IsIndex index) :=
  inferInstanceAs (Decidable (_ ∧ _))

/-- How far it is from a stored cell to the end of what is stored. -/
def distance (tape : Tape) (stride index : Int) : Nat :=
  if 0 < stride then ((tape.right.size * pageSize : Nat) - index).toNat
  else (index + (tape.left.size * pageSize : Nat) + 1).toNat

/-- Walks by a stride from a cell until a cell is zero. -/
def walk (tape : Tape) (stride index : Int) : Landing :=
  if tape.get index = 0 then .found index
  else if stride = 0 then .never
  else if IsIndex (index + stride) then walk tape stride (index + stride)
  else .lost index
termination_by tape.distance stride index
decreasing_by
  rename_i marked moving _
  have bounds := covers_iff.mp (covers_of_get_ne_zero marked)
  unfold distance
  split <;> omega

/-- A walk stays for ever only without a stride. -/
theorem walk_eq_never_iff {tape : Tape} {stride index : Int} :
    tape.walk stride index = .never ↔ tape.get index ≠ 0 ∧ stride = 0 := by
  fun_induction walk tape stride index with
  | case1 index zero => simp [zero]
  | case2 index marked still => simp [marked, still]
  | case3 index marked moving inside ih => simp [ih, marked, moving]
  | case4 index marked moving outside => simp [marked, moving]

/-- A walk that ends on a zero cell ends on the first one. -/
theorem exists_of_walk_eq_found {tape : Tape} {stride index last : Int}
    (found : tape.walk stride index = .found last) :
    ∃ count : Nat, last = index + count * stride ∧ tape.get last = 0 ∧
      ∀ earlier < count, tape.get (index + earlier * stride) ≠ 0 := by
  fun_induction walk tape stride index with
  | case1 index zero =>
    cases found
    exact ⟨0, by simp, zero, by simp⟩
  | case2 index marked still => cases found
  | case4 index marked moving outside => cases found
  | case3 index marked moving inside ih =>
    obtain ⟨count, rfl, zero, before⟩ := ih found
    refine ⟨count + 1, ?_, zero, fun earlier small => ?_⟩
    · rw [Int.natCast_add, Int.add_mul]
      omega
    · cases earlier with
      | zero => simpa using marked
      | succ earlier =>
        have next := before earlier (by omega)
        rw [Int.natCast_add, Int.add_mul]
        rwa [show index + (earlier * stride + (1 : Nat) * stride) = index + stride + earlier * stride
          by omega]

end Tape

end TapeMachine
