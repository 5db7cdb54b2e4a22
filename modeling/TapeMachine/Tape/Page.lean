/-
**Pages.**

Cells are stored by the page. The pages are numbered from left to right, the one of the starting cell
is number zero, and they are kept in two rows: the pages from that one on, and those before it, from
the middle outwards.

* `pageOf`, `placeOf`: the page of a cell and the place on it, which together tell the cell;
* `Slot.ofPage`: where a page is kept, and `ofPage_injective`: each has a slot of its own;
* `Row.cell`, `Row.put`, `Row.fill`: reading, writing and growing a row of pages.
-/

namespace TapeMachine

/-! ### The page of a cell -/

/-- The number of cells in a page. -/
def pageSize : Nat := 256

/-- The page that a cell is on. -/
def pageOf (index : Int) : Int :=
  index / pageSize

/-- The place of a cell on its page. -/
def placeOf (index : Int) : Fin pageSize :=
  ⟨(index % pageSize).toNat, by simp only [pageSize]; omega⟩

theorem eq_of_pageOf_eq {index other : Int} (page : pageOf index = pageOf other)
    (place : placeOf index = placeOf other) : index = other := by
  simp only [pageOf, placeOf, pageSize, Fin.mk.injEq] at page place
  omega

/-! ### Where pages are kept -/

/-- Where a page is kept. -/
inductive Slot where
  /-- Among the pages from zero on. -/
  | right (number : Nat)
  /-- Among the pages below zero, counted from the middle. -/
  | left (number : Nat)
  deriving DecidableEq

/-- The slot of a page. -/
def Slot.ofPage (page : Int) : Slot :=
  if 0 ≤ page then .right page.toNat else .left (-(page + 1)).toNat

theorem Slot.ofPage_injective {page other : Int} (same : ofPage page = ofPage other) :
    page = other := by
  unfold ofPage at same
  split at same <;> split at same <;> simp only [right.injEq, left.injEq, reduceCtorEq] at same
  all_goals omega

/-- The cells of a page. -/
abbrev Page := Vector UInt8 pageSize

namespace Page

/-- A page on which nothing was written. -/
def blank : Page := Vector.replicate pageSize 0

/-- The cell at a place of a page. -/
def cell (page : Page) (place : Fin pageSize) : UInt8 :=
  page[place]

/-- Writes the cell at a place of a page. -/
def put (page : Page) (place : Fin pageSize) (value : UInt8) : Page :=
  page.set place value

@[simp] theorem cell_blank (place : Fin pageSize) : blank.cell place = 0 := by
  simp [cell, blank]

@[simp] theorem cell_put_self (page : Page) (place : Fin pageSize) (value : UInt8) :
    (page.put place value).cell place = value := by
  simp [cell, put]

theorem cell_put_of_ne {place other : Fin pageSize} (different : other ≠ place) (page : Page)
    (value : UInt8) : (page.put place value).cell other = page.cell other := by
  have apart : place.val ≠ other.val := fun same => different (Fin.ext same.symm)
  simp [cell, put, apart]

end Page

/-! ### Rows of pages -/

/-- The pages on one side, from the middle outwards. -/
abbrev Row := Array Page

namespace Row

/-- A cell, which is zero on a page that is not there. -/
def cell (row : Row) (number : Nat) (place : Fin pageSize) : UInt8 :=
  match row[number]? with
  | some page => page.cell place
  | none => 0

/-- Writes a cell of a page that is there. -/
def put (row : Row) (number : Nat) (place : Fin pageSize) (value : UInt8) : Row :=
  row.modify number (·.put place value)

/-- Adds blank pages up to the one with a number. -/
def fill (row : Row) (number : Nat) : Row :=
  if number < row.size then row
  else row ++ Array.replicate (number + 1 - row.size) Page.blank

variable {row : Row} {number other : Nat} {place there : Fin pageSize} {value : UInt8}

theorem cell_of_size_le (outside : row.size ≤ number) : row.cell number place = 0 := by
  simp [cell, Array.getElem?_eq_none outside]

@[simp] theorem size_put : (row.put number place value).size = row.size := by
  simp [put]

theorem cell_put_self (stored : number < row.size) :
    (row.put number place value).cell number place = value := by
  simp [cell, put, Array.getElem_modify, stored]

theorem cell_put_of_ne (different : other ≠ number ∨ there ≠ place) :
    (row.put number place value).cell other there = row.cell other there := by
  simp only [cell, put, Array.getElem?_modify]
  by_cases same : number = other
  · subst same
    have apart : there ≠ place := different.resolve_left fun off => off rfl
    cases row[number]? <;> simp [Page.cell_put_of_ne apart]
  · rw [if_neg same]

theorem fill_of_lt (stored : number < row.size) : row.fill number = row :=
  if_pos stored

theorem size_fill : (row.fill number).size = max row.size (number + 1) := by
  unfold fill
  split
  · omega
  · simp only [Array.size_append, Array.size_replicate]
    omega

@[simp] theorem cell_fill : (row.fill number).cell other place = row.cell other place := by
  unfold fill
  split
  · rfl
  · by_cases stored : other < row.size
    · simp [cell, Array.getElem?_append, stored]
    · rw [cell_of_size_le (Nat.le_of_not_lt stored)]
      simp only [cell, Array.getElem?_append, if_neg stored, Array.getElem?_replicate]
      split
      · next page found =>
        split at found
        · obtain rfl := Option.some.inj found
          exact Page.cell_blank place
        · cases found
      · rfl

end Row

end TapeMachine
