/-
**Looking for a zero cell.**

`Head.seek` says at once where a search ends. Turn by turn, the head looks at its cell and moves on by
the stride, and nothing but a zero cell, or the end of the range of indexes, ever stops it.

* `Head.seekIn`: the search, if it may take so many turns;
* `Tape.isIndex_of_walk`: a search never leaves the range of indexes;
* `Tape.exists_isLeast_zero`: with a stride there is a first zero cell, since only a stored cell can be
  anything else;
* `seek_of_seekIn`: a search that ends, ends as `Head.seek` says;
* `Head.Seeks`, `exists_seeks_least`: every search with a stride ends, on that first zero cell if it has
  an index.
-/

import Mathlib.Data.Nat.Find
import Mathlib.Order.Bounds.Basic
import Mathlib.Tactic.Linarith
import TapeMachine.Tape.Head

namespace TapeMachine

/-! ### Walks -/

namespace Tape

variable {tape other : Tape} {stride index last : Int}

theorem walk_congr (cells : ∀ cell, other.get cell = tape.get cell) (stride index : Int) :
    other.walk stride index = tape.walk stride index := by
  fun_induction walk tape stride index with
  | case1 index zero => rw [walk, cells, if_pos zero]
  | case2 index marked still => rw [walk, cells, if_neg marked, if_pos still]
  | case3 index marked moving inside ih =>
    rw [walk, cells, if_neg marked, if_neg moving, if_pos inside, ih]
  | case4 index marked moving outside =>
    rw [walk, cells, if_neg marked, if_neg moving, if_neg outside]

/-- Where a walk ends, and what is beyond if it is lost. -/
theorem isIndex_of_walk (inside : IsIndex index) :
    (tape.walk stride index = .found last → IsIndex last) ∧
      (tape.walk stride index = .lost last → IsIndex last ∧ ¬ IsIndex (last + stride)) := by
  fun_induction walk tape stride index with
  | case1 index zero =>
    constructor <;> intro same <;> cases same
    exact inside
  | case2 index marked still => constructor <;> intro same <;> cases same
  | case3 index marked moving next ih => exact ih next
  | case4 index marked moving outside =>
    constructor <;> intro same <;> cases same
    exact ⟨inside, outside⟩

/-- A walk ends at its first cell, or comes to the second one. -/
theorem walk_of_ne_zero (marked : tape.get index ≠ 0) (moving : stride ≠ 0) :
    tape.walk stride index =
      if IsIndex (index + stride) then tape.walk stride (index + stride) else .lost index := by
  rw [walk, if_neg marked, if_neg moving]

/-- Beyond what is stored all cells are zero. -/
theorem exists_zero (tape : Tape) (index : Int) (moving : stride ≠ 0) :
    ∃ count : Nat, tape.get (index + count * stride) = 0 := by
  by_contra marked
  simp only [not_exists] at marked
  obtain ⟨count, large⟩ : ∃ count, index.natAbs + (tape.left.size + tape.right.size) * pageSize < count :=
    ⟨_, Nat.lt_succ_self _⟩
  have covered := covers_iff.mp (covers_of_get_ne_zero (marked count))
  have far : (count : Int) ≤ count * stride ∨ count * stride ≤ -(count : Int) := by
    rcases Int.lt_or_gt_of_ne moving with down | up
    · right
      nlinarith
    · left
      nlinarith
  simp only [pageSize] at covered large
  omega

/-- There is a first zero cell on the way. -/
theorem exists_isLeast_zero (tape : Tape) (index : Int) (moving : stride ≠ 0) :
    ∃ count : Nat, IsLeast {count : Nat | tape.get (index + count * stride) = 0} count := by
  classical
  have zero := tape.exists_zero index moving
  exact ⟨Nat.find zero, Nat.find_spec zero, fun _ there => Nat.find_min' zero there⟩

/-- What is farther than a cell out of range is out of range. -/
theorem not_isIndex_of_le {count : Nat} (inside : IsIndex index)
    (outside : ¬ IsIndex (index + stride)) (further : 1 ≤ count) :
    ¬ IsIndex (index + count * stride) := by
  obtain ⟨more, rfl⟩ := Nat.exists_eq_add_of_le further
  have place : index + ((1 + more : Nat) : Int) * stride = index + stride + more * stride := by
    rw [Int.natCast_add, Int.add_mul]
    omega
  rw [place]
  unfold IsIndex at inside outside ⊢
  by_cases up : 0 ≤ stride
  · have beyond : 0 ≤ (more : Int) * stride := Int.mul_nonneg (Int.natCast_nonneg more) up
    omega
  · have beyond : (more : Int) * stride ≤ 0 :=
      Int.mul_nonpos_of_nonneg_of_nonpos (Int.natCast_nonneg more) (by omega)
    omega

end Tape

/-! ### Searches -/

namespace Head

variable {head : Head} {stride : Int} {outcome : Except Head Head}

/-- Moves by a stride until the cell is zero, if so many turns are enough. -/
def seekIn (stride : Int) : Nat → Head → Option (Except Head Head)
  | 0, _ => none
  | turns + 1, head =>
    if head.read = 0 then some (.ok head)
    else
      match head.advance stride with
      | .ok moved => seekIn stride turns moved
      | .error last => some (.error last)

theorem moveTo_self (head : Head) : head.moveTo head.index = head :=
  ext_of_index (Tape.ensure_of_stores (head.covered)) rfl

/-- A stored cell on the way leaves no trace. -/
theorem moveTo_moveTo {between last : Int}
    (stored : last = between ∨ head.tape.Covers between) :
    (head.moveTo between).moveTo last = head.moveTo last := by
  refine ext_of_index ?_ rfl
  rcases stored with rfl | covered
  · exact Tape.ensure_of_stores (Tape.covers_reserve_self head.tape last)
  · have same : head.tape.reserve between = head.tape := Tape.ensure_of_stores covered
    exact congrArg (Tape.reserve · last) same

/-- A search from a cell that is not zero is a search from the next one. -/
theorem seek_of_ne_zero (marked : head.read ≠ 0) (moving : stride ≠ 0)
    (inside : Tape.IsIndex (head.index + stride)) :
    head.seek stride = (head.moveTo (head.index + stride)).seek stride := by
  rw [read_eq_get] at marked
  have walked : (head.moveTo (head.index + stride)).tape.walk stride (head.index + stride) =
      head.tape.walk stride (head.index + stride) :=
    Tape.walk_congr (fun cell => get_moveTo ..) _ _
  unfold seek
  rw [Tape.walk_of_ne_zero marked moving, if_pos inside, index_moveTo, walked]
  have passed {last : Int} (landed : last = head.index + stride ∨
      head.tape.get (head.index + stride) ≠ 0) :
      (head.moveTo (head.index + stride)).moveTo last = head.moveTo last :=
    moveTo_moveTo (landed.imp_right Tape.covers_of_get_ne_zero)
  by_cases zero : head.tape.get (head.index + stride) = 0
  · rw [Tape.walk, if_pos zero]
    simp only [passed (.inl rfl)]
  · cases head.tape.walk stride (head.index + stride) <;> simp only [passed (.inr zero)]

/-- **A search that ends, ends as `seek` says.** -/
theorem seek_of_seekIn (moving : stride ≠ 0) {turns : Nat}
    (ended : head.seekIn stride turns = some outcome) : head.seek stride = some outcome := by
  induction turns generalizing head with
  | zero => cases ended
  | succ turns ih =>
    rw [seekIn] at ended
    split at ended
    · next zero =>
      cases ended
      rw [read_eq_get] at zero
      have here : head.tape.walk stride head.index = .found head.index := by
        rw [Tape.walk, if_pos zero]
      simp only [seek, here, moveTo_self]
    · next marked =>
      by_cases inside : Tape.IsIndex (head.index + stride)
      · rw [advance_of_isIndex inside] at ended
        rw [seek_of_ne_zero marked moving inside]
        exact ih ended
      · rw [advance_of_not_isIndex inside] at ended
        cases ended
        rw [read_eq_get] at marked
        simp only [seek, Tape.walk_of_ne_zero marked moving, if_neg inside, moveTo_self]

/-- The search ends with the outcome, and on the cell that many strides away if that has an index. -/
structure Seeks (head : Head) (stride : Int) (count : Nat) (outcome : Except Head Head) : Prop where
  ended : ∀ turns > count, head.seekIn stride turns = some outcome
  found : Tape.IsIndex (head.index + count * stride) →
    outcome = .ok (head.moveTo (head.index + count * stride))
  lost : ¬ Tape.IsIndex (head.index + count * stride) → ∃ last, outcome = .error last

theorem seeks_of_zero (inside : Tape.IsIndex head.index) (zero : head.read = 0) :
    head.Seeks stride 0 (.ok head) where
  ended turns enough := by
    obtain ⟨turns, rfl⟩ : ∃ rest, turns = rest + 1 := ⟨turns - 1, by omega⟩
    rw [seekIn, if_pos zero]
  found _ := by simp [moveTo_self]
  lost outside := by simp [inside] at outside

/-- A search that cannot go on. -/
theorem seeks_of_not_isIndex (inside : Tape.IsIndex head.index) (marked : head.read ≠ 0)
    (outside : ¬ Tape.IsIndex (head.index + stride)) (count : Nat) :
    head.Seeks stride (count + 1) (.error head) where
  ended turns enough := by
    obtain ⟨turns, rfl⟩ : ∃ rest, turns = rest + 1 := ⟨turns - 1, by omega⟩
    rw [seekIn, if_neg marked, advance_of_not_isIndex outside]
  found there := absurd there (Tape.not_isIndex_of_le inside outside (Nat.succ_pos count))
  lost _ := ⟨head, rfl⟩

/-- A search goes on from the next cell. -/
theorem Seeks.behind {count : Nat} (marked : head.read ≠ 0)
    (next : Tape.IsIndex (head.index + stride))
    (later : (head.moveTo (head.index + stride)).Seeks stride count outcome)
    (stored : 0 < count → head.tape.Covers (head.index + stride)) :
    head.Seeks stride (count + 1) outcome := by
  have place : head.index + ((count + 1 : Nat) : Int) * stride =
      head.index + stride + count * stride := by
    rw [Int.natCast_add, Int.add_mul]
    omega
  obtain ⟨ended, found, lost⟩ := later
  constructor
  · intro turns enough
    obtain ⟨turns, rfl⟩ : ∃ rest, turns = rest + 1 := ⟨turns - 1, by omega⟩
    rw [seekIn, if_neg marked, advance_of_isIndex next]
    exact ended turns (Nat.lt_of_succ_lt_succ enough)
  · rw [place]
    intro there
    rw [found there, index_moveTo, moveTo_moveTo]
    cases count with
    | zero => exact .inl (by simp)
    | succ count => exact .inr (stored (Nat.succ_pos count))
  · rwa [place]

/-- A search over a number of cells that are not zero. -/
theorem exists_seeks {count : Nat} (inside : Tape.IsIndex head.index)
    (marked : ∀ earlier < count, head.tape.get (head.index + (earlier : Nat) * stride) ≠ 0)
    (zero : head.tape.get (head.index + count * stride) = 0) :
    ∃ outcome, head.Seeks stride count outcome := by
  induction count generalizing head with
  | zero => exact ⟨_, seeks_of_zero inside (by simpa [read_eq_get] using zero)⟩
  | succ count ih =>
    have first : head.read ≠ 0 := by
      have here := marked 0 (Nat.succ_pos _)
      simpa [read_eq_get] using here
    have place (turns : Nat) : head.index + ((turns + 1 : Nat) : Int) * stride =
        head.index + stride + turns * stride := by
      rw [Int.natCast_add, Int.add_mul]
      omega
    by_cases next : Tape.IsIndex (head.index + stride)
    · obtain ⟨outcome, later⟩ := @ih (head.moveTo (head.index + stride)) next
        (fun earlier before => by
          rw [get_moveTo, index_moveTo, ← place]
          exact marked (earlier + 1) (Nat.succ_lt_succ before))
        (by rwa [get_moveTo, index_moveTo, ← place])
      refine ⟨outcome, later.behind first next fun more => Tape.covers_of_get_ne_zero ?_⟩
      simpa using marked 1 (Nat.succ_lt_succ more)
    · exact ⟨_, seeks_of_not_isIndex inside first next count⟩

/-- **Every search with a stride ends**, on the first zero cell, unless that has no index. -/
theorem exists_seeks_least (moving : stride ≠ 0) (inside : Tape.IsIndex head.index) :
    ∃ count outcome, IsLeast {count : Nat | head.tape.get (head.index + count * stride) = 0} count ∧
      head.Seeks stride count outcome := by
  obtain ⟨count, zero, least⟩ := head.tape.exists_isLeast_zero head.index moving
  have marked (earlier : Nat) (before : earlier < count) :
      head.tape.get (head.index + earlier * stride) ≠ 0 :=
    fun there => Nat.not_le_of_lt before (least there)
  obtain ⟨outcome, seeks⟩ := exists_seeks inside marked zero
  exact ⟨count, outcome, ⟨zero, least⟩, seeks⟩

end Head

end TapeMachine
