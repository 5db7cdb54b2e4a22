/-
**How much of the tape is stored.**

The stored part of a tape only grows, and by no more than the pages that the head gets to.

* `Tape.Within`: what one tape stores, another stores too;
* `Tape.within_reserve`: a tape that stores a cell stores the pages that are added to get there;
* `Head.Grows`: from one head to another, some cells were visited, and nothing else was stored;
* `Head.grows_clearRun`, `Head.get_clearRun`: what a reset does.
-/

import TapeMachine.Tape.Head

namespace TapeMachine

/-! ### Comparing what is stored -/

namespace Tape

/-- What the tape stores, the other stores too. -/
def Within (tape bound : Tape) : Prop :=
  ∀ index, tape.Covers index → bound.Covers index

theorem Within.refl (tape : Tape) : tape.Within tape := fun _ => id

theorem Within.trans {first second third : Tape} (here : first.Within second)
    (there : second.Within third) : first.Within third :=
  fun index covered => there index (here index covered)

theorem within_iff {tape bound : Tape} :
    tape.Within bound ↔ tape.right.size ≤ bound.right.size ∧ tape.left.size ≤ bound.left.size := by
  simp only [Within, covers_iff]
  constructor
  · intro within
    refine ⟨Nat.le_of_not_lt fun less => ?_, Nat.le_of_not_lt fun less => ?_⟩
    · have further := Nat.mul_lt_mul_of_pos_right less (show 0 < pageSize by decide)
      have inside := within (bound.right.size * pageSize : Nat) (by omega)
      omega
    · have further := Nat.mul_lt_mul_of_pos_right less (show 0 < pageSize by decide)
      have inside := within (-(bound.left.size * pageSize + 1 : Nat)) (by omega)
      omega
  · rintro ⟨right, left⟩ index covered
    have farther := Nat.mul_le_mul_right pageSize right
    have further := Nat.mul_le_mul_right pageSize left
    omega

/-- A smaller tape has no more pages. -/
theorem pages_le_of_within {tape bound : Tape} (within : tape.Within bound) :
    tape.pages ≤ bound.pages := by
  obtain ⟨right, left⟩ := within_iff.mp within
  exact Nat.add_le_add left right

/-- A tape that stores a page stores all pages between it and the start. -/
theorem within_reserve {tape bound : Tape} {index : Int} (within : tape.Within bound)
    (covered : bound.Covers index) : (tape.reserve index).Within bound := by
  rw [within_iff] at within ⊢
  unfold Covers at covered
  unfold reserve
  generalize Slot.ofPage (pageOf index) = slot at covered ⊢
  cases slot <;> simp only [Stores, ensure, Row.size_fill] at covered ⊢ <;> omega

theorem within_reserve_self (tape : Tape) (index : Int) : tape.Within (tape.reserve index) :=
  fun _ covered => covers_reserve covered index

end Tape

/-! ### Heads -/

namespace Head

/-- The cells were visited on the way from one head to the other, and nothing else was stored. -/
structure Grows (visits : List Int) (before after : Head) : Prop where
  stays : before.tape.Within after.tape
  visited : ∀ cell ∈ visits, after.tape.Covers cell
  within : ∀ bound, before.tape.Within bound → (∀ cell ∈ visits, bound.Covers cell) →
    after.tape.Within bound

theorem Grows.refl (head : Head) : Grows [] head head where
  stays := Tape.Within.refl _
  visited _ member := absurd member List.not_mem_nil
  within _ within _ := within

theorem Grows.trans {first second : List Int} {before between after : Head}
    (here : Grows first before between) (there : Grows second between after) :
    Grows (second ++ first) before after where
  stays := here.stays.trans there.stays
  visited cell member := by
    rcases List.mem_append.mp member with late | early
    · exact there.visited cell late
    · exact there.stays cell (here.visited cell early)
  within bound within covered :=
    there.within bound
      (here.within bound within fun cell member => covered cell (List.mem_append_right _ member))
      fun cell member => covered cell (List.mem_append_left _ member)

theorem grows_moveTo (head : Head) (index : Int) : Grows [index] head (head.moveTo index) where
  stays := Tape.within_reserve_self head.tape index
  visited cell member := by
    obtain rfl := List.mem_singleton.mp member
    exact Tape.covers_reserve_self head.tape cell
  within bound within covered :=
    Tape.within_reserve within (covered index (List.mem_singleton.mpr rfl))

theorem grows_write (head : Head) (value : UInt8) : Grows [] head (head.write value) where
  stays _ covered := covers_write_iff.mpr covered
  visited _ member := absurd member List.not_mem_nil
  within _ within _ index covered := within index (covers_write_iff.mp covered)

theorem Grows.congr {visits others : List Int} {before after : Head}
    (grows : Grows visits before after) (same : ∀ cell, cell ∈ visits ↔ cell ∈ others) :
    Grows others before after where
  stays := grows.stays
  visited cell member := grows.visited cell ((same cell).mpr member)
  within bound within covered :=
    grows.within bound within fun cell member => covered cell ((same cell).mp member)

theorem grows_addAt {head changed : Head} {distance : Int} {amount : UInt8}
    (added : head.addAt distance amount = .ok changed) :
    Grows [head.index + distance] head changed := by
  have inside := addAt_ok_iff.mp ⟨changed, added⟩
  obtain rfl := Except.ok.inj ((addAt_of_isIndex amount inside).symm.trans added)
  have there := grows_moveTo head (head.index + distance)
  refine ⟨((there.trans (grows_write _ _)).trans (grows_moveTo _ head.index)).stays, ?_, ?_⟩
  · intro cell member
    exact Tape.covers_reserve (covers_write_iff.mpr (there.visited cell member)) _
  · intro bound within covered
    refine Tape.within_reserve ?_ (within _ head.covered)
    exact fun index stored => there.within bound within covered index (covers_write_iff.mp stored)

/-! ### Clearing -/

/-- The cells where clearing `count` further cells gets to. -/
def ahead (index stride : Int) (count : Nat) : List Int :=
  (List.range count).map fun turn => index + ((turn + 1 : Nat) : Int) * stride

theorem mem_ahead {index stride cell : Int} {count : Nat} :
    cell ∈ ahead index stride count ↔
      ∃ turn < count, cell = index + ((turn + 1 : Nat) : Int) * stride := by
  simp only [ahead, List.mem_map, List.mem_range, eq_comm]

/-- The next cell, and those ahead of it. -/
theorem mem_ahead_succ {index stride cell : Int} {count : Nat} :
    cell ∈ ahead index stride (count + 1) ↔
      cell ∈ ahead (index + stride) stride count ++ [index + stride] := by
  have step (turn : Nat) : index + stride + ((turn + 1 : Nat) : Int) * stride =
      index + ((turn + 1 + 1 : Nat) : Int) * stride := by
    rw [Int.natCast_add (turn + 1) 1, Int.add_mul]
    omega
  simp only [List.mem_append, mem_ahead, List.mem_singleton, step]
  constructor
  · rintro ⟨turn, small, rfl⟩
    cases turn with
    | zero => right; simp
    | succ turn => exact .inl ⟨turn, by omega, rfl⟩
  · rintro (⟨turn, small, rfl⟩ | rfl)
    · exact ⟨turn + 1, by omega, rfl⟩
    · exact ⟨0, by omega, by simp⟩

theorem clearRun_of_isIndex {stride : Int} {count : Nat} {head : Head}
    (inside : ∀ cell ∈ ahead head.index stride count, Tape.IsIndex cell) :
    ∃ next, clearRun stride (count + 1) head = .ok next ∧
      next.index = head.index + count * stride ∧
      (∀ cell, cell = head.index ∨ cell ∈ ahead head.index stride count →
        next.tape.get cell = 0) ∧
      (∀ cell, cell ≠ head.index → cell ∉ ahead head.index stride count →
        next.tape.get cell = head.tape.get cell) ∧
      Grows (ahead head.index stride count) head next := by
  induction count generalizing head with
  | zero =>
    refine ⟨head.write 0, rfl, by simp, ?_, ?_, grows_write head 0⟩
    · rintro cell (rfl | member)
      · exact get_write_self head 0
      · exact absurd member List.not_mem_nil
    · exact fun cell off _ => get_write_of_ne off 0
  | succ count ih =>
    have next : head.index + stride ∈ ahead head.index stride (count + 1) :=
      mem_ahead_succ.mpr (List.mem_append_right _ (List.mem_singleton.mpr rfl))
    have moved : (head.write 0).advance stride = .ok ((head.write 0).moveTo (head.index + stride)) :=
      advance_of_isIndex (inside _ next)
    have later : ∀ cell ∈ ahead ((head.write 0).moveTo (head.index + stride)).index stride count,
        Tape.IsIndex cell := fun cell member =>
      inside cell (mem_ahead_succ.mpr (List.mem_append_left _ member))
    obtain ⟨last, cleared, index, zeros, others, grows⟩ := ih later
    rw [index_moveTo] at index zeros others grows
    refine ⟨last, ?_, ?_, ?_, ?_, ?_⟩
    · rw [clearRun, moved]
      exact cleared
    · rw [index, Int.natCast_add, Int.add_mul]
      omega
    · rintro cell visited
      by_cases again : cell = head.index + stride ∨ cell ∈ ahead (head.index + stride) stride count
      · exact zeros cell again
      · have first : cell = head.index := by
          refine visited.resolve_right fun member => again ?_
          rcases List.mem_append.mp (mem_ahead_succ.mp member) with late | early
          · exact .inr late
          · exact .inl (List.mem_singleton.mp early)
        rw [others cell (fun same => again (.inl same)) (fun member => again (.inr member)),
          get_moveTo, first]
        exact get_write_self head 0
    · intro cell off member
      rw [mem_ahead_succ, List.mem_append, List.mem_singleton, not_or] at member
      rw [others cell member.2 member.1, get_moveTo, get_write_of_ne off]
    · refine (((grows_write head 0).trans (grows_moveTo _ _)).trans grows).congr fun cell => ?_
      rw [mem_ahead_succ, List.append_nil]

theorem clearRun_of_not_isIndex {stride : Int} {count : Nat} {head : Head}
    (outside : ¬ ∀ cell ∈ ahead head.index stride count, Tape.IsIndex cell) :
    ∃ last, clearRun stride (count + 1) head = .error last := by
  induction count generalizing head with
  | zero => exact (outside fun cell member => absurd member List.not_mem_nil).elim
  | succ count ih =>
    rw [clearRun]
    by_cases inside : Tape.IsIndex (head.index + stride)
    · have moved : (head.write 0).advance stride =
          .ok ((head.write 0).moveTo (head.index + stride)) := advance_of_isIndex inside
      rw [moved]
      refine ih fun later => outside fun cell member => ?_
      rcases List.mem_append.mp (mem_ahead_succ.mp member) with late | early
      · exact later cell late
      · exact List.mem_singleton.mp early ▸ inside
    · have stopped : (head.write 0).advance stride = .error (head.write 0) :=
        advance_of_not_isIndex inside
      rw [stopped]
      exact ⟨_, rfl⟩

end Head

end TapeMachine
