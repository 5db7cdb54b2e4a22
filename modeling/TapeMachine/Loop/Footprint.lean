/-
**The cells that a loop body touches.**

Cells are named by their distance from the counter of the loop. Where a counted loop is done in one
go, the regions, resets and constants inside of it happen once instead of once a turn. That is the
same only if doing them again would change nothing, which `Footprint.Repeatable` makes sure of:

* no cell that is assigned, that a nested region counts down or that it adds to is the counter, and
  the body itself adds to none of them;
* no counter of a nested region is added to or given a constant;
* no cell that a nested region adds to is assigned.
-/

namespace TapeMachine.Loop

/-- The cells that a loop body touches, by what it does to them. -/
structure Footprint where
  /-- The body itself adds to these. -/
  added : List Int := []
  /-- These are cleared or given a constant. -/
  assigned : List Int := []
  /-- These are given a constant. -/
  constants : List Int := []
  /-- Nested regions count these down. -/
  counters : List Int := []
  /-- Nested regions add to these. -/
  targets : List Int := []

namespace Footprint

/-- The cells that must be the same after every turn. -/
def touched (footprint : Footprint) : List Int :=
  footprint.assigned ++ footprint.counters ++ footprint.targets

/-- Doing the nested work once is as good as doing it every turn. -/
def Repeatable (footprint : Footprint) : Prop :=
  (∀ cell ∈ footprint.touched, cell ≠ 0 ∧ cell ∉ footprint.added) ∧
    (∀ cell ∈ footprint.counters, cell ∉ footprint.targets ∧ cell ∉ footprint.constants) ∧
    ∀ cell ∈ footprint.targets, cell ∉ footprint.assigned

instance (footprint : Footprint) : Decidable footprint.Repeatable :=
  inferInstanceAs (Decidable (_ ∧ _ ∧ _))

/-- A body that only adds has nothing to repeat. -/
theorem repeatable_of_touched_eq_nil {footprint : Footprint} (untouched : footprint.touched = []) :
    footprint.Repeatable := by
  simp only [touched, List.append_eq_nil_iff] at untouched
  simp [Repeatable, touched, untouched]

end Footprint

end TapeMachine.Loop
