/-
**Arithmetic with limits.**

Operands of instructions are signed 32-bit numbers, positions of the head signed 64-bit numbers and
positions in a program unsigned 64-bit numbers. They are kept as `Int` and `Nat`, and every sum that
could leave its range is checked where it is formed:

* `operand_eq_ok_iff`: a checked operand is the number itself, given exactly inside the range;
* `operand_of_bounded`: so a caller who knows the range may drop the check;
* `bind_eq_ok`: checked steps succeed if each of them does.
-/

namespace TapeMachine

/-- Why an operation on a program was abandoned. -/
inductive Fault where
  /-- A number left the range that is reserved for it. -/
  | overflow
  /-- A position lies outside of the program. -/
  | outOfRange
  deriving DecidableEq

/-- A number fits into an operand: it is a signed 32-bit number. -/
def IsOperand (value : Int) : Prop :=
  -0x80000000 ≤ value ∧ value ≤ 0x7fffffff

instance (value : Int) : Decidable (IsOperand value) :=
  inferInstanceAs (Decidable (_ ∧ _))

/-- The checked operand: the number itself if it fits. -/
def operand (value : Int) : Except Fault Int :=
  if IsOperand value then .ok value else .error .overflow

theorem operand_eq_ok_iff {value result : Int} :
    operand value = .ok result ↔ IsOperand value ∧ value = result := by
  unfold operand
  split <;> simp_all

theorem operand_of_bounded {value : Int} (bounded : IsOperand value) :
    operand value = .ok value :=
  operand_eq_ok_iff.mpr ⟨bounded, rfl⟩

/-! ### Checked steps -/

theorem bind_eq_ok {ε α β : Type} {first : Except ε α} {rest : α → Except ε β} {result : β} :
    (first >>= rest) = .ok result ↔ ∃ value, first = .ok value ∧ rest value = .ok result := by
  cases first <;> simp [bind, Except.bind]

theorem pure_eq_ok {ε α : Type} {value result : α} :
    (pure value : Except ε α) = .ok result ↔ value = result := by
  simp [pure, Except.pure]

theorem toOption_eq_some {ε α : Type} {result : Except ε α} {value : α} :
    result.toOption = some value ↔ result = .ok value := by
  cases result <;> simp [Except.toOption]

end TapeMachine
