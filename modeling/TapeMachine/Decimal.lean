/-
**Decimal numbers.**

Numbers are printed in decimal with the fewest digits, a minus sign before the negative ones, and
read back from plain digits behind an optional plus sign.

* `natural?_natural`: a printed natural number is read back as itself;
* `natural_injective`, `integer_injective`: so no two numbers are printed alike.
-/

namespace TapeMachine.Decimal

/-- The decimal digits of a natural number. -/
def natural (number : Nat) : List Char :=
  Nat.toDigits 10 number

/-- The decimal digits of an integer, behind a minus sign if it is negative. -/
def integer : Int → List Char
  | .ofNat number => natural number
  | .negSucc number => '-' :: natural (number + 1)

/-- The value of a digit. -/
def digit? (char : Char) : Option Nat :=
  if '0' ≤ char ∧ char ≤ '9' then some (char.toNat - '0'.toNat) else none

/-- The number that some digits continue. -/
def continue? (number : Nat) : List Char → Option Nat
  | [] => some number
  | char :: rest =>
    match digit? char with
    | some digit => continue? (10 * number + digit) rest
    | none => none

/-- Reads at least one digit and nothing else. -/
def digits? : List Char → Option Nat
  | [] => none
  | chars => continue? 0 chars

/-- Reads a natural number, with or without a plus sign. -/
def natural? : List Char → Option Nat
  | '+' :: rest => digits? rest
  | chars => digits? chars

/-! ### Reading back -/

theorem digit?_digitChar {digit : Nat} (small : digit < 10) :
    digit? digit.digitChar = some digit := by
  have all : ∀ digit : Fin 10, digit? (Nat.digitChar digit) = some digit.val := by decide
  exact all ⟨digit, small⟩

theorem continue?_append (number : Nat) (first second : List Char) :
    continue? number (first ++ second) =
      (continue? number first).bind fun value => continue? value second := by
  induction first generalizing number with
  | nil => rfl
  | cons char rest ih =>
    simp only [List.cons_append, continue?]
    cases digit? char with
    | none => rfl
    | some digit => exact ih _

theorem continue?_natural (number : Nat) : continue? 0 (natural number) = some number := by
  induction number using Nat.strongRecOn with
  | _ number ih =>
    rw [natural, Nat.toDigits_eq_if (by decide)]
    split
    · next small => simp [continue?, digit?_digitChar small]
    · next large =>
      have before : continue? 0 (Nat.toDigits 10 (number / 10)) = some (number / 10) :=
        ih (number / 10) (by omega)
      have last : number % 10 < 10 := Nat.mod_lt _ (by decide)
      simp only [continue?_append, before, Option.bind_some, continue?, digit?_digitChar last]
      congr 1
      omega

theorem digits?_natural (number : Nat) : digits? (natural number) = some number := by
  have nonempty : natural number ≠ [] := Nat.toDigits_ne_nil
  rw [← continue?_natural number]
  cases printed : natural number with
  | nil => exact absurd printed nonempty
  | cons char rest => rfl

theorem not_mem_natural_of_not_isDigit {char : Char} (other : char.isDigit = false) (number : Nat) :
    char ∉ natural number := by
  intro printed
  have digit := Nat.isDigit_of_mem_toDigits (by decide) (by decide) printed
  rw [other] at digit
  cases digit

theorem natural?_natural (number : Nat) : natural? (natural number) = some number := by
  rw [natural?]
  · exact digits?_natural number
  · intro rest signed
    exact not_mem_natural_of_not_isDigit (by decide) number (signed ▸ List.mem_cons_self)

theorem natural_injective {first second : Nat} (same : natural first = natural second) :
    first = second := by
  have read := digits?_natural first
  rw [same, digits?_natural second] at read
  exact (Option.some.inj read).symm

theorem integer_injective {first second : Int} (same : integer first = integer second) :
    first = second := by
  cases first <;> cases second <;> simp only [integer] at same
  · exact congrArg Int.ofNat (natural_injective same)
  · next number _ =>
    have signed : '-' ∈ natural number := same ▸ List.mem_cons_self
    exact absurd signed (not_mem_natural_of_not_isDigit (by decide) number)
  · next number =>
    have signed : '-' ∈ natural number := same ▸ List.mem_cons_self
    exact absurd signed (not_mem_natural_of_not_isDigit (by decide) number)
  · have next := natural_injective (List.cons.inj same).2
    exact congrArg Int.negSucc (Nat.succ.inj next)

end TapeMachine.Decimal
