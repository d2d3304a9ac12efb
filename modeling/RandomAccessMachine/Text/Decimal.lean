/-!
# Decimal texts of natural numbers and integers

A number is written without leading zeros and with a minus sign when it is
negative. Reading is more liberal: leading zeros are allowed, and a signed
text may start with a plus sign.

## Implementation notes

The digits are those of `Nat.toDigits`, and a run of digits is read back by
`Nat.ofDigitChars`, so the laws of both are the library's.
-/

namespace RandomAccessMachine.Decimal

/-- The decimal text of a natural number. -/
def natural (n : Nat) : String := String.ofList (Nat.toDigits 10 n)

/-- The decimal text of an integer. -/
def integer : Int → String
  | .ofNat n => natural n
  | .negSucc n => "-" ++ natural (n + 1)

/-- The number that a run of digits denotes. -/
def value (digits : List Char) : Nat := Nat.ofDigitChars 10 digits 0

/-- The number that a text of one or more digits and nothing else denotes. -/
def unsigned? (text : List Char) : Option Nat :=
  if text ≠ [] ∧ text.all Char.isDigit then some (value text) else none

/-- The integer that one or more digits denote after at most one sign. -/
def signed? : List Char → Option Int
  | '-' :: digits => (unsigned? digits).map fun n => -(n : Int)
  | '+' :: digits => (unsigned? digits).map Int.ofNat
  | digits => (unsigned? digits).map Int.ofNat

@[simp] theorem toList_natural (n : Nat) : (natural n).toList = Nat.toDigits 10 n := by
  simp [natural]

theorem natural_ne_nil (n : Nat) : (natural n).toList ≠ [] := by
  rw [toList_natural]
  exact Nat.toDigits_ne_nil

theorem isDigit_of_mem_natural {n : Nat} {c : Char} (h : c ∈ (natural n).toList) :
    c.isDigit = true := by
  rw [toList_natural] at h
  exact Nat.isDigit_of_mem_toDigits (by omega) (by omega) h

/-- The text of a number denotes that number. -/
theorem value_natural (n : Nat) : value (natural n).toList = n := by
  simp [value, Nat.ofDigitChars_ten_toDigits]

end RandomAccessMachine.Decimal
