import RandomAccessMachine.Text.Decimal

/-!
# Machine words

A word is a signed integer of 64 bits. Sums and differences wrap around, and
half of a word is rounded down. Words serve as register values, as register
addresses and as the numbers written in a program.
-/

namespace RandomAccessMachine

/-- The contents of a register, or the address of one. -/
abbrev Word := Int64

namespace Word

/-- How many words are not negative. The negative ones are as many. -/
def span : Nat := 9223372036854775808

/-- The word for a natural number, if there is one. -/
def ofNat? (n : Nat) : Option Word :=
  if n < span then some (Int64.ofNat n) else none

/-- The word for an integer, if there is one. -/
def ofInt? (n : Int) : Option Word :=
  if -span ≤ n ∧ n < span then some (Int64.ofInt n) else none

/-- The decimal text of a word. -/
def text (w : Word) : String := Decimal.integer w.toInt

/-- Half of a word, rounded down. -/
def half (w : Word) : Word := Int64.ofInt (w.toInt / 2)

/-- The natural number that a word denotes, if it is not negative. -/
def toNat? (w : Word) : Option Nat :=
  if 0 ≤ w.toInt then some w.toInt.toNat else none

theorem toInt_of_ofNat? {n : Nat} {w : Word} (h : ofNat? n = some w) : w.toInt = n := by
  simp only [ofNat?, Option.ite_none_right_eq_some, Option.some.injEq] at h
  obtain ⟨hn, rfl⟩ := h
  exact Int64.toInt_ofNat_of_lt hn

theorem ofNat?_eq_none_iff {n : Nat} : ofNat? n = none ↔ span ≤ n := by
  simp [ofNat?]

theorem toNat?_eq_some_iff {w : Word} {n : Nat} : toNat? w = some n ↔ w.toInt = n := by
  simp only [toNat?, Option.ite_none_right_eq_some, Option.some.injEq]
  omega

theorem toNat?_eq_none_iff {w : Word} : toNat? w = none ↔ w.toInt < 0 := by
  simp [toNat?]

end Word

end RandomAccessMachine
