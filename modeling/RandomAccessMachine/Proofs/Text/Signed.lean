import Mathlib.Algebra.Group.Int.Defs
import RandomAccessMachine.Text.Decimal

/-!
# Decimal texts with a sign

`Denotes` says which texts denote an integer: digits with at most one sign in
front. Reading a text finds the integer that it denotes, so there is at most
one, and the text that is written for an integer denotes it.
-/

namespace RandomAccessMachine.Decimal

/-- One or more digits and nothing else. -/
def IsDigits (chars : List Char) : Prop := chars ≠ [] ∧ ∀ c ∈ chars, c.isDigit = true

/-- Characters that denote an integer: at most one sign and then digits. -/
inductive Denotes : List Char → Int → Prop
  | unsigned {digits : List Char} (h : IsDigits digits) : Denotes digits (value digits)
  | plus {digits : List Char} (h : IsDigits digits) : Denotes ('+' :: digits) (value digits)
  | minus {digits : List Char} (h : IsDigits digits) : Denotes ('-' :: digits) (-value digits)

/-- The characters that integers are written with. -/
def isDigitOrSign (c : Char) : Bool := c.isDigit || c == '+' || c == '-'

variable {text digits : List Char} {m n : Int}

theorem unsigned?_eq_some_iff {k : Nat} :
    unsigned? text = some k ↔ IsDigits text ∧ value text = k := by
  simp [unsigned?, IsDigits, and_assoc]

theorem signed?_minus (digits : List Char) :
    signed? ('-' :: digits) = (unsigned? digits).map fun k : Nat => -(k : Int) := by
  rw [signed?]
  cases unsigned? digits <;> rfl

/-- Digits without a sign are read as the number that they denote. -/
theorem signed?_of_isDigits (h : IsDigits digits) : signed? digits = some (value digits : Int) := by
  have hvalue := unsigned?_eq_some_iff.mpr ⟨h, rfl⟩
  unfold signed?
  split
  · exact absurd (h.2 '-' List.mem_cons_self) (by decide)
  · exact absurd (h.2 '+' List.mem_cons_self) (by decide)
  · rw [hvalue]
    rfl

/-- A text is read as the integer that it denotes. -/
theorem signed?_eq_some_iff : signed? text = some n ↔ Denotes text n := by
  constructor
  · intro hgiven
    unfold signed? at hgiven
    split at hgiven
    · rename_i digits
      have hminus := (signed?_minus digits).symm.trans hgiven
      obtain ⟨k, hk, rfl⟩ := Option.map_eq_some_iff.mp hminus
      obtain ⟨hdigits, rfl⟩ := unsigned?_eq_some_iff.mp hk
      exact .minus hdigits
    · obtain ⟨k, hk, rfl⟩ := Option.map_eq_some_iff.mp hgiven
      obtain ⟨hdigits, rfl⟩ := unsigned?_eq_some_iff.mp hk
      exact .plus hdigits
    · obtain ⟨k, hk, rfl⟩ := Option.map_eq_some_iff.mp hgiven
      obtain ⟨hdigits, rfl⟩ := unsigned?_eq_some_iff.mp hk
      exact .unsigned hdigits
  · intro h
    cases h with
    | unsigned h => exact signed?_of_isDigits h
    | plus h => rw [signed?, unsigned?_eq_some_iff.mpr ⟨h, rfl⟩]; rfl
    | minus h => rw [signed?_minus, unsigned?_eq_some_iff.mpr ⟨h, rfl⟩]; rfl

namespace Denotes

/-- A text denotes at most one integer. -/
theorem unique (h : Denotes text m) (h' : Denotes text n) : m = n :=
  Option.some.inj ((signed?_eq_some_iff.mpr h).symm.trans (signed?_eq_some_iff.mpr h'))

theorem ne_nil (h : Denotes text n) : text ≠ [] := by
  cases h with
  | unsigned h => exact h.1
  | plus h | minus h => exact List.cons_ne_nil _ _

/-- Nothing but digits and signs stands in a text that denotes an integer. -/
theorem notMem {c : Char} (h : Denotes text n) (hc : isDigitOrSign c = false) : c ∉ text := by
  simp only [isDigitOrSign, Bool.or_eq_false_iff, beq_eq_false_iff_ne] at hc
  obtain ⟨⟨hdigit, hplus⟩, hminus⟩ := hc
  have hdigits {digits : List Char} (hd : IsDigits digits) : c ∉ digits := by
    intro hmem
    rw [hd.2 c hmem] at hdigit
    cases hdigit
  cases h with
  | unsigned hd => exact hdigits hd
  | plus hd => exact List.not_mem_cons_of_ne_of_not_mem hplus (hdigits hd)
  | minus hd => exact List.not_mem_cons_of_ne_of_not_mem hminus (hdigits hd)

end Denotes

theorem isDigits_natural (n : Nat) : IsDigits (natural n).toList :=
  ⟨natural_ne_nil n, fun _ hc => isDigit_of_mem_natural hc⟩

/-- The text that is written for an integer denotes it. -/
theorem denotes_integer (n : Int) : Denotes (integer n).toList n := by
  cases n with
  | ofNat k =>
      have h := Denotes.unsigned (isDigits_natural k)
      rwa [value_natural] at h
  | negSucc k =>
      have h := Denotes.minus (isDigits_natural (k + 1))
      rw [value_natural] at h
      rwa [integer, String.toList_append]

end RandomAccessMachine.Decimal
