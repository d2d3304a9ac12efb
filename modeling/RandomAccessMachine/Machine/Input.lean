import RandomAccessMachine.Word

/-!
# Input registers

The input of a program is a list of values that it can read but not change.
Input registers are counted from 1.
-/

namespace RandomAccessMachine

/-- The values of the input registers in order. -/
structure Input where
  values : List Word
  deriving DecidableEq

namespace Input

/-- The input without registers. -/
def empty : Input := ⟨[]⟩

def size (input : Input) : Nat := input.values.length

def isEmpty (input : Input) : Bool := input.values.isEmpty

/-- The value of the input register with an index, if there is one. -/
def get? (input : Input) (index : Word) : Option Word :=
  match Word.toNat? index with
  | some (n + 1) => input.values[n]?
  | _ => none

/-- The values of all input registers in brackets. -/
def text (input : Input) : String :=
  "[" ++ ", ".intercalate (input.values.map Word.text) ++ "]"

/-- Exactly the indices from 1 to the number of registers belong to one. -/
theorem get?_isSome_iff {input : Input} {index : Word} :
    (input.get? index).isSome ↔ 1 ≤ index.toInt ∧ index.toInt ≤ input.size := by
  simp only [get?]
  cases h : Word.toNat? index with
  | none =>
      have := Word.toNat?_eq_none_iff.mp h
      simp
      omega
  | some n =>
      have := Word.toNat?_eq_some_iff.mp h
      cases n with
      | zero => simp; omega
      | succ n => simp [size]; omega

theorem get?_eq_none_iff {input : Input} {index : Word} :
    input.get? index = none ↔ ¬ (1 ≤ index.toInt ∧ index.toInt ≤ input.size) := by
  rw [← get?_isSome_iff, Option.not_isSome_iff_eq_none]

end Input

end RandomAccessMachine
