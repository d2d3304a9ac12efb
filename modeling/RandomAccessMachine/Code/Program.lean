import RandomAccessMachine.Code.Instruction

/-!
# Programs

A program holds one instruction for each of its lines, and lines are counted
from 1. There is no line 0: a program counter of 0 means that the machine has
halted.
-/

namespace RandomAccessMachine

/-- The instructions of a program in the order of their lines. -/
structure Program where
  instructions : Array Instruction
  deriving DecidableEq

namespace Program

/-- The program with these instructions as its lines. -/
def ofList (instructions : List Instruction) : Program := ⟨instructions.toArray⟩

/-- The program without lines. -/
def empty : Program := ⟨#[]⟩

/-- The number of lines, which is also the last line that a jump may name. -/
def lineCount (p : Program) : Nat := p.instructions.size

def isEmpty (p : Program) : Bool := p.instructions.isEmpty

/-- The instruction on a line, if there is such a line. -/
def get? (p : Program) (line : Nat) : Option Instruction :=
  if line = 0 then none else p.instructions[line - 1]?

/-- Lines that a program has can be accessed by their numbers. -/
instance : GetElem Program Nat Instruction fun p line => 1 ≤ line ∧ line ≤ p.lineCount where
  getElem p line h :=
    have : line - 1 < p.instructions.size := by
      unfold lineCount at h
      omega
    p.instructions[line - 1]

/-- Add the instruction of the next line, which has to carry the number of this line. -/
def push? (p : Program) (i : Instruction) : Option Program :=
  if i.line = p.lineCount + 1 then some ⟨p.instructions.push i⟩ else none

@[simp] theorem lineCount_ofList (is : List Instruction) : (ofList is).lineCount = is.length := by
  simp [ofList, lineCount]

@[simp] theorem get?_zero (p : Program) : p.get? 0 = none := rfl

@[simp] theorem get?_succ (p : Program) (n : Nat) : p.get? (n + 1) = p.instructions[n]? := by
  simp [get?]

/-- Exactly the lines from 1 to the last one hold an instruction. -/
theorem get?_isSome_iff {p : Program} {line : Nat} :
    (p.get? line).isSome ↔ 1 ≤ line ∧ line ≤ p.lineCount := by
  cases line with
  | zero => simp
  | succ n =>
      rw [get?_succ, isSome_getElem?, lineCount]
      omega

/-- Looking a line up finds the instruction that an access to it gives. -/
theorem get?_eq_some_getElem {p : Program} {line : Nat} (h : 1 ≤ line ∧ line ≤ p.lineCount) :
    p.get? line = some p[line] := by
  cases line with
  | zero => simp at h
  | succ n =>
      have hn : n < p.instructions.size := h.2
      rw [get?_succ, Array.getElem?_eq_getElem hn]
      rfl

theorem push?_of_line_eq {p : Program} {i : Instruction} (h : i.line = p.lineCount + 1) :
    p.push? i = some ⟨p.instructions.push i⟩ := by
  simp [push?, h]

end Program

end RandomAccessMachine
