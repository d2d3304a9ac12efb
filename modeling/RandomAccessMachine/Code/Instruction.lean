import RandomAccessMachine.Code.Mnemonic
import RandomAccessMachine.Word

/-!
# Instructions

An instruction is a mnemonic with an operand, together with the line of the
program that it was written on.
-/

namespace RandomAccessMachine

/-- The argument of an instruction with its addressing mode. -/
inductive Operand
  /-- No argument is written. -/
  | absent
  /-- The number names a register or a line. -/
  | direct (x : Word)
  /-- The number names the register that holds the address. -/
  | indirect (x : Word)
  /-- The number is the value itself or names a line. -/
  | constant (x : Word)
  deriving DecidableEq, Repr

namespace Operand

/-- The number that is written, if any. -/
def number? : Operand → Option Word
  | .absent => none
  | .direct x | .indirect x | .constant x => some x

/-- The number that is written, or 0. -/
def number (o : Operand) : Word := o.number?.getD 0

/-- The operand as it is written in a program. -/
def text : Operand → String
  | .absent => ""
  | .direct x => Word.text x
  | .indirect x => "(" ++ Word.text x ++ ")"
  | .constant x => "=" ++ Word.text x

end Operand

/-- One line of a program. -/
structure Instruction where
  mnemonic : Mnemonic
  operand : Operand
  /-- The line of the program that the instruction was read from. -/
  line : Nat
  deriving DecidableEq, Repr

/-- The instruction as it is written in a program. -/
def Instruction.text (i : Instruction) : String :=
  match i.operand with
  | .absent => i.mnemonic.name
  | operand => i.mnemonic.name ++ " " ++ operand.text

end RandomAccessMachine
