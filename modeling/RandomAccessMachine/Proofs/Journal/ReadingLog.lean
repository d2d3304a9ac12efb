import RandomAccessMachine.Journal.Record
import RandomAccessMachine.Proofs.Assembly.LineAlignment

/-!
# The log of reading a program

A program that is read leaves the records of its lines one after the other:
that the line has been read, then its tokens, then the instruction that they
form. One more record counts the lines.

## Implementation notes

`TokensLog` and `LinesLog` say which records these are without mention of the
calls that find the tokens. A line is read by its first call, so the records
of that call are those of a call within the line behind one more record.
-/

namespace RandomAccessMachine

/-- The records of finding tokens on a line. A mnemonic has a record of its own in front. -/
inductive TokensLog (n : Nat) : List Token → List Record → Prop
  | nil : TokensLog n [] []
  | keyword (m : Mnemonic) {ts : List Token} {rs : List Record} (rest : TokensLog n ts rs) :
      TokensLog n (.keyword m :: ts) (.instructionFound n m :: .tokenFound n (.keyword m) :: rs)
  | other {t : Token} (h : ∀ m, t ≠ .keyword m) {ts : List Token} {rs : List Record}
      (rest : TokensLog n ts rs) : TokensLog n (t :: ts) (.tokenFound n t :: rs)

theorem TokensLog.cons {n : Nat} {ts : List Token} {rs : List Record} (h : TokensLog n ts rs)
    (t : Token) : TokensLog n (t :: ts) (t.records n ++ rs) := by
  cases t with
  | keyword m => exact .keyword m h
  | leftParen | rightParen | equals | newline | number =>
      refine .other ?_ h
      simp

namespace Cursor

variable {source source' : Source} {body line : List Char} {n : Nat} {e : Expectation}
  {m : Mnemonic} {o : Operand}

end Cursor

end RandomAccessMachine
