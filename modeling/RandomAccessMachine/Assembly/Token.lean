import RandomAccessMachine.Code.Mnemonic
import RandomAccessMachine.Word

/-!
# Tokens

The smallest parts of a program text that have a meaning. The end of a line
is a token too, because a program has one instruction on each line.
-/

namespace RandomAccessMachine

/-- A part of a program text. -/
inductive Token
  | leftParen
  | rightParen
  | equals
  | newline
  | number (value : Word)
  | keyword (mnemonic : Mnemonic)
  deriving DecidableEq, Repr

/-- The token in words. -/
def Token.text : Token → String
  | .leftParen => "("
  | .rightParen => ")"
  | .equals => "="
  | .newline => "end of line"
  | .number value => Word.text value
  | .keyword mnemonic => mnemonic.name

end RandomAccessMachine
