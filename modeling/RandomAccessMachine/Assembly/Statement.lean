import RandomAccessMachine.Assembly.Token
import RandomAccessMachine.Code.Instruction

/-!
# Statements

The tokens of a line form one statement. They are judged one after the other:
an `Expectation` says what the tokens before have left open, and each token
either meets it, completes the statement, or is refused.

## Implementation notes

An empty line is a statement too. It does nothing, so instructions keep the
numbers of their lines. A token is refused as soon as no statement begins
with the tokens up to it.
-/

namespace RandomAccessMachine

/-- Why a token cannot stand where it does. -/
inductive StatementFault
  /-- The statement was complete before this token. -/
  | extraToken (found : Token)
  /-- The statement does not begin with a mnemonic. -/
  | missingName (found : Token)
  /-- The mnemonic needs an argument of another form. -/
  | missingArgument (mnemonic : Mnemonic)
  /-- There is no number after the opening parenthesis. -/
  | missingAddress (found : Token)
  /-- The parenthesis is not closed after the number. -/
  | missingCloseParen (mnemonic : Mnemonic)
  /-- There is no number after the equals sign. -/
  | missingConstant (mnemonic : Mnemonic)
  deriving DecidableEq

namespace StatementFault

def describe : StatementFault → String
  | .extraToken _ => "multiple instructions in one line detected"
  | .missingName _ => "too many arguments or no instruction name"
  | .missingArgument _ => "incomplete instruction"
  | .missingAddress _ => "non-numeric token after `(`"
  | .missingCloseParen _ => "missing `)`"
  | .missingConstant _ => "expected a numeric value after `=`"

/-- The token or the mnemonic that the fault is about. -/
def context : StatementFault → String
  | .extraToken found | .missingName found | .missingAddress found => found.text
  | .missingArgument mnemonic | .missingCloseParen mnemonic | .missingConstant mnemonic =>
      mnemonic.name

end StatementFault

/-- What the tokens of a line read so far leave open. -/
inductive Expectation
  /-- Nothing has been read: a mnemonic or the end of the line. -/
  | name
  /-- The argument of a mnemonic. -/
  | argument (mnemonic : Mnemonic)
  /-- The number after an opening parenthesis. -/
  | address (mnemonic : Mnemonic)
  /-- The closing parenthesis after a number. -/
  | closeParen (mnemonic : Mnemonic) (address : Word)
  /-- The number after an equals sign. -/
  | constant (mnemonic : Mnemonic)
  /-- The end of the line after a complete statement. -/
  | lineEnd (mnemonic : Mnemonic) (operand : Operand)
  deriving DecidableEq

/-- What a token does to an expectation. -/
inductive Progress
  | more (next : Expectation)
  | complete (mnemonic : Mnemonic) (operand : Operand)
  | refused (fault : StatementFault)
  deriving DecidableEq

namespace Expectation

/-- What is open after a mnemonic. -/
def afterName (mnemonic : Mnemonic) : Expectation :=
  if mnemonic.argumentClass = .noArgument then .lineEnd mnemonic .absent else .argument mnemonic

/-- What is open after a token that fits, other than the end of the line. -/
def next? (e : Expectation) (t : Token) : Option Expectation :=
  match e, t with
  | .name, .keyword m => some (afterName m)
  | .argument m, .number x => some (.lineEnd m (.direct x))
  | .argument m, .leftParen =>
      if m.argumentClass.takesPointer then some (.address m) else none
  | .argument m, .equals =>
      if m.argumentClass.takesConstant then some (.constant m) else none
  | .address m, .number x => some (.closeParen m x)
  | .closeParen m x, .rightParen => some (.lineEnd m (.indirect x))
  | .constant m, .number x => some (.lineEnd m (.constant x))
  | _, _ => none

/-- The statement that the end of the line completes, if it completes one. -/
def completed? : Expectation → Option (Mnemonic × Operand)
  | .name => some (.pass, .absent)
  | .lineEnd m o => some (m, o)
  | .argument _ | .address _ | .closeParen _ _ | .constant _ => none

/-- Why a token that does not fit is refused. -/
def fault (e : Expectation) (t : Token) : StatementFault :=
  match e with
  | .name => .missingName t
  | .argument m => .missingArgument m
  | .address _ => .missingAddress t
  | .closeParen m _ => .missingCloseParen m
  | .constant m => .missingConstant m
  | .lineEnd _ _ => .extraToken t

/-- Judge the next token. -/
def feed (e : Expectation) (t : Token) : Progress :=
  if t = .newline then
    match e.completed? with
    | some (m, o) => .complete m o
    | none => .refused (e.fault t)
  else
    match e.next? t with
    | some next => .more next
    | none => .refused (e.fault t)

/-- The mnemonic of the statement that has been begun, if one has. -/
def mnemonic? : Expectation → Option Mnemonic
  | .name => none
  | .argument m | .address m | .closeParen m _ | .constant m | .lineEnd m _ => some m

/-- A statement is complete exactly at the end of a line that completes it. -/
theorem feed_eq_complete_iff {e : Expectation} {t : Token} {m : Mnemonic} {o : Operand} :
    e.feed t = .complete m o ↔ t = .newline ∧ e.completed? = some (m, o) := by
  by_cases ht : t = .newline
  · cases h : e.completed? <;> simp [feed, ht, h, Prod.ext_iff]
  · cases h : e.next? t <;> simp [feed, ht, h]

/-- More is expected exactly after a token that fits and is not the end of the line. -/
theorem feed_eq_more_iff {e next : Expectation} {t : Token} :
    e.feed t = .more next ↔ t ≠ .newline ∧ e.next? t = some next := by
  by_cases ht : t = .newline
  · cases h : e.completed? <;> simp [feed, ht, h]
  · cases h : e.next? t <;> simp [feed, ht, h]

end Expectation

end RandomAccessMachine
