import RandomAccessMachine.Assembly.Listing
import RandomAccessMachine.Machine.Step
import RandomAccessMachine.Text.Quoted

/-!
# Records of what is done

While a program is read and executed, every line, token, statement and
executed instruction leaves a record. A record has a level, and a log shows
the records up to the level that it asks for.

## Implementation notes

Records are data; `Record.message` puts them into words. The records of a
call, of the reading of a whole program and of a step are functions of what
was called, read or executed, so they change nothing in it.

The record of a statement has the instruction with the line of the token that
completes it, as `Expectation.instructions` has. The first token of a statement
is on the same line, because no call inside the statement reads a line.
-/

namespace RandomAccessMachine

/-- How important a record is, the most important level first. -/
inductive Level
  | error
  | warn
  | info
  | debug
  | trace
  deriving DecidableEq, Repr

namespace Level

def name : Level → String
  | .error => "ERROR"
  | .warn => "WARN"
  | .info => "INFO"
  | .debug => "DEBUG"
  | .trace => "TRACE"

/-- The place of the level in the order of importance, counted from 0. -/
def rank : Level → Nat
  | .error => 0
  | .warn => 1
  | .info => 2
  | .debug => 3
  | .trace => 4

/-- Whether a log that asks for a level, or is off, shows this one. -/
def isShownAt (level : Level) : Option Level → Bool
  | some asked => level.rank ≤ asked.rank
  | none => false

end Level

/-- Something that has been done. -/
inductive Record
  /-- A line has been read from the source. -/
  | lineRead (line : Nat) (chars : List Char)
  /-- A mnemonic has been recognised. -/
  | instructionFound (line : Nat) (mnemonic : Mnemonic)
  /-- A token has been taken from a line. -/
  | tokenFound (line : Nat) (token : Token)
  /-- A statement has been completed. -/
  | instructionParsed (instruction : Instruction)
  /-- The whole program has been read. -/
  | linesParsed (count : Nat)
  /-- A value has been moved to or from the accumulator. -/
  | moved (mnemonic : Mnemonic) (operand : Operand) (value : Word)
  /-- A value has been added to or subtracted from the accumulator. -/
  | combined (mnemonic : Mnemonic) (left right result : Word)
  /-- The accumulator has been halved. -/
  | halved (value result : Word)
  /-- The machine has jumped to a line. -/
  | jumped (line : Nat)
  /-- A conditional jump has been decided. -/
  | branched (mnemonic : Mnemonic) (line : Nat) (value : Word) (taken : Bool)
  /-- The machine has been halted. -/
  | halted
  /-- A line without effect has been passed. -/
  | passed
  /-- A run has ended with a result. -/
  | terminated (result : Word)
  /-- A traced run has ended with a result. -/
  | traceTerminated (steps : Nat) (result : Word)
  deriving DecidableEq

namespace Record

def level : Record → Level
  | .lineRead .. | .tokenFound .. | .passed => .trace
  | .terminated .. | .traceTerminated .. => .info
  | _ => .debug

/-- The part of the simulator that leaves the record. -/
def origin : Record → String
  | .lineRead .. | .instructionFound .. | .tokenFound .. => "ram::program::scan"
  | .instructionParsed .. | .linesParsed .. => "ram::program::parse"
  | .traceTerminated .. => "ram::trace"
  | _ => "ram::processor"

/-- A line number in brackets before the text that belongs to it. -/
def onLine (line : Nat) (text : String) : String :=
  "[" ++ Decimal.natural line ++ "] " ++ text

def message : Record → String
  | .lineRead line chars => onLine line ("Read line " ++ Quoted.text chars)
  | .instructionFound line m => onLine line ("Found instruction " ++ m.name)
  | .tokenFound line t => onLine line ("Found token " ++ t.text)
  | .instructionParsed i => onLine i.line ("Parsed instruction " ++ i.text)
  | .linesParsed count => "Parsed " ++ Decimal.natural count ++ " lines"
  | .moved m o value => m.name ++ " " ++ o.text ++ ": " ++ Word.text value
  | .combined m a b result =>
      m.name ++ " " ++ Word.text a ++ " " ++ Word.text b ++ ": " ++ Word.text result
  | .halved value result => "HALF " ++ Word.text value ++ ": " ++ Word.text result
  | .jumped line => "JUMP " ++ Decimal.natural line
  | .branched m line value taken =>
      m.name ++ " " ++ Decimal.natural line ++ ": " ++ Word.text value
        ++ (if taken then " (taken: true)" else " (taken: false)")
  | .halted => "HALT"
  | .passed => "PASS"
  | .terminated result => "Program terminated. Result: " ++ Word.text result
  | .traceTerminated steps result =>
      "Program terminated after " ++ Decimal.natural steps ++ " steps. Result: "
        ++ Word.text result

end Record

/-- The records of taking a token from a line. -/
def Token.records (line : Nat) (t : Token) : List Record :=
  match t with
  | .keyword m => [.instructionFound line m, .tokenFound line t]
  | _ => [.tokenFound line t]

/-- The records of a call of a cursor: of the line it reads, then of the token it finds. -/
def Cursor.Call.records (call : Cursor.Call) : List Record :=
  (match call.before.opened? with
    | some (line, chars) => [.lineRead line chars]
    | none => []) ++
  match call.finding with
    | some ⟨line, .token t⟩ => t.records line
    | _ => []

/-- The records of forming statements from the findings of calls, after this many statements. -/
def Expectation.records (e : Expectation) (count : Nat) : List Cursor.Call → List Record
  | [] => []
  | call :: rest =>
      call.records ++
      match call.finding with
      | none => if e.mnemonic?.isNone then [.linesParsed count] else []
      | some ⟨_, .fault _⟩ => []
      | some ⟨line, .token t⟩ =>
          match e.feed t with
          | .more next => next.records count rest
          | .complete m o =>
              .instructionParsed ⟨m, o, line⟩ :: Expectation.name.records (count + 1) rest
          | .refused _ => []

/-- The records of reading a program from a source. -/
def Source.assemblyRecords (s : Source) : List Record :=
  Expectation.name.records 0 (Cursor.ofSource s).calls

/-- The record of an instruction that has taken one machine to another. -/
def Instruction.record (i : Instruction) (before after : Machine) : Record :=
  match i.mnemonic with
  | .read | .load => .moved i.mnemonic i.operand after.accumulator
  | .store => .moved i.mnemonic i.operand before.accumulator
  | .add | .sub =>
      .combined i.mnemonic before.accumulator (before.fetch i.operand) after.accumulator
  | .half => .halved before.accumulator after.accumulator
  | .jump => .jumped after.pc
  | .jpos | .jzero | .jneg =>
      .branched i.mnemonic i.operand.number.toInt.toNat before.accumulator
        (i.mnemonic.jumpsAt before.accumulator)
  | .halt => .halted
  | .pass => .passed

end RandomAccessMachine
