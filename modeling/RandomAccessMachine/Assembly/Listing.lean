import RandomAccessMachine.Assembly.Cursor
import RandomAccessMachine.Assembly.Statement
import RandomAccessMachine.Code.Program

/-!
# Programs from their texts

A program text has one statement on each line. Reading stops at the first
fault, and the error names the line of that fault.

## Implementation notes

Statements are formed from the findings of a cursor, so the error does not
depend on anything after the fault.

An instruction gets the line of the token that completes it. It might as well
get that of its first token: only the end of a line completes a statement, so
no line is read inside of one, and all its tokens are on the same line. This is
proved as `Cursor.instructionsByFirst_findings`, for every cursor that holds
nothing or the rest of a line up to its line feed.
-/

namespace RandomAccessMachine

/-- Why a source is not the text of a program. -/
inductive AssemblyError
  | lexical (line : Nat) (fault : LexicalFault)
  | statement (line : Nat) (fault : StatementFault)
  /-- The source ends inside a statement. -/
  | unfinished (mnemonic : Mnemonic)
  deriving DecidableEq

/-- The text that reports the error. -/
def AssemblyError.message : AssemblyError → String
  | .lexical line fault =>
      "error [ln: " ++ Decimal.natural line ++ "]: scanner error, " ++ fault.describe
        ++ " - `" ++ fault.context ++ "`"
  | .statement line fault =>
      "error [ln: " ++ Decimal.natural line ++ "]: parse error, " ++ fault.describe
        ++ " - `" ++ fault.context ++ "`"
  | .unfinished mnemonic =>
      "error [last instruction]: parse error, incomplete instruction - `" ++ mnemonic.name ++ "`"

/-- The line that the error names, if it names one. -/
def AssemblyError.line? : AssemblyError → Option Nat
  | .lexical line _ | .statement line _ => some line
  | .unfinished _ => none

/-- The instructions that findings spell, beginning with what an expectation leaves open. -/
def Expectation.instructions (e : Expectation) :
    List Finding → Except AssemblyError (List Instruction)
  | [] =>
      match e.mnemonic? with
      | none => .ok []
      | some m => .error (.unfinished m)
  | ⟨line, .fault fault⟩ :: _ => .error (.lexical line fault)
  | ⟨line, .token t⟩ :: rest =>
      match e.feed t with
      | .more next => next.instructions rest
      | .complete m o => (Expectation.name.instructions rest).map (⟨m, o, line⟩ :: ·)
      | .refused fault => .error (.statement line fault)

/-- The program whose text a cursor has before it. -/
def Program.ofCursor (c : Cursor) : Except AssemblyError Program :=
  (Expectation.name.instructions c.findings).map Program.ofList

/-- The program whose text a source delivers. -/
def Program.ofSource (s : Source) : Except AssemblyError Program :=
  Program.ofCursor (Cursor.ofSource s)

theorem Program.map_ofList_eq_ok_iff {result : Except AssemblyError (List Instruction)}
    {p : Program} : result.map Program.ofList = .ok p ↔ result = .ok p.instructions.toList := by
  obtain ⟨instructions⟩ := p
  cases result with
  | error e => simp [Except.map]
  | ok is => simp [Except.map, Program.ofList, List.toArray_eq_iff]

/-- The program before a cursor holds the instructions that its findings spell. -/
theorem Program.ofCursor_eq_ok_iff {c : Cursor} {p : Program} :
    Program.ofCursor c = .ok p ↔
      Expectation.name.instructions c.findings = .ok p.instructions.toList :=
  Program.map_ofList_eq_ok_iff

end RandomAccessMachine
