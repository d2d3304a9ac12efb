import RandomAccessMachine.CommandLine.Options
import RandomAccessMachine.CommandLine.Texts
import RandomAccessMachine.Journal.TracedMachine

/-!
# Sessions

A session is one use of the program from the command line: arguments and
standard input go in, standard output and an exit code come out.

## Implementation notes

As the program that is read may loop for ever, a session has a bound on the
number of steps, and gives no exit code when it uses up the bound.
-/

namespace RandomAccessMachine.CommandLine

/-- What a session gives. -/
structure Response where
  /-- The exit code, or none when the session has not ended. -/
  exitCode? : Option UInt8
  output : String
  deriving DecidableEq

/-- The word that a value on the command line denotes. -/
def parseValue? (value : String) : Option Word :=
  (Decimal.signed? value.toList).bind Word.ofInt?

/-- The input registers with these values, or the first value that is not a number. -/
def parseInput : List String → Except String Input
  | [] => .ok .empty
  | value :: rest =>
      match parseValue? value with
      | none => .error value
      | some w => (parseInput rest).map fun input => ⟨w :: input.values⟩

/-- An entry of a transcript as it is printed. -/
def printed : Entry → String
  | .text text => text
  | .record r => padded 5 r.level.name ++ " [" ++ r.origin ++ "] " ++ r.message ++ "\n"

/-- Everything in a transcript as it is printed. -/
def printedAll (t : Transcript) : String :=
  t.entries.foldl (fun out entry => out ++ printed entry) ""

/-- The end of a session that shows a result. -/
def succeeded (t : Transcript) : Response := ⟨some 0, printedAll t⟩

/-- The end of a session that shows an error. -/
def failed (t : Transcript) (message : String) : Response :=
  ⟨some 1, printedAll (t.say (message ++ "\n"))⟩

/-- Run a machine and print its state around every step. -/
def runDebugging (bound : Nat) (t : Transcript) (m : Machine) : Response :=
  match (TracedMachine.start m none (t.say debugText)).run bound with
  | (.returned _, traced) => succeeded traced.transcript
  | (.failed e, traced) => failed traced.transcript e.message
  | (.unfinished, traced) => ⟨none, printedAll traced.transcript⟩

/-- Run a machine and print its result. -/
def runPlainly (bound : Nat) (t : Transcript) (m : Machine) : Response :=
  match m.runNoting bound t with
  | (.returned value, _, t) => succeeded (t.say (Word.text value ++ "\n"))
  | (.failed e, _, t) => failed t e.message
  | (.unfinished, _, t) => ⟨none, printedAll t⟩

/-- Read a program and run it. -/
def runProgram (bound : Nat) (o : Options) (input : Input) (source : Source) : Response :=
  let t := (Transcript.empty (some o.level)).noteAll source.assemblyRecords
  match Program.ofSource source with
  | .error e => failed t e.message
  | .ok program =>
      let m := Machine.start program input
      if o.debug then runDebugging bound t m else runPlainly bound t m

/-- Answer a command line. -/
def respond (bound : Nat) (args : List String) (source : Source) : Response :=
  match Options.ofArguments args with
  | .error .help => ⟨some 0, helpText⟩
  | .error .version => ⟨some 0, versionText⟩
  | .error .misuse => ⟨some 2, ""⟩
  | .ok o =>
      if o.instructions then ⟨some 0, instructionsText⟩
      else
        match parseInput o.values with
        | .error value => ⟨some 1, invalidValueText value⟩
        | .ok input => runProgram bound o input source

end RandomAccessMachine.CommandLine
