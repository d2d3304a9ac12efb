import RandomAccessMachine.CommandLine.Session

/-!
# The program

Reads standard input to its end, answers the command line and exits.
-/

namespace RandomAccessMachine

/-- More steps than any run that ends can take in practice. -/
def stepBound : Nat := 1000000000000000000

/-- Print what a session gives and tell its exit code. -/
def finishSession (response : CommandLine.Response) : IO UInt32 := do
  let out ← IO.getStdout
  out.putStr response.output
  out.flush
  match response.exitCode? with
  | some code =>
      if code = 2 then
        IO.eprintln "error: invalid arguments, rerun with --help to see a brief help"
      return code.toUInt32
  | none => return 1

end RandomAccessMachine

/-- Answer the command line. -/
def main (args : List String) : IO UInt32 := do
  let bytes ← (← IO.getStdin).readBinToEnd
  let source := RandomAccessMachine.Source.ofBytes bytes.data.toList
  RandomAccessMachine.finishSession
    (RandomAccessMachine.CommandLine.respond RandomAccessMachine.stepBound args source)
