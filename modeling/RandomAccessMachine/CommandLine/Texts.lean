import RandomAccessMachine.Code.Mnemonic
import RandomAccessMachine.Text.Padded

/-!
# Fixed texts of the command line

The help, the version, the list of instructions, and what is said about a
value that is not a number.
-/

namespace RandomAccessMachine.CommandLine

/-- The lines of a text, each with its line feed. -/
def ofLines (lines : List String) : String := String.join (lines.map (· ++ "\n"))

/-- The name and version of the program. -/
def versionText : String := "ram 0.1.0\n"

/-- How the program is used. -/
def helpText : String :=
  ofLines
    ["Random access machine simulator. Reads a program from standard input",
      "",
      "Usage: ram [OPTIONS] [INPUT_REGISTERS]...",
      "",
      "Arguments:",
      "  [INPUT_REGISTERS]...  Values of the input registers, starting with register 1",
      "",
      "Options:",
      "  -d, --debug         Runs the machine in debug mode, printing its state after every step",
      "  -i, --instructions  Prints a list of instructions and their usage",
      "  -v, --verbose...    Logs more details (-v, -vv, -vvv)",
      "  -h, --help          Print help",
      "  -V, --version       Print version",
      "",
      "EXAMPLE: ram 1 2 < prog",
      "",
      "where the file prog contains this code:",
      "",
      "    # The content of the line after '#' will be ignored",
      "    READ 1  # r0 <- i1",
      "    STORE 1 # r1 <- r0",
      "    READ 2  # r0 <- i2",
      "    ADD 1   # r0 <- r0 + r1",
      "    ADD =1  # r0 <- r0 + 1",
      "    # the value stored in r0 is the output of the machine",
      "",
      "Output: 4"]

/-- The forms in which a mnemonic is written, and what it does. -/
def usageLine (m : Mnemonic) : String :=
  padded 24 (", ".intercalate (m.argumentClass.forms.map (m.name ++ ·)))
    ++ " : " ++ m.description

/-- The list of all instructions. -/
def instructionsText : String :=
  ofLines
    ([">>> Random access machine simulator <<<",
      "Types of arguments :",
      "X : direct address of a register (or a line of the code)",
      "(X) : indirect address of a register",
      "=X : constant (or a line of the code)",
      "",
      "Instructions:"] ++ Mnemonic.all.map usageLine)

/-- What is said about a value that is not a number. -/
def invalidValueText (value : String) : String :=
  ofLines
    ["Error : Invalid non-numeric argument " ++ value,
      "Rerun with 'ram --help' to see a brief help"]

/-- What is printed before the trace of a run. -/
def debugText : String := ofLines [">>> Debugging mode <<<", "-----------------------"]

end RandomAccessMachine.CommandLine
