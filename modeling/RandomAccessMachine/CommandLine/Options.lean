import RandomAccessMachine.Journal.Record

/-!
# Options

The arguments of a command line are options and values. Options have a long
name after two hyphens, or a letter after one hyphen, and letters may be
joined. They are read from left to right, and the first one that asks for help
or the version, or that is wrong, ends the reading.

## Implementation notes

A value may be a negative number, so an argument that looks like one is not
read as letters. A single hyphen is a value, and everything after two hyphens
that stand alone is.

The arguments are taken apart by an argument parser whose code is not a part of
this project. `looksNumeric` and `readArgument` follow what it documents for
values that may be negative numbers, and `readArguments` what it documents for
two hyphens: alone they end the options, and whatever comes after them is a
value.
-/

namespace RandomAccessMachine.CommandLine

/-- What an option asks for. -/
inductive Flag
  | debug
  | instructions
  | verbose
  | help
  | version
  deriving DecidableEq

namespace Flag

/-- The option with a long name. -/
def ofName? : String → Option Flag
  | "debug" => some .debug
  | "instructions" => some .instructions
  | "verbose" => some .verbose
  | "help" => some .help
  | "version" => some .version
  | _ => none

/-- The option with a letter. -/
def ofLetter? : Char → Option Flag
  | 'd' => some .debug
  | 'i' => some .instructions
  | 'v' => some .verbose
  | 'h' => some .help
  | 'V' => some .version
  | _ => none

end Flag

/-- What ends the reading of arguments early. -/
inductive Interruption
  | help
  | version
  /-- An option does not exist, has a value, or is repeated although it may not be. -/
  | misuse
  deriving DecidableEq

/-- What a command line asks for. -/
structure Options where
  /-- The values in order. -/
  values : List String
  /-- Whether the state is printed around every step. -/
  debug : Bool
  /-- Whether the instructions are listed in place of a run. -/
  instructions : Bool
  /-- How often more details of the log are asked for. -/
  verbosity : Nat
  deriving DecidableEq

namespace Options

/-- No argument has been read. -/
def none : Options := ⟨[], false, false, 0⟩

/-- The level of the log that is asked for. -/
def level (o : Options) : Level :=
  match o.verbosity with
  | 0 => .warn
  | 1 => .info
  | 2 => .debug
  | _ => .trace

/-- Add a value. -/
def addValue (o : Options) (value : String) : Options :=
  { o with values := o.values ++ [value] }

/-- Follow an option. -/
def follow (o : Options) : Flag → Except Interruption Options
  | .debug => if o.debug then .error .misuse else .ok { o with debug := true }
  | .instructions => if o.instructions then .error .misuse else .ok { o with instructions := true }
  | .verbose => .ok { o with verbosity := o.verbosity + 1 }
  | .help => .error .help
  | .version => .error .version

/-- Follow the option with a long name. -/
def followName (o : Options) (name : String) : Except Interruption Options :=
  match Flag.ofName? name with
  | some flag => o.follow flag
  | Option.none => .error .misuse

/-- Follow the options with these letters. -/
def followLetters (o : Options) : List Char → Except Interruption Options
  | [] => .ok o
  | letter :: rest =>
      match Flag.ofLetter? letter with
      | Option.none => .error .misuse
      | some flag =>
          match o.follow flag with
          | .ok o => o.followLetters rest
          | .error stop => .error stop

/-- Whether a character begins an exponent. -/
def beginsExponent (c : Char) : Bool := c == 'e' || c == 'E'

/-- Whether the characters after a hyphen make a negative number of it: digits with at most one
point and at most one exponent letter. Neither comes first, the letter not last, the point not
after the letter. -/
def looksNumeric (chars : List Char) : Bool :=
  let mantissa := chars.takeWhile fun c => !beginsExponent c
  let exponent := chars.dropWhile fun c => !beginsExponent c
  let isMantissa :=
    (mantissa.all fun c => c.isDigit || c == '.') && mantissa.count '.' ≤ 1
      && mantissa.head? != some '.'
  match exponent with
  | [] => isMantissa
  | _ :: digits => isMantissa && !mantissa.isEmpty && !digits.isEmpty && digits.all Char.isDigit

/-- Read one argument. -/
def readArgument (o : Options) (arg : String) : Except Interruption Options :=
  match arg.toList with
  | '-' :: '-' :: name => o.followName (String.ofList name)
  | '-' :: letter :: rest =>
      if looksNumeric (letter :: rest) then .ok (o.addValue arg)
      else o.followLetters (letter :: rest)
  | _ => .ok (o.addValue arg)

/-- Read arguments one after the other. -/
def readArguments (o : Options) : List String → Except Interruption Options
  | [] => .ok o
  | arg :: rest =>
      if arg = "--" then .ok { o with values := o.values ++ rest }
      else
        match o.readArgument arg with
        | .ok o => o.readArguments rest
        | .error stop => .error stop

/-- The options of a command line. -/
def ofArguments (args : List String) : Except Interruption Options := none.readArguments args

end Options

end RandomAccessMachine.CommandLine
