import RandomAccessMachine.Journal.Transcript

/-!
# Traced runs

A traced machine writes its state around every step, line by line. What it
writes to may take only so many characters; the first line that does not fit
is cut, and the run fails there.

## Implementation notes

Everything in a trace is ASCII, so a character is a byte. A step writes its
heading before the instruction is executed and the rest after it, so a line
that does not fit leaves the machine before or after that instruction.

The steps are counted by a natural number that has no bound. A counter of 64
bits shows the same numbers up to step `2 ^ 64 - 1`, which no run gets to in
practice. `Machine.CountsUp` says the same of the program counter, a natural
number too.
-/

namespace RandomAccessMachine

/-- Why a traced step or run fails. -/
inductive TraceError
  | runtime (error : RuntimeError)
  /-- A line does not fit any more. -/
  | full
  deriving DecidableEq

/-- The text that reports the error. -/
def TraceError.message : TraceError → String
  | .runtime error => error.message
  | .full => "error: sink full"

namespace Trace

/-- The line between two blocks. -/
def separator : String := "-----------------------\n"

/-- The block that describes a machine before its first step. -/
def opening (m : Machine) : List String :=
  ["Initial state:\n",
    "Input registers : " ++ m.input.text ++ "\n",
    "Data registers : " ++ m.registers.text ++ "\n",
    "Program counter : " ++ Decimal.natural m.pc ++ "\n",
    separator]

/-- The beginning of a step's block: its number, its place and its instruction. -/
def heading (step : Nat) (pc : Nat) (i : Instruction) : List String :=
  ["Step : " ++ Decimal.natural step ++ "\n",
    "Program counter value : " ++ Decimal.natural pc ++ "\n",
    "Executing an instruction : " ++ i.text ++ "\n"]

/-- The rest of a step's block: the machine after the step. -/
def remainder (m : Machine) : List String :=
  ["Input registers : " ++ m.input.text ++ "\n",
    "Data registers : " ++ m.registers.text ++ "\n",
    if m.isHalted then "Program has ended successfully.\n"
    else "New program counter value : " ++ Decimal.natural m.pc ++ "\n",
    separator]

/-- The line that ends the trace of a run. -/
def closing (result : Word) : String := "Output : " ++ Word.text result ++ "\n"

end Trace

/-- A machine whose steps are written down. -/
structure TracedMachine where
  machine : Machine
  /-- The number of steps begun so far. -/
  steps : Nat
  /-- How many more characters can be written, if their number is limited. -/
  room : Option Nat
  transcript : Transcript
  deriving DecidableEq

namespace TracedMachine

/-- A machine of which nothing has been written yet. -/
def start (machine : Machine) (room : Option Nat) (transcript : Transcript) : TracedMachine :=
  ⟨machine, 0, room, transcript⟩

/-- Write a text as far as it fits, and tell whether all of it does. -/
def write (t : TracedMachine) (text : String) : Bool × TracedMachine :=
  match t.room with
  | none => (true, { t with transcript := t.transcript.say text })
  | some room =>
      if text.length ≤ room then
        (true, { t with transcript := t.transcript.say text, room := some (room - text.length) })
      else
        let kept := String.ofList (text.toList.take room)
        (false, { t with transcript := t.transcript.say kept, room := some 0 })

/-- Write lines one after the other up to the first that does not fit, and tell whether all do. -/
def writeLines (t : TracedMachine) : List String → Bool × TracedMachine
  | [] => (true, t)
  | line :: rest =>
      match t.write line with
      | (false, t) => (false, t)
      | (true, t) => t.writeLines rest

/-- Begin a step: count it and write its heading. -/
def announce (t : TracedMachine) (i : Instruction) : Bool × TracedMachine :=
  { t with steps := t.steps + 1 }.writeLines (Trace.heading (t.steps + 1) t.machine.pc i)

/-- End a step: note the executed instruction and write the machine that it led to. -/
def arrive (t : TracedMachine) (i : Instruction) (next : Machine) : Bool × TracedMachine :=
  { t with
    machine := next
    transcript := t.transcript.note (i.record t.machine next) }.writeLines (Trace.remainder next)

/-- Execute one instruction and write the state before and after it. A program counter that
names no line leaves the step to the machine, which halts in silence. -/
def step (t : TracedMachine) : Option TraceError × TracedMachine :=
  match t.machine.instruction? with
  | none =>
      match t.machine.step with
      | .error e => (some (.runtime e), t)
      | .ok next => (none, { t with machine := next })
  | some i =>
      match t.announce i with
      | (false, t) => (some .full, t)
      | (true, t) =>
          match t.machine.perform i with
          | .error e => (some (.runtime e), t)
          | .ok next =>
              -- the machine has moved on even if the rest of the block does not fit
              match t.arrive i next with
              | (false, t) => (some .full, t)
              | (true, t) => (none, t)

/-- Write the result of a finished run. -/
def finish (t : TracedMachine) : Outcome TraceError × TracedMachine :=
  match t.write (Trace.closing t.machine.accumulator) with
  | (false, t) => (.failed .full, t)
  | (true, t) =>
      let record := Record.traceTerminated t.steps t.machine.accumulator
      (.returned t.machine.accumulator, { t with transcript := t.transcript.note record })

/-- Repeat steps until the machine halts, at most this many. -/
def advance (bound : Nat) (t : TracedMachine) : Outcome TraceError × TracedMachine :=
  if t.machine.isHalted then t.finish
  else
    match bound with
    | 0 => (.unfinished, t)
    | bound + 1 =>
        match t.step with
        | (some e, t) => (.failed e, t)
        | (none, t) => advance bound t

/-- Write the initial state and run the machine for at most this many steps. -/
def run (bound : Nat) (t : TracedMachine) : Outcome TraceError × TracedMachine :=
  match t.writeLines (Trace.opening t.machine) with
  | (false, t) => (.failed .full, t)
  | (true, t) => advance bound t

/-- All text written so far. -/
def output (t : TracedMachine) : String := t.transcript.output

/-- Without a limit every text fits. -/
theorem write_of_room_eq_none {t : TracedMachine} (h : t.room = none) (text : String) :
    t.write text = (true, { t with transcript := t.transcript.say text }) := by
  simp [write, h]

@[simp] theorem machine_write (t : TracedMachine) (text : String) :
    (t.write text).2.machine = t.machine := by
  unfold write
  split
  · rfl
  · split <;> rfl

@[simp] theorem steps_write (t : TracedMachine) (text : String) :
    (t.write text).2.steps = t.steps := by
  unfold write
  split
  · rfl
  · split <;> rfl

end TracedMachine

end RandomAccessMachine
