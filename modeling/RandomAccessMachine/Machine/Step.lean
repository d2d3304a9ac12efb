import RandomAccessMachine.Code.Program
import RandomAccessMachine.Machine.Input
import RandomAccessMachine.Machine.Registers

/-!
# The machine and its steps

A machine holds a program, its input, the data registers and the program
counter. A step executes the instruction that the program counter names. It
either fails, and then there is no new state, or gives the next state.

## Implementation notes

`Machine.effect` is the meaning of an instruction without its line, and
`Machine.perform` adds the instruction to the fault. A program counter that
names no line halts the machine.
-/

namespace RandomAccessMachine

/-- What can go wrong when an instruction is executed. -/
inductive RuntimeFault
  /-- There is no input register with this index. -/
  | noInputRegister (index : Word) (size : Nat)
  /-- The register that should hold an index was never written. -/
  | unusedPointer (address : Word)
  /-- A jump names a line that the program does not have. -/
  | noSuchLine (target : Word) (lastLine : Nat)
  deriving DecidableEq

def RuntimeFault.describe : RuntimeFault → String
  | .noInputRegister index size =>
      "there is no input register " ++ Word.text index ++ " (input registers are 1 to "
        ++ Decimal.natural size ++ ")"
  | .unusedPointer address =>
      "invalid indirect addressing, data register " ++ Word.text address
        ++ " has not been used yet"
  | .noSuchLine target lastLine =>
      "invalid jump, there is no line " ++ Word.text target ++ " in the code (last line is "
        ++ Decimal.natural lastLine ++ ")"

/-- A fault with the instruction that ran into it. -/
structure RuntimeError where
  fault : RuntimeFault
  instruction : Instruction
  deriving DecidableEq

/-- The text that reports the error. -/
def RuntimeError.message (e : RuntimeError) : String :=
  "error [ln: " ++ Decimal.natural e.instruction.line ++ "]: runtime error, "
    ++ e.fault.describe ++ " - `" ++ e.instruction.text ++ "`"

/-- Whether a jump is taken at this value of the accumulator. -/
def Mnemonic.jumpsAt (m : Mnemonic) (value : Word) : Bool :=
  match m with
  | .jump => true
  | .jpos => 0 < value
  | .jzero => value == 0
  | .jneg => value < 0
  | _ => false

/-- The state of a machine. -/
structure Machine where
  /-- The line of the next instruction, or 0 when the machine has halted. -/
  pc : Nat
  registers : Registers
  program : Program
  input : Input
  deriving DecidableEq

namespace Machine

/-- A new machine stands at the first line of its program. -/
def start (program : Program) (input : Input) : Machine :=
  ⟨1, .initial, program, input⟩

def isHalted (m : Machine) : Bool := m.pc == 0

def halt (m : Machine) : Machine := { m with pc := 0 }

/-- The instruction that the next step executes, if any. -/
def instruction? (m : Machine) : Option Instruction := m.program.get? m.pc

def accumulator (m : Machine) : Word := m.registers.accumulator

def advance (m : Machine) : Machine := { m with pc := m.pc + 1 }

/-- The machine at the next line with a new value in the accumulator. -/
def put (m : Machine) (value : Word) : Machine :=
  { m with registers := m.registers.setAccumulator value, pc := m.pc + 1 }

/-- The value that an operand of LOAD, ADD or SUB stands for. -/
def fetch (m : Machine) : Operand → Word
  | .absent => 0
  | .direct address => m.registers.read address
  | .indirect address => m.registers.readIndirect address
  | .constant value => value

/-- The index of the input register that an operand of READ names. -/
def inputIndex (m : Machine) : Operand → Except RuntimeFault Word
  | .indirect address =>
      match m.registers.get? address with
      | some index => .ok index
      | none => .error (.unusedPointer address)
  | operand => .ok operand.number

/-- The input value that an operand of READ names. -/
def inputValue (m : Machine) (operand : Operand) : Except RuntimeFault Word :=
  match m.inputIndex operand with
  | .error fault => .error fault
  | .ok index =>
      match m.input.get? index with
      | some value => .ok value
      | none => .error (.noInputRegister index m.input.size)

/-- The register that an operand of STORE names. A pointer never written names none. -/
def storeAddress? (m : Machine) : Operand → Option Word
  | .indirect address => m.registers.get? address
  | operand => some operand.number

/-- The line that the operand of a jump names. -/
def jumpTarget (m : Machine) (operand : Operand) : Except RuntimeFault Nat :=
  match Word.toNat? operand.number with
  | some line =>
      if line ≤ m.program.lineCount then .ok line
      else .error (.noSuchLine operand.number m.program.lineCount)
  | none => .error (.noSuchLine operand.number m.program.lineCount)

/-- The machine after STORE has copied the accumulator. -/
def store (m : Machine) (operand : Operand) : Machine :=
  match m.storeAddress? operand with
  | some address => { m with registers := m.registers.write address m.accumulator }.advance
  | none => m.advance

/-- The machine after a jump to a line, if it is taken. -/
def branch (m : Machine) (taken : Bool) (line : Nat) : Machine :=
  if taken then { m with pc := line } else m.advance

/-- The meaning of an instruction. -/
def effect (m : Machine) (mnemonic : Mnemonic) (operand : Operand) :
    Except RuntimeFault Machine :=
  match mnemonic with
  | .read => (m.inputValue operand).map m.put
  | .store => .ok (m.store operand)
  | .load => .ok (m.put (m.fetch operand))
  | .add => .ok (m.put (m.accumulator + m.fetch operand))
  | .sub => .ok (m.put (m.accumulator - m.fetch operand))
  | .half => .ok (m.put (Word.half m.accumulator))
  | .jump | .jpos | .jzero | .jneg =>
      -- the target has to exist even if the jump is not taken
      (m.jumpTarget operand).map (m.branch (mnemonic.jumpsAt m.accumulator))
  | .halt => .ok m.halt
  | .pass => .ok m.advance

/-- Execute one instruction, whatever the program counter is. -/
def perform (m : Machine) (i : Instruction) : Except RuntimeError Machine :=
  (m.effect i.mnemonic i.operand).mapError fun fault => ⟨fault, i⟩

/-- Execute the instruction that the program counter names, or halt if there is none. -/
def step (m : Machine) : Except RuntimeError Machine :=
  match m.instruction? with
  | some i => m.perform i
  | none => .ok m.halt

/-- Make a step and tell what went wrong. A machine whose step fails stays as it is. -/
def attempt (m : Machine) : Option RuntimeError × Machine :=
  match m.step with
  | .ok next => (none, next)
  | .error e => (some e, m)

theorem step_of_instruction? {m : Machine} {i : Instruction} (h : m.instruction? = some i) :
    m.step = m.perform i := by
  simp [step, h]

theorem step_of_instruction?_eq_none {m : Machine} (h : m.instruction? = none) :
    m.step = .ok m.halt := by
  simp [step, h]

theorem attempt_of_ok {m next : Machine} (h : m.step = .ok next) : m.attempt = (none, next) := by
  simp [attempt, h]

theorem attempt_of_error {m : Machine} {e : RuntimeError} (h : m.step = .error e) :
    m.attempt = (some e, m) := by
  simp [attempt, h]

/-- A halted machine stays as it is. -/
theorem step_of_isHalted {m : Machine} (h : m.isHalted) : m.step = .ok m := by
  have hpc : m.pc = 0 := by simpa [isHalted] using h
  rw [step_of_instruction?_eq_none (by simp [instruction?, hpc])]
  cases m
  simp_all [halt]

end Machine

end RandomAccessMachine
