/-!
# The instruction set

The twelve mnemonics of the machine with the forms of argument that each one
takes. The order of `Mnemonic.all` is the order of the printed instruction
list.
-/

namespace RandomAccessMachine

/-- Which forms of argument a mnemonic takes. -/
inductive ArgumentClass
  /-- No argument. -/
  | noArgument
  /-- A register, named directly or through a pointer. -/
  | register
  /-- A line of the program. -/
  | line
  /-- A register, named directly or through a pointer, or a constant. -/
  | value
  deriving DecidableEq, Repr

/-- How each accepted form continues the mnemonic. -/
def ArgumentClass.forms : ArgumentClass → List String
  | .noArgument => [""]
  | .register => [" X", " (X)"]
  | .line => [" X", " =X"]
  | .value => [" X", " (X)", " =X"]

/-- Whether a register may be named through a pointer. -/
def ArgumentClass.takesPointer : ArgumentClass → Bool
  | .register | .value => true
  | .noArgument | .line => false

/-- Whether the number may be written after an equals sign. -/
def ArgumentClass.takesConstant : ArgumentClass → Bool
  | .line | .value => true
  | .noArgument | .register => false

/-- The names of the machine's instructions. -/
inductive Mnemonic
  | read
  | store
  | load
  | add
  | sub
  | half
  | jump
  | jpos
  | jzero
  | jneg
  | halt
  | pass
  deriving DecidableEq, Repr

namespace Mnemonic

/-- Every mnemonic once. -/
def all : List Mnemonic :=
  [.read, .store, .load, .add, .sub, .half, .jump, .jpos, .jzero, .jneg, .halt, .pass]

/-- The mnemonic as it is written in a program. -/
def name : Mnemonic → String
  | .read => "READ"
  | .store => "STORE"
  | .load => "LOAD"
  | .add => "ADD"
  | .sub => "SUB"
  | .half => "HALF"
  | .jump => "JUMP"
  | .jpos => "JPOS"
  | .jzero => "JZERO"
  | .jneg => "JNEG"
  | .halt => "HALT"
  | .pass => "PASS"

/-- The forms of argument that the mnemonic takes. -/
def argumentClass : Mnemonic → ArgumentClass
  | .read | .store => .register
  | .load | .add | .sub => .value
  | .jump | .jpos | .jzero | .jneg => .line
  | .half | .halt | .pass => .noArgument

/-- What the instruction does, in words. -/
def description : Mnemonic → String
  | .read => "Puts the value of an input register into r0"
  | .store => "Puts the value of r0 into a register"
  | .load => "Puts a value into r0"
  | .add => "Adds a value to r0"
  | .sub => "Subtracts a value from r0"
  | .half => "Halves the value of r0, rounding down"
  | .jump => "Continues from the given line"
  | .jpos => "Continues from the given line if r0 > 0"
  | .jzero => "Continues from the given line if r0 = 0"
  | .jneg => "Continues from the given line if r0 < 0"
  | .halt => "Stops the execution of the program"
  | .pass => "Does nothing"

/-- The mnemonic with exactly this name. -/
def ofName? (name : String) : Option Mnemonic :=
  all.find? fun m => m.name == name

/-- The place of the mnemonic in `all`, counted from 0. -/
def position (m : Mnemonic) : Nat := all.idxOf m

theorem mem_all (m : Mnemonic) : m ∈ all := by
  cases m <;> decide

theorem name_injective {a b : Mnemonic} (h : a.name = b.name) : a = b := by
  cases a <;> cases b <;> first | rfl | (simp [name] at h)

/-- A name belongs to at most one mnemonic, which is found by it. -/
theorem ofName?_eq_some_iff {s : String} {m : Mnemonic} :
    ofName? s = some m ↔ m.name = s := by
  constructor
  · intro h
    simpa using List.find?_some h
  · rintro rfl
    cases m <;> simp [ofName?, all, name]

end Mnemonic

end RandomAccessMachine
