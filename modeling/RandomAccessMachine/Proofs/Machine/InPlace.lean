import RandomAccessMachine.Proofs.Machine.Attempts

/-!
# Execution in place and failures

A machine can be kept in one place and overwritten part by part: an action
reads it, writes a register, moves the program counter, or fails, and then
the machine stays as it has been overwritten so far. Executed in this way, an
instruction that fails has overwritten nothing, so the failure can be repeated.

## Implementation notes

`Machine.perform` gives no machine when it fails, so it cannot say what a
failure leaves behind. The actions can, and `run_execute`, `run_step` and
`run_run` say that they do what `perform`, `step` and `run` do.
-/

namespace RandomAccessMachine

/-- Something that is done to a machine in place. A failure leaves the machine as it is then. -/
abbrev Action := EStateM RuntimeError Machine

namespace InPlace

/-- Write a register. -/
def write (address value : Word) : Action Unit :=
  modify fun m => { m with registers := m.registers.write address value }

def setAccumulator (value : Word) : Action Unit := write 0 value

/-- Move the program counter to a line. -/
def goTo (line : Nat) : Action Unit := modify fun m => { m with pc := line }

/-- Move the program counter to the next line. -/
def advance : Action Unit := modify fun m => { m with pc := m.pc + 1 }

/-- Move the program counter to a line if a jump is taken, and else to the next line. -/
def branch (taken : Bool) (line : Nat) : Action Unit := if taken then goTo line else advance

/-- Find the index of the input register that a READ names. -/
def inputIndex (i : Instruction) : Action Word := do
  match i.operand with
  | .indirect address =>
      match (← get).registers.get? address with
      | some index => return index
      | none => throw ⟨.unusedPointer address, i⟩
  | operand => return operand.number

/-- Find the input value that a READ names. -/
def inputValue (i : Instruction) : Action Word := do
  let index ← inputIndex i
  match (← get).input.get? index with
  | some value => return value
  | none => throw ⟨.noInputRegister index (← get).input.size, i⟩

/-- Find the line that a jump names. -/
def jumpTarget (i : Instruction) : Action Nat := do
  let lastLine := (← get).program.lineCount
  match Word.toNat? i.operand.number with
  | some line =>
      if line ≤ lastLine then return line
      else throw ⟨.noSuchLine i.operand.number lastLine, i⟩
  | none => throw ⟨.noSuchLine i.operand.number lastLine, i⟩

/-- Execute one instruction, whatever the program counter is. -/
def execute (i : Instruction) : Action Unit := do
  match i.mnemonic with
  | .read =>
      setAccumulator (← inputValue i)
      advance
  | .store =>
      let value := (← get).accumulator
      if let some address := (← get).storeAddress? i.operand then
        write address value
      advance
  | .load =>
      setAccumulator ((← get).fetch i.operand)
      advance
  | .add =>
      let value := (← get).accumulator
      setAccumulator (value + (← get).fetch i.operand)
      advance
  | .sub =>
      let value := (← get).accumulator
      setAccumulator (value - (← get).fetch i.operand)
      advance
  | .half =>
      setAccumulator (Word.half (← get).accumulator)
      advance
  | .jump => goTo (← jumpTarget i)
  | .jpos | .jzero | .jneg =>
      let line ← jumpTarget i
      branch (i.mnemonic.jumpsAt (← get).accumulator) line
  | .halt => goTo 0
  | .pass => advance

/-- Execute the instruction that the program counter names, or halt if there is none. -/
def step : Action Unit := do
  match (← get).instruction? with
  | some i => execute i
  | none => goTo 0

/-- Make steps until the machine halts, at most this many, and find the accumulator then. -/
def run (bound : Nat) : Action (Option Word) := do
  if (← get).isHalted then
    let value := (← get).accumulator
    return some value
  else
    match bound with
    | 0 => return none
    | bound + 1 =>
        step
        run bound

/-- What looking something up for an instruction comes to: the machine is only read. -/
def lookedUp {α : Type} (m : Machine) (i : Instruction) :
    Except RuntimeFault α → EStateM.Result RuntimeError Machine α
  | .ok a => .ok a m
  | .error fault => .error ⟨fault, i⟩ m

/-- What executing comes to: the next machine, or an error and the machine as it was. -/
def executed (m : Machine) :
    Except RuntimeError Machine → EStateM.Result RuntimeError Machine Unit
  | .ok next => .ok () next
  | .error e => .error e m

/-- What a run comes to, with the machine in which it ends. -/
def ended : Outcome RuntimeError × Machine → EStateM.Result RuntimeError Machine (Option Word)
  | (.returned value, final) => .ok (some value) final
  | (.failed e, final) => .error e final
  | (.unfinished, final) => .ok none final

variable {m m' : Machine} {i : Instruction} {e : RuntimeError}

theorem run_setAccumulator (value : Word) (m : Machine) :
    (setAccumulator value).run m =
      .ok () { m with registers := m.registers.setAccumulator value } :=
  rfl

theorem run_advance (m : Machine) : advance.run m = .ok () m.advance := rfl

theorem run_branch (taken : Bool) (line : Nat) (m : Machine) :
    (branch taken line).run m = .ok () (m.branch taken line) := by
  cases taken <;> rfl

theorem run_inputIndex (i : Instruction) (m : Machine) :
    (inputIndex i).run m = lookedUp m i (m.inputIndex i.operand) := by
  unfold inputIndex Machine.inputIndex
  cases i.operand with
  | absent | direct | constant => rfl
  | indirect address =>
      simp only [EStateM.run_bind, EStateM.run_get]
      cases m.registers.get? address <;> rfl

theorem run_inputValue (i : Instruction) (m : Machine) :
    (inputValue i).run m = lookedUp m i (m.inputValue i.operand) := by
  rw [inputValue, EStateM.run_bind, run_inputIndex, Machine.inputValue]
  cases m.inputIndex i.operand with
  | error fault => rfl
  | ok index =>
      simp only [lookedUp, EStateM.run_bind, EStateM.run_get]
      cases m.input.get? index <;> rfl

theorem run_jumpTarget (i : Instruction) (m : Machine) :
    (jumpTarget i).run m = lookedUp m i (m.jumpTarget i.operand) := by
  simp only [jumpTarget, EStateM.run_bind, EStateM.run_get, Machine.jumpTarget]
  cases Word.toNat? i.operand.number with
  | none => rfl
  | some line =>
      dsimp only
      split <;> rfl

/-- In place, an instruction does what it does to machines as values. -/
theorem run_execute (i : Instruction) (m : Machine) :
    (execute i).run m = executed m (m.perform i) := by
  obtain ⟨mnemonic, operand, line⟩ := i
  cases mnemonic with
  | read =>
      simp only [execute, EStateM.run_bind, Machine.perform, Machine.effect]
      rw [run_inputValue]
      cases m.inputValue operand <;> rfl
  | store =>
      simp only [execute, EStateM.run_bind, EStateM.run_get, Machine.perform, Machine.effect,
        Machine.store]
      cases m.storeAddress? operand <;> rfl
  | load | add | sub | half =>
      simp only [execute, EStateM.run_bind, EStateM.run_get, run_setAccumulator, run_advance,
        Machine.perform, Machine.effect]
      rfl
  | halt | pass => rfl
  | jump =>
      simp only [execute, EStateM.run_bind, Machine.perform, Machine.effect]
      rw [run_jumpTarget]
      cases m.jumpTarget operand <;> rfl
  | jpos | jzero | jneg =>
      simp only [execute, EStateM.run_bind, Machine.perform, Machine.effect]
      rw [run_jumpTarget]
      cases m.jumpTarget operand with
      | error fault => rfl
      | ok line =>
          simp only [lookedUp, EStateM.run_get, run_branch]
          rfl

theorem run_step (m : Machine) : step.run m = executed m m.step := by
  simp only [step, EStateM.run_bind, EStateM.run_get]
  cases hi : m.instruction? with
  | none =>
      rw [Machine.step_of_instruction?_eq_none hi]
      rfl
  | some i =>
      rw [Machine.step_of_instruction? hi]
      exact run_execute i m

theorem run_run (bound : Nat) (m : Machine) : (run bound).run m = ended (m.run bound) := by
  induction bound generalizing m with
  | zero =>
      by_cases h : m.isHalted
      · simp [run, Machine.run_of_isHalted h, ended, h, -bind_pure_comp]
      · simp [run, Machine.run_zero_of_not_isHalted h, ended, h]
  | succ bound ih =>
      by_cases h : m.isHalted
      · simp [run, Machine.run_of_isHalted h, ended, h, -bind_pure_comp]
      · cases hs : m.step with
        | error e => simp [run, Machine.run_succ_of_error h hs, ended, h, run_step, hs, executed]
        | ok next => simp [run, Machine.run_succ_of_ok h hs, h, run_step, hs, executed, ih]

theorem executed_eq_error_iff {result : Except RuntimeError Machine} :
    executed m result = .error e m' ↔ result = .error e ∧ m' = m := by
  cases result <;> simp [executed, eq_comm]

theorem ended_eq_error_iff {result : Outcome RuntimeError × Machine} :
    ended result = .error e m' ↔ result = (.failed e, m') := by
  obtain ⟨outcome, final⟩ := result
  cases outcome <;> simp [ended]

/-- In place, an instruction fails exactly if it fails for the machine as a value, and it changes
nothing then. -/
theorem run_execute_eq_error_iff :
    (execute i).run m = .error e m' ↔ m.perform i = .error e ∧ m' = m := by
  rw [run_execute, executed_eq_error_iff]

theorem run_step_eq_error_iff : step.run m = .error e m' ↔ m.step = .error e ∧ m' = m := by
  rw [run_step, executed_eq_error_iff]

theorem run_run_eq_error_iff {bound : Nat} :
    (run bound).run m = .error e m' ↔ m.run bound = (.failed e, m') := by
  rw [run_run, ended_eq_error_iff]

/-- A machine whose next step fails is left by every attempt as it is. -/
theorem after_of_step_eq_error (h : m.step = .error e) (n : Nat) : m.after n = m := by
  induction n with
  | zero => rfl
  | succ n ih => rw [Machine.after_succ, ih, Machine.attempt_of_error h]

/-- A machine whose next step fails cannot run. -/
theorem run_eq_failed_of_step_eq_error (h : m.step = .error e) (bound : Nat) :
    m.run (bound + 1) = (.failed e, m) := by
  have hi : m.instruction? = some e.instruction := (Machine.step_eq_error_iff.mp h).1
  exact Machine.run_succ_of_error (Machine.not_isHalted_of_instruction? hi) h bound

/-- An instruction or a step that fails changes nothing, and fails again. A run that fails has made
the steps before the failing one, and every later step and run fails again and changes nothing. -/
theorem failed_action_changes_nothing :
    (∀ (i : Instruction) (m m' : Machine) (e : RuntimeError), (execute i).run m = .error e m' →
      m.perform i = .error e ∧ m' = m ∧ (execute i).run m' = .error e m') ∧
    (∀ (m m' : Machine) (e : RuntimeError), step.run m = .error e m' →
      m.step = .error e ∧ m' = m ∧ step.run m' = .error e m') ∧
    ∀ (bound : Nat) (m m' : Machine) (e : RuntimeError), (run bound).run m = .error e m' →
      m.Fails e m' ∧ (∃ n, m.Executes n ∧ m' = m.after n) ∧ step.run m' = .error e m' ∧
        (∀ n, m'.after n = m') ∧ ∀ later, (run (later + 1)).run m' = .error e m' := by
  refine ⟨?_, ?_, ?_⟩
  · intro i m m' e h
    obtain ⟨herror, rfl⟩ := run_execute_eq_error_iff.mp h
    exact ⟨herror, rfl, h⟩
  · intro m m' e h
    obtain ⟨herror, rfl⟩ := run_step_eq_error_iff.mp h
    exact ⟨herror, rfl, h⟩
  · intro bound m m' e h
    have hfails : m.Fails e m' := ⟨bound, run_run_eq_error_iff.mp h⟩
    obtain ⟨n, hexecutes, hafter, hstep⟩ := Machine.fails_iff.mp hfails
    refine ⟨hfails, ⟨n, hexecutes, hafter⟩, run_step_eq_error_iff.mpr ⟨hstep, rfl⟩,
      after_of_step_eq_error hstep, ?_⟩
    intro later
    rw [run_run_eq_error_iff]
    exact run_eq_failed_of_step_eq_error hstep later

/-- A READ through a register that was never written, after a step that succeeds. -/
theorem failed_action_changes_nothing_of_unset_pointer :
    let i : Instruction := ⟨.read, .indirect 3, 2⟩
    let m := Machine.start (Program.ofList [⟨.load, .constant 5, 1⟩, i]) .empty
    let e : RuntimeError := ⟨.unusedPointer 3, i⟩
    (execute i).run m = .error e m ∧ step.run (m.after 1) = .error e (m.after 1) ∧
      (run 7).run m = .error e (m.after 1) ∧ (m.after 1).accumulator = 5 ∧
      m.perform i = .error e ∧ (m.after 1).step = .error e ∧ (m.after 1).after 9 = m.after 1 ∧
      (run 1).run (m.after 1) = .error e (m.after 1) := by
  intro i m e
  have hexecute : (execute i).run m = .error e m := rfl
  have hstep : step.run (m.after 1) = .error e (m.after 1) := rfl
  have hrun : (run 7).run m = .error e (m.after 1) := rfl
  obtain ⟨hperform, _, _⟩ := failed_action_changes_nothing.1 i m m e hexecute
  obtain ⟨herror, _, _⟩ := failed_action_changes_nothing.2.1 _ _ e hstep
  obtain ⟨_, _, _, hafter, hagain⟩ := failed_action_changes_nothing.2.2 7 m _ e hrun
  exact ⟨hexecute, hstep, hrun, by decide, hperform, herror, hafter 9, hagain 0⟩

end InPlace

end RandomAccessMachine
