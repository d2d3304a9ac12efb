import Mathlib.Algebra.Group.Nat.Defs
import Mathlib.Data.Set.Subsingleton
import Mathlib.Order.BooleanAlgebra.Set
import RandomAccessMachine.Proofs.Machine.WrittenRegisters

/-!
# What a run keeps

Whatever a program does, its machine stands on a line of the program, behind
the last line, or nowhere once it has halted. It keeps its program, its input
and all registers that have been written, and an attempt at a step writes at
most one more. All this also holds after a failure and after the halt.

## Implementation notes

The program counter is a natural number and never wraps around. `CountsUp`
says that a counter of 64 bits would count on to the same number. It does at
every instruction, because the memory that such a counter addresses does not
hold a program of more than `longest` lines.
-/

namespace RandomAccessMachine

/-- More lines than any program has that an address space of 64 bits can hold. -/
def Program.longest : Nat := 2 ^ 63

namespace Machine

/-- The registers that have been written. -/
def written (m : Machine) : Set Word := {k | m.registers.isSet k = true}

/-- A program counter of 64 bits can be counted up here. -/
def CountsUp (m : Machine) : Prop := (UInt64.ofNat m.pc + 1).toNat = m.pc + 1

/-- The machine is running this program with this input. -/
structure Runs (p : Program) (input : Input) (m : Machine) : Prop where
  program : m.program = p
  input : m.input = input
  pc_le : m.pc ≤ p.lineCount + 1
  accumulator_written : 0 ∈ m.written

variable {m next : Machine} {i : Instruction} {mnemonic : Mnemonic} {operand : Operand}
  {p : Program} {input : Input}

theorem countsUp_iff : m.CountsUp ↔ m.pc + 1 < 2 ^ 64 := by
  have hsum : (UInt64.ofNat m.pc + 1).toNat = (m.pc + 1) % 2 ^ 64 := by
    simp [UInt64.toNat_add]
  rw [CountsUp, hsum]
  omega

/-- There are instructions on the lines of the program only. -/
theorem pc_le_of_instruction? (h : m.instruction? = some i) : m.pc ≤ m.program.lineCount :=
  (Program.get?_isSome_iff.mp (Option.isSome_of_eq_some h)).2

theorem countsUp_of_instruction? (h : m.instruction? = some i)
    (hlines : m.program.lineCount < Program.longest) : m.CountsUp := by
  have hpc := pc_le_of_instruction? h
  unfold Program.longest at hlines
  rw [countsUp_iff]
  omega

/-- A jump goes to a line of the program or halts the machine. -/
theorem le_of_jumpTarget {line : Nat} (h : m.jumpTarget operand = .ok line) :
    line ≤ m.program.lineCount := by
  unfold jumpTarget at h
  split at h
  · split at h
    · rename_i hle
      exact Except.ok.inj h ▸ hle
    · cases h
  · cases h

theorem pc_store (m : Machine) (operand : Operand) : (m.store operand).pc = m.pc + 1 := by
  unfold store
  split <;> rfl

/-- An instruction leads to a line of the program, halts the machine, or leads to the next line. -/
theorem pc_of_effect (h : m.effect mnemonic operand = .ok next) :
    next.pc ≤ m.program.lineCount ∨ next.pc = m.pc + 1 := by
  obtain ⟨value, rfl⟩ | ⟨_, rfl⟩ | ⟨line, hline, rfl⟩ | ⟨_, rfl⟩ | ⟨_, rfl⟩ := effect_eq_ok h
  · exact .inr rfl
  · exact .inr (pc_store m operand)
  · cases mnemonic.jumpsAt m.accumulator with
    | true => exact .inl (le_of_jumpTarget hline)
    | false => exact .inr rfl
  · exact .inl (Nat.zero_le _)
  · exact .inr rfl

/-- From any program counter, a step leads into the program, behind its last line, or to a halt. -/
theorem pc_le_of_step (h : m.step = .ok next) : next.pc ≤ m.program.lineCount + 1 := by
  cases hi : m.instruction? with
  | none =>
      rw [step_of_instruction?_eq_none hi] at h
      rw [← Except.ok.inj h]
      apply Nat.zero_le
  | some i =>
      rw [step_of_instruction? hi, perform_eq_ok_iff] at h
      have hpc := pc_le_of_instruction? hi
      have hnext := pc_of_effect h
      omega

/-- An attempt forgets no register, and at most one register is written by it. -/
theorem written_attempt (m : Machine) :
    m.written ⊆ m.attempt.2.written ∧ (m.attempt.2.written \ m.written).Subsingleton := by
  obtain ⟨_, h⟩ | ⟨e, _, h⟩ | ⟨i, next, _, hp, h⟩ := m.attempt_cases
  · have hsame : m.halt.written = m.written := rfl
    rw [h, hsame, Set.sdiff_self]
    exact ⟨subset_rfl, Set.subsingleton_empty⟩
  · rw [h, Set.sdiff_self]
    exact ⟨subset_rfl, Set.subsingleton_empty⟩
  · rw [h]
    have hset (k : Word) : k ∈ next.written ↔ k ∈ m.written ∨ m.writeAddress? i = some k :=
      isSet_of_perform hp k
    constructor
    · intro k hk
      exact (hset k).mpr (.inl hk)
    · intro a ha b hb
      have ha' := ((hset a).mp ha.1).resolve_left ha.2
      have hb' := ((hset b).mp hb.1).resolve_left hb.2
      exact Option.some.inj (ha'.symm.trans hb')

namespace Runs

theorem start (p : Program) (input : Input) : Runs p input (Machine.start p input) := by
  refine ⟨rfl, rfl, ?_, ?_⟩
  · exact Nat.succ_le_succ (Nat.zero_le _)
  · exact (Registers.isSet_initial 0).mpr rfl

/-- An attempt keeps a machine running, whether it succeeds or not. -/
theorem attempt (h : Runs p input m) : Runs p input m.attempt.2 := by
  obtain ⟨hprogram, hinput⟩ := attempt_program_input m
  refine ⟨hprogram.trans h.program, hinput.trans h.input, ?_, ?_⟩
  · cases hs : m.step with
    | error e =>
        rw [attempt_of_error hs]
        exact h.pc_le
    | ok next =>
        rw [attempt_of_ok hs, ← h.program]
        exact pc_le_of_step hs
  · apply (written_attempt m).1
    exact h.accumulator_written

theorem after (h : Runs p input m) (n : Nat) : Runs p input (m.after n) := by
  induction n with
  | zero => exact h
  | succ n ih =>
      rw [after_succ]
      exact ih.attempt

theorem countsUp (h : Runs p input m) (hlines : p.lineCount < Program.longest) : m.CountsUp := by
  have hpc := h.pc_le
  unfold Program.longest at hlines
  rw [countsUp_iff]
  omega

end Runs

/-- Through any number of attempts a new machine runs its program with its input, and its counter
can be counted up. No attempt forgets a register, and at most one more is written by each. From any
state, a step that succeeds leads into the program, behind its last line or to a halt, an
instruction is executed only where the counter can be counted up, and a halted machine stays as it
is. -/
theorem run_stays_within_program (p : Program) (input : Input) :
    (∀ n, Runs p input ((start p input).after n) ∧
      (p.lineCount < Program.longest → ((start p input).after n).CountsUp) ∧
      ((start p input).after n).written ⊆ ((start p input).after (n + 1)).written ∧
      (((start p input).after (n + 1)).written \ ((start p input).after n).written).Subsingleton) ∧
    (∀ m next : Machine, m.step = .ok next → next.pc ≤ m.program.lineCount + 1) ∧
    (∀ (m : Machine) (i : Instruction), m.instruction? = some i →
      m.program.lineCount < Program.longest → m.CountsUp) ∧
    ∀ m : Machine, m.isHalted = true → m.attempt = (none, m) := by
  refine ⟨fun n => ?_, fun m next => pc_le_of_step, fun m i => countsUp_of_instruction?, ?_⟩
  · have hruns : Runs p input ((start p input).after n) := (Runs.start p input).after n
    refine ⟨hruns, hruns.countsUp, ?_⟩
    rw [after_succ]
    apply written_attempt
  · intro m hhalt
    apply attempt_of_ok
    exact step_of_isHalted hhalt

/-- A machine behind the last line of its program, one that a step takes from the greatest counter
of 64 bits to a halt, and the halted machine. -/
theorem run_stays_within_program_from_greatest_counter :
    let p := Program.ofList [⟨.store, .direct 4, 1⟩]
    let m : Machine := { start p .empty with pc := 18446744073709551615 }
    (start p .empty).CountsUp ∧ ((start p .empty).after 1).CountsUp ∧
      ((start p .empty).after 1).pc = 2 ∧ m.step = .ok m.halt ∧ m.halt.pc ≤ 2 ∧
      m.halt.attempt = (none, m.halt) := by
  intro p m
  obtain ⟨hruns, hstep, hcount, hhalt⟩ := run_stays_within_program p .empty
  have hlines : p.lineCount < Program.longest := by decide
  have hm : m.step = .ok m.halt := step_of_instruction?_eq_none rfl
  refine ⟨hcount _ ⟨.store, .direct 4, 1⟩ rfl hlines, (hruns 1).2.1 hlines, by decide, hm, ?_, ?_⟩
  · exact hstep m m.halt hm
  · exact hhalt m.halt rfl

end Machine

end RandomAccessMachine
