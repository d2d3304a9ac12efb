import RandomAccessMachine.Proofs.Assembly.LineAlignment
import RandomAccessMachine.Proofs.Assembly.Writable
import RandomAccessMachine.Proofs.Machine.WrittenRegisters

/-!
# Why a run fails

A run of a program fails for one of three reasons: a READ names an input
register that does not exist, a READ uses a register as a pointer that has not
been written before, or a jump names a line behind the last one. The error
carries the instruction that is to blame, and this is what the line with the
number of the program counter says.

## Implementation notes

`FaultCause` does not mention the registers that are set, but the instructions
that have been executed. `step_after_eq_error_iff` says that a step fails
exactly for such a cause, so both directions of the main result follow from it.
-/

namespace RandomAccessMachine

/-- The mnemonics whose operand names a line. -/
def Mnemonic.jumps : List Mnemonic := [.jump, .jpos, .jzero, .jneg]

/-- What is wrong with an instruction when the first `n` steps of a run are done. -/
inductive FaultCause (start : Machine) (n : Nat) (i : Instruction) : RuntimeFault → Prop
  /-- A READ names an index that no input register has. -/
  | noInputRegister {index : Word} (hread : i.mnemonic = .read)
      (hindex : i.operand.Names (start.after n).registers index)
      (hnone : ¬ (1 ≤ index.toInt ∧ index.toInt ≤ start.input.size)) :
      FaultCause start n i (.noInputRegister index start.input.size)
  /-- A READ uses a register as a pointer that no instruction has written so far. -/
  | unusedPointer {k : Word} (hread : i.mnemonic = .read) (hpointer : i.operand = .indirect k)
      (hk : k ≠ 0) (hnever : ¬ start.Wrote n k) : FaultCause start n i (.unusedPointer k)
  /-- A jump, whether it is taken or not, names a line behind the last one. -/
  | noSuchLine {target : Word} (hjump : i.mnemonic ∈ Mnemonic.jumps)
      (htarget : i.operand.number? = some target)
      (hlast : start.program.lineCount < target.toInt) :
      FaultCause start n i (.noSuchLine target start.program.lineCount)

namespace Machine

variable {m final : Machine} {mnemonic : Mnemonic} {operand : Operand} {fault : RuntimeFault}
  {i : Instruction} {e : RuntimeError} {n : Nat}

/-- Only a READ that finds no value and a jump without a target fail. -/
theorem effect_eq_error_iff :
    m.effect mnemonic operand = .error fault ↔
      (mnemonic = .read ∧ m.inputValue operand = .error fault) ∨
        (mnemonic ∈ Mnemonic.jumps ∧ m.jumpTarget operand = .error fault) := by
  cases mnemonic with
  | read | jump | jpos | jzero | jneg =>
      simp [effect, Mnemonic.jumps, Except.map_eq_error_iff]
  | store | load | add | sub | half | halt | pass => simp [effect, Mnemonic.jumps]

/-- The operand of a READ names no index exactly if its pointer is not set. -/
theorem inputIndex_eq_error_iff :
    m.inputIndex operand = .error fault ↔
      ∃ k, operand = .indirect k ∧ m.registers.get? k = none ∧ fault = .unusedPointer k := by
  cases operand with
  | absent | direct | constant => simp [inputIndex]
  | indirect k =>
      simp only [inputIndex]
      cases hget : m.registers.get? k <;> simp [hget, eq_comm]

/-- A READ finds no value if its operand names no index or one that no input register has. -/
theorem inputValue_eq_error_iff :
    m.inputValue operand = .error fault ↔
      m.inputIndex operand = .error fault ∨ ∃ index, m.inputIndex operand = .ok index ∧
        ¬ (1 ≤ index.toInt ∧ index.toInt ≤ m.input.size) ∧
        fault = .noInputRegister index m.input.size := by
  unfold inputValue
  cases hindex : m.inputIndex operand with
  | error other => simp
  | ok index =>
      simp only [reduceCtorEq, false_or, Except.ok.injEq, exists_eq_left',
        ← Input.get?_eq_none_iff]
      cases m.input.get? index <;> simp [eq_comm]

/-- A jump has no target exactly if it names a line behind the last one. -/
theorem jumpTarget_eq_error_iff (h : Writable mnemonic operand)
    (hjump : mnemonic ∈ Mnemonic.jumps) :
    m.jumpTarget operand = .error fault ↔
      ∃ target, operand.number? = some target ∧ m.program.lineCount < target.toInt ∧
        fault = .noSuchLine target m.program.lineCount := by
  obtain ⟨target, htarget⟩ : ∃ target, operand.number? = some target := by
    cases operand with
    | absent =>
        -- no jump can be written without a line
        have hclass : mnemonic.argumentClass = .line := by
          revert hjump
          cases mnemonic <;> decide
        rw [writable_absent_iff, hclass] at h
        cases h
    | direct x | indirect x | constant x => exact ⟨x, rfl⟩
  have hnonneg := h.nonneg target htarget
  have hnumber : operand.number = target := by rw [Operand.number, htarget, Option.getD_some]
  unfold jumpTarget
  rw [hnumber]
  cases hline : Word.toNat? target with
  | none =>
      rw [Word.toNat?_eq_none_iff] at hline
      omega
  | some line =>
      rw [Word.toNat?_eq_some_iff] at hline
      by_cases hle : line ≤ m.program.lineCount
      · have hnot : ¬ m.program.lineCount < target.toInt := by omega
        simp [hle, htarget, hnot]
      · have hlast : m.program.lineCount < target.toInt := by omega
        simp [hle, htarget, hlast, eq_comm]

end Machine

namespace FaultCause

variable {p : Program} {input : Input} {n : Nat} {i : Instruction} {fault : RuntimeFault}

/-- In the run of a new machine, an instruction fails exactly for a cause. -/
theorem iff_effect_eq_error (h : Writable i.mnemonic i.operand) :
    FaultCause (Machine.start p input) n i fault ↔
      ((Machine.start p input).after n).effect i.mnemonic i.operand = .error fault := by
  have hinput : ((Machine.start p input).after n).input = input := Machine.input_after _ n
  have hprogram : ((Machine.start p input).after n).program = p := Machine.program_after _ n
  rw [Machine.effect_eq_error_iff]
  constructor
  · intro hcause
    cases hcause with
    | noInputRegister hread hindex hnone =>
        refine .inl ⟨hread, Machine.inputValue_eq_error_iff.mpr (.inr ?_)⟩
        rw [hinput]
        exact ⟨_, Machine.inputIndex_eq_ok_iff.mpr hindex, hnone, rfl⟩
    | unusedPointer hread hpointer hk hnever =>
        refine .inl ⟨hread, Machine.inputValue_eq_error_iff.mpr (.inl ?_)⟩
        have hunset := Machine.get?_after_start_eq_none_iff.mpr ⟨hk, hnever⟩
        exact Machine.inputIndex_eq_error_iff.mpr ⟨_, hpointer, hunset, rfl⟩
    | noSuchLine hjump htarget hlast =>
        refine .inr ⟨hjump, (Machine.jumpTarget_eq_error_iff h hjump).mpr ?_⟩
        rw [hprogram]
        exact ⟨_, htarget, hlast, rfl⟩
  · rintro (⟨hread, herror⟩ | ⟨hjump, herror⟩)
    · obtain hindex | ⟨index, hindex, hnone, rfl⟩ := Machine.inputValue_eq_error_iff.mp herror
      · obtain ⟨k, hpointer, hunset, rfl⟩ := Machine.inputIndex_eq_error_iff.mp hindex
        obtain ⟨hk, hnever⟩ := Machine.get?_after_start_eq_none_iff.mp hunset
        exact .unusedPointer hread hpointer hk hnever
      · rw [hinput] at hnone ⊢
        exact .noInputRegister hread (Machine.inputIndex_eq_ok_iff.mp hindex) hnone
    · obtain ⟨target, htarget, hlast, rfl⟩ := (Machine.jumpTarget_eq_error_iff h hjump).mp herror
      rw [hprogram] at hlast ⊢
      exact .noSuchLine hjump htarget hlast

end FaultCause

namespace Program

variable {s : Source} {p : Program} {input : Input}

/-- A machine executes the instruction on the line of its program counter. -/
theorem exists_getElem?_of_instruction? {n : Nat} {i : Instruction}
    (h : ((Machine.start p input).after n).instruction? = some i) :
    ∃ k, ((Machine.start p input).after n).pc = k + 1 ∧ p.instructions[k]? = some i := by
  rw [Machine.instruction?, Machine.program_after] at h
  cases hpc : ((Machine.start p input).after n).pc with
  | zero => simp [hpc] at h
  | succ k =>
      rw [hpc, get?_succ] at h
      exact ⟨k, rfl, h⟩

theorem writable_of_instruction? {n : Nat} {i : Instruction} (h : ofSource s = .ok p)
    (hi : ((Machine.start p input).after n).instruction? = some i) :
    Writable i.mnemonic i.operand := by
  obtain ⟨k, _, hk⟩ := exists_getElem?_of_instruction? hi
  exact writable_of_ofSource h i (Array.mem_toList_iff.mpr (Array.mem_of_getElem? hk))

/-- A step of a program that has been read fails exactly if its instruction has a cause to. -/
theorem step_after_eq_error_iff {n : Nat} {e : RuntimeError} (h : ofSource s = .ok p) :
    ((Machine.start p input).after n).step = .error e ↔
      ((Machine.start p input).after n).instruction? = some e.instruction ∧
        FaultCause (Machine.start p input) n e.instruction e.fault := by
  rw [Machine.step_eq_error_iff]
  refine and_congr_right fun hi => (FaultCause.iff_effect_eq_error ?_).symm
  exact writable_of_instruction? h hi

/-- Every error of a run blames the line of the program counter for what the instruction of this
line does wrong there. Whenever an instruction does so, the next step fails with the error, and so
does the run if it gets there. -/
theorem run_error_has_cause (h : ofSource s = .ok p) (input : Input) :
    (∀ e final, (Machine.start p input).Fails e final →
      1 ≤ e.instruction.line ∧ e.instruction.line ≤ p.lineCount ∧
      final.pc = e.instruction.line ∧
      p.get? e.instruction.line = some e.instruction ∧
      (∃ line, s.lines[e.instruction.line - 1]? = some line ∧
        ofSource line = .ok (ofList [{ e.instruction with line := 1 }])) ∧
      ∃ n, final = (Machine.start p input).after n ∧ (Machine.start p input).Executes n ∧
        FaultCause (Machine.start p input) n e.instruction e.fault) ∧
    ∀ n i fault, ((Machine.start p input).after n).instruction? = some i →
      FaultCause (Machine.start p input) n i fault →
        ((Machine.start p input).after n).step = .error ⟨fault, i⟩ ∧
        ((Machine.start p input).Executes n →
          (Machine.start p input).Fails ⟨fault, i⟩ ((Machine.start p input).after n)) := by
  constructor
  · intro e final hfails
    obtain ⟨n, hexecutes, rfl, hstep⟩ := Machine.fails_iff.mp hfails
    obtain ⟨hi, hcause⟩ := (step_after_eq_error_iff h).mp hstep
    obtain ⟨k, hpc, hk⟩ := exists_getElem?_of_instruction? hi
    have hline : e.instruction.line = k + 1 := line_of_ofSource h hk
    have hget : p.get? (k + 1) = some e.instruction := (get?_succ p k).trans hk
    obtain ⟨hfirst, hlast⟩ := get?_isSome_iff.mp (Option.isSome_of_eq_some hget)
    rw [hline, Nat.add_sub_cancel]
    exact ⟨hfirst, hlast, hpc, hget, exists_line_of_getElem? h hk, n, rfl, hexecutes, hcause⟩
  · intro n i fault hi hcause
    have hstep : ((Machine.start p input).after n).step = .error ⟨fault, i⟩ :=
      (step_after_eq_error_iff h).mpr ⟨hi, hcause⟩
    exact ⟨hstep, fun hexecutes => Machine.fails_iff.mpr ⟨n, hexecutes, rfl, hstep⟩⟩

/-- A jump behind the last line fails on its own line even though it would not be taken. -/
theorem run_error_has_cause_of_jump_not_taken :
    let s := Source.ofText ['\n', 'J', 'P', 'O', 'S', ' ', '9']
    let i : Instruction := ⟨.jpos, .direct 9, 2⟩
    let p := ofList [⟨.pass, .absent, 1⟩, i]
    let m := Machine.start p .empty
    ofSource s = .ok p ∧ m.Fails ⟨.noSuchLine 9 2, i⟩ (m.after 1) ∧ (m.after 1).pc = 2 ∧
      FaultCause m 1 i (.noSuchLine 9 2) ∧ (m.after 1).step = .error ⟨.noSuchLine 9 2, i⟩ := by
  intro s i p m
  have hok : ofSource s = .ok p := by cbv
  have hcause : FaultCause m 1 i (.noSuchLine 9 2) :=
    .noSuchLine (by decide) rfl (by decide)
  have hexecutes : m.Executes 1 :=
    ((Machine.Executes.zero m).succ (i := ⟨.pass, .absent, 1⟩) rfl rfl).1
  obtain ⟨hblames, hfault⟩ := run_error_has_cause hok .empty
  obtain ⟨hstep, hruns⟩ := hfault 1 i _ (by decide) hcause
  obtain ⟨_, _, hpc, _⟩ := hblames _ _ (hruns hexecutes)
  exact ⟨hok, hruns hexecutes, hpc, hcause, hstep⟩

end Program

end RandomAccessMachine
