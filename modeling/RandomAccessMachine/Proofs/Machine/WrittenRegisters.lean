import RandomAccessMachine.Proofs.Machine.Attempts

/-!
# Which registers are named and written

An operand of STORE or READ names a register or an input register, directly or
through a pointer that is set. A register is set exactly if it was set at the
beginning or an instruction of the run has written it. So a register that a
run of a new machine has not used is one that none of its instructions wrote.
-/

namespace RandomAccessMachine

/-- The register or the input register that an operand of STORE or READ names. -/
inductive Operand.Names (r : Registers) : Operand → Word → Prop
  | absent : Names r .absent 0
  | direct (k : Word) : Names r (.direct k) k
  | indirect {k v : Word} (h : r.get? k = some v) : Names r (.indirect k) v
  | constant (k : Word) : Names r (.constant k) k

theorem Registers.isSet_write (r : Registers) (a v k : Word) :
    (r.write a v).isSet k = true ↔ k = a ∨ r.isSet k = true := by
  by_cases h : k = a <;> simp [isSet, h]

/-- Only the accumulator of a new machine is set. -/
theorem Registers.isSet_initial (k : Word) : initial.isSet k = true ↔ k = 0 := by
  rw [initial, isSet_write]
  simp [isSet]

namespace Machine

/-- The register that an instruction writes if it succeeds, if it writes one. -/
def writeAddress? (m : Machine) (i : Instruction) : Option Word :=
  match i.mnemonic with
  | .read | .load | .add | .sub | .half => some 0
  | .store => m.storeAddress? i.operand
  | .jump | .jpos | .jzero | .jneg | .halt | .pass => none

/-- One of the first `n` steps of the run has executed an instruction that wrote the register. -/
def Wrote (m : Machine) (n : Nat) (k : Word) : Prop :=
  ∃ j < n, ∃ i next, (m.after j).instruction? = some i ∧ (m.after j).perform i = .ok next ∧
    (m.after j).writeAddress? i = some k

variable {m next : Machine} {i : Instruction} {n : Nat}

/-- A READ looks for the input register that its operand names. -/
theorem inputIndex_eq_ok_iff {operand : Operand} {index : Word} :
    m.inputIndex operand = .ok index ↔ operand.Names m.registers index := by
  constructor
  · intro hok
    cases operand with
    | absent =>
        obtain rfl := Except.ok.inj hok
        exact .absent
    | direct k =>
        obtain rfl := Except.ok.inj hok
        exact .direct k
    | constant k =>
        obtain rfl := Except.ok.inj hok
        exact .constant k
    | indirect k =>
        cases hget : m.registers.get? k with
        | none => simp [inputIndex, hget] at hok
        | some v =>
            obtain rfl : v = index := by simpa [inputIndex, hget] using hok
            exact .indirect hget
  · intro hnames
    cases hnames with
    | indirect h => simp [inputIndex, h]
    | absent | direct | constant => rfl

theorem registers_branch (m : Machine) (taken : Bool) (line : Nat) :
    (m.branch taken line).registers = m.registers := by
  cases taken <;> rfl

/-- An instruction that succeeds writes the register that it writes and no other one. -/
theorem registers_of_perform (h : m.perform i = .ok next) :
    (∃ a v, m.writeAddress? i = some a ∧ next.registers = m.registers.write a v) ∨
      (m.writeAddress? i = none ∧ next.registers = m.registers) := by
  obtain ⟨mnemonic, operand, line⟩ := i
  rw [perform_eq_ok_iff] at h
  cases mnemonic with
  | read =>
      obtain ⟨value, _, rfl⟩ := Except.map_eq_ok_iff.mp h
      exact .inl ⟨0, value, rfl, rfl⟩
  | load | add | sub | half =>
      obtain rfl := Except.ok.inj h
      exact .inl ⟨0, _, rfl, rfl⟩
  | store =>
      obtain rfl := Except.ok.inj h
      simp only [writeAddress?, store]
      cases ha : m.storeAddress? operand with
      | some a => exact .inl ⟨a, _, rfl, rfl⟩
      | none => exact .inr ⟨rfl, rfl⟩
  | jump | jpos | jzero | jneg =>
      obtain ⟨target, _, rfl⟩ := Except.map_eq_ok_iff.mp h
      exact .inr ⟨rfl, registers_branch m _ target⟩
  | halt | pass =>
      obtain rfl := Except.ok.inj h
      exact .inr ⟨rfl, rfl⟩

/-- After an instruction, the registers are set that were set and the one that it wrote. -/
theorem isSet_of_perform (h : m.perform i = .ok next) (k : Word) :
    next.registers.isSet k = true ↔ m.registers.isSet k = true ∨ m.writeAddress? i = some k := by
  obtain ⟨a, v, ha, hnext⟩ | ⟨hnone, hnext⟩ := registers_of_perform h
  · rw [hnext, Registers.isSet_write, ha, Option.some.injEq, or_comm, eq_comm (a := k)]
  · rw [hnext, hnone]
    simp

theorem not_wrote_zero (m : Machine) (k : Word) : ¬ m.Wrote 0 k := by
  rintro ⟨j, hj, _⟩
  exact Nat.not_lt_zero j hj

theorem wrote_succ_iff {k : Word} :
    m.Wrote (n + 1) k ↔ m.Wrote n k ∨ ∃ i next, (m.after n).instruction? = some i ∧
      (m.after n).perform i = .ok next ∧ (m.after n).writeAddress? i = some k := by
  constructor
  · rintro ⟨j, hj, hwrite⟩
    obtain hj | rfl := Nat.lt_succ_iff_lt_or_eq.mp hj
    · exact .inl ⟨j, hj, hwrite⟩
    · exact .inr hwrite
  · rintro (⟨j, hj, hwrite⟩ | hwrite)
    · exact ⟨j, Nat.lt_succ_of_lt hj, hwrite⟩
    · exact ⟨n, Nat.lt_succ_self n, hwrite⟩

/-- The registers that are set after some steps are those that were set before them and those
that an instruction of these steps has written. -/
theorem isSet_after_iff (m : Machine) (n : Nat) (k : Word) :
    (m.after n).registers.isSet k = true ↔ m.registers.isSet k = true ∨ m.Wrote n k := by
  induction n with
  | zero => simp [not_wrote_zero]
  | succ n ih =>
      rw [wrote_succ_iff, ← or_assoc, ← ih]
      cases hi : (m.after n).instruction? with
      | none =>
          have hhalt : (m.after (n + 1)).registers = (m.after n).registers := by
            rw [after_succ_of_ok (step_of_instruction?_eq_none hi)]
            rfl
          simp [hhalt]
      | some i =>
          cases hp : (m.after n).perform i with
          | error e =>
              -- the instruction was not executed, so it is none of those that wrote
              have hsame : m.after (n + 1) = m.after n := by
                rw [after_succ, attempt_of_error ((step_of_instruction? hi).trans hp)]
              simp [hsame, hp]
          | ok next =>
              rw [after_succ_of_ok ((step_of_instruction? hi).trans hp), isSet_of_perform hp]
              simp [hp]

/-- In the run of a new machine, a register has not been used if it is not the accumulator and no
instruction has written it. -/
theorem get?_after_start_eq_none_iff {p : Program} {input : Input} {k : Word} :
    ((start p input).after n).registers.get? k = none ↔ k ≠ 0 ∧ ¬ (start p input).Wrote n k := by
  have hstart : (start p input).registers.isSet k = true ↔ k = 0 := Registers.isSet_initial k
  rw [← not_or, ← hstart, ← isSet_after_iff, Registers.isSet, Option.not_isSome_iff_eq_none]

end Machine

end RandomAccessMachine
