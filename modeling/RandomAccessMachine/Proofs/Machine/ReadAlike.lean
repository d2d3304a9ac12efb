import RandomAccessMachine.Proofs.Machine.Attempts

/-!
# Unset registers and registers that hold 0

Two machines are alike when they differ at most in which of their zeros have
been written. Such machines make the same steps for ever. Only the words of
one error tell them apart: a pointer that was never written in one machine is
a pointer to input register 0 in the other.

## Implementation notes

STORE through a pointer never written does nothing. In the other machine the
pointer is 0, and STORE writes the accumulator onto itself, so the registers
still read alike although another one of them is set now.
-/

namespace RandomAccessMachine

/-- Register files that give the same value for every address. -/
def Registers.ReadAlike (r s : Registers) : Prop := ∀ address, r.read address = s.read address

/-- Machines that differ at most in which of their zeros have been written. -/
structure Machine.Alike (m₁ m₂ : Machine) : Prop where
  pc : m₁.pc = m₂.pc
  program : m₁.program = m₂.program
  input : m₁.input = m₂.input
  registers : m₁.registers.ReadAlike m₂.registers

/-- Faults at an operand that are equal, or of which one blames the pointer that was never
written and the other the input register 0 that it points to. -/
inductive RuntimeFault.Alike (size : Nat) (operand : Operand) : RuntimeFault → RuntimeFault → Prop
  | same (fault : RuntimeFault) : Alike size operand fault fault
  | unusedLeft {address : Word} (h : operand = .indirect address) :
      Alike size operand (.unusedPointer address) (.noInputRegister 0 size)
  | unusedRight {address : Word} (h : operand = .indirect address) :
      Alike size operand (.noInputRegister 0 size) (.unusedPointer address)

/-- Errors of the same instruction whose faults are alike. -/
structure RuntimeError.Alike (size : Nat) (e₁ e₂ : RuntimeError) : Prop where
  instruction : e₁.instruction = e₂.instruction
  fault : e₁.fault.Alike size e₁.instruction.operand e₂.fault

/-- Results that both are errors related by `R`, or both are values related by `S`. -/
inductive ResultsAlike {ε α : Type} (R : ε → ε → Prop) (S : α → α → Prop) :
    Except ε α → Except ε α → Prop
  | error {e₁ e₂ : ε} (h : R e₁ e₂) : ResultsAlike R S (.error e₁) (.error e₂)
  | ok {a₁ a₂ : α} (h : S a₁ a₂) : ResultsAlike R S (.ok a₁) (.ok a₂)

namespace ResultsAlike

variable {ε δ α β : Type} {R : ε → ε → Prop} {S : α → α → Prop} {r₁ r₂ : Except ε α}

/-- The results themselves: two related errors or two related values. -/
theorem error_or_ok (h : ResultsAlike R S r₁ r₂) :
    (∃ e₁ e₂, R e₁ e₂ ∧ r₁ = .error e₁ ∧ r₂ = .error e₂) ∨
      ∃ a₁ a₂, S a₁ a₂ ∧ r₁ = .ok a₁ ∧ r₂ = .ok a₂ := by
  cases h with
  | error he => exact .inl ⟨_, _, he, rfl, rfl⟩
  | ok ha => exact .inr ⟨_, _, ha, rfl, rfl⟩

theorem map {T : β → β → Prop} {f g : α → β} (h : ResultsAlike R S r₁ r₂)
    (hfg : ∀ a b, S a b → T (f a) (g b)) : ResultsAlike R T (r₁.map f) (r₂.map g) := by
  cases h with
  | error he => exact .error he
  | ok ha => exact .ok (hfg _ _ ha)

theorem mapError {T : δ → δ → Prop} {f : ε → δ} (h : ResultsAlike R S r₁ r₂)
    (hf : ∀ a b, R a b → T (f a) (f b)) :
    ResultsAlike T S (r₁.mapError f) (r₂.mapError f) := by
  cases h with
  | error he => exact .error (hf _ _ he)
  | ok ha => exact .ok ha

theorem refl (hR : ∀ e, R e e) (hS : ∀ a, S a a) (r : Except ε α) : ResultsAlike R S r r := by
  cases r with
  | error e => exact .error (hR e)
  | ok a => exact .ok (hS a)

end ResultsAlike

namespace Registers.ReadAlike

variable {r s : Registers}

/-- Registers that read alike still do after the same value has been written to each. -/
theorem write (h : r.ReadAlike s) (address value : Word) :
    (r.write address value).ReadAlike (s.write address value) := by
  intro b
  rw [read_write, read_write, h b]

/-- The accumulator may be written onto itself. -/
theorem write_accumulator_right (h : r.ReadAlike s) :
    r.ReadAlike (s.write 0 s.accumulator) := by
  intro b
  rw [read_write]
  split
  · rename_i hb
    rw [hb]
    exact h 0
  · exact h b

theorem symm (h : r.ReadAlike s) : s.ReadAlike r := fun address => (h address).symm

/-- Where a register is set in one file only, it holds 0. -/
theorem eq_zero_of_get? (h : r.ReadAlike s) {address value : Word}
    (hr : r.get? address = none) (hs : s.get? address = some value) : value = 0 := by
  have hread := h address
  simp only [read, hr, hs, Option.getD_none, Option.getD_some] at hread
  exact hread.symm

/-- Where a register is set in both files, it holds the same value. -/
theorem eq_of_get? (h : r.ReadAlike s) {address v w : Word}
    (hr : r.get? address = some v) (hs : s.get? address = some w) : v = w := by
  have hread := h address
  simpa only [read, hr, hs, Option.getD_some] using hread

end Registers.ReadAlike

namespace Machine.Alike

variable {m₁ m₂ : Machine}

theorem symm (h : m₁.Alike m₂) : m₂.Alike m₁ :=
  ⟨h.pc.symm, h.program.symm, h.input.symm, h.registers.symm⟩

theorem accumulator_eq (h : m₁.Alike m₂) : m₁.accumulator = m₂.accumulator := h.registers 0

theorem isHalted_eq (h : m₁.Alike m₂) : m₁.isHalted = m₂.isHalted := by
  simp only [isHalted, h.pc]

theorem instruction?_eq (h : m₁.Alike m₂) : m₁.instruction? = m₂.instruction? := by
  simp only [instruction?, h.program, h.pc]

theorem fetch_eq (h : m₁.Alike m₂) (operand : Operand) : m₁.fetch operand = m₂.fetch operand := by
  cases operand with
  | absent => rfl
  | direct address => exact h.registers address
  | indirect address =>
      simp only [fetch, Registers.readIndirect, h.registers address]
      exact h.registers _
  | constant value => rfl

theorem jumpTarget_eq (h : m₁.Alike m₂) (operand : Operand) :
    m₁.jumpTarget operand = m₂.jumpTarget operand := by
  simp only [jumpTarget, h.program]

theorem advance (h : m₁.Alike m₂) : m₁.advance.Alike m₂.advance :=
  ⟨congrArg (· + 1) h.pc, h.program, h.input, h.registers⟩

theorem halt (h : m₁.Alike m₂) : m₁.halt.Alike m₂.halt :=
  ⟨rfl, h.program, h.input, h.registers⟩

theorem put (h : m₁.Alike m₂) (value : Word) : (m₁.put value).Alike (m₂.put value) :=
  ⟨congrArg (· + 1) h.pc, h.program, h.input, h.registers.write 0 value⟩

theorem branch (h : m₁.Alike m₂) (taken : Bool) (line : Nat) :
    (m₁.branch taken line).Alike (m₂.branch taken line) := by
  cases taken with
  | false => exact h.advance
  | true => exact ⟨rfl, h.program, h.input, h.registers⟩

/-- The machine at the next line with the accumulator copied to a register. -/
theorem write (h : m₁.Alike m₂) (address value : Word) :
    ({ m₁ with registers := m₁.registers.write address value }).Alike
      { m₂ with registers := m₂.registers.write address value } :=
  ⟨h.pc, h.program, h.input, h.registers.write address value⟩

/-- A store that only the second machine makes goes to the accumulator, which keeps its value. -/
theorem store_of_none (h : m₁.Alike m₂) {operand : Operand} {address : Word}
    (h₁ : m₁.storeAddress? operand = none) (h₂ : m₂.storeAddress? operand = some address) :
    (m₁.store operand).Alike (m₂.store operand) := by
  cases operand with
  | absent | direct | constant => simp [storeAddress?] at h₁
  | indirect pointer =>
      obtain rfl := h.registers.eq_zero_of_get? h₁ h₂
      simp only [store, h₁, h₂]
      exact advance ⟨h.pc, h.program, h.input, h.registers.write_accumulator_right⟩

theorem storeAddress?_eq (h : m₁.Alike m₂) {operand : Operand} {a b : Word}
    (h₁ : m₁.storeAddress? operand = some a) (h₂ : m₂.storeAddress? operand = some b) :
    a = b := by
  cases operand with
  | absent | direct | constant =>
      simp only [storeAddress?, Option.some.injEq] at h₁ h₂
      exact h₁.symm.trans h₂
  | indirect pointer => exact h.registers.eq_of_get? h₁ h₂

theorem store (h : m₁.Alike m₂) (operand : Operand) :
    (m₁.store operand).Alike (m₂.store operand) := by
  cases h₁ : m₁.storeAddress? operand with
  | none =>
      cases h₂ : m₂.storeAddress? operand with
      | none =>
          simp only [Machine.store, h₁, h₂]
          exact h.advance
      | some b => exact h.store_of_none h₁ h₂
  | some a =>
      cases h₂ : m₂.storeAddress? operand with
      | none => exact (h.symm.store_of_none h₂ h₁).symm
      | some b =>
          obtain rfl := h.storeAddress?_eq h₁ h₂
          simp only [Machine.store, h₁, h₂, h.accumulator_eq]
          exact (h.write a m₂.accumulator).advance

/-- A pointer that is set in the second machine only leads READ to input register 0. -/
theorem inputValue_of_none (h : m₁.Alike m₂) {pointer index : Word}
    (h₁ : m₁.registers.get? pointer = none) (h₂ : m₂.registers.get? pointer = some index) :
    m₁.inputValue (.indirect pointer) = .error (.unusedPointer pointer) ∧
      m₂.inputValue (.indirect pointer) = .error (.noInputRegister 0 m₁.input.size) := by
  obtain rfl := h.registers.eq_zero_of_get? h₁ h₂
  constructor
  · simp [inputValue, inputIndex, h₁]
  · have hnone : m₂.input.get? 0 = none := rfl
    simp [inputValue, inputIndex, h₂, hnone, h.input]

theorem inputValue_eq (h : m₁.Alike m₂) {operand : Operand}
    (hi : m₁.inputIndex operand = m₂.inputIndex operand) :
    m₁.inputValue operand = m₂.inputValue operand := by
  simp only [inputValue, hi, h.input]

/-- READ finds the same value in both machines, or fails alike. -/
theorem inputValue (h : m₁.Alike m₂) (operand : Operand) :
    ResultsAlike (RuntimeFault.Alike m₁.input.size operand) Eq
      (m₁.inputValue operand) (m₂.inputValue operand) := by
  have hrefl (result : Except RuntimeFault Word) :
      ResultsAlike (RuntimeFault.Alike m₁.input.size operand) Eq result result :=
    .refl .same (fun _ => rfl) result
  cases operand with
  | absent | direct | constant =>
      rw [h.inputValue_eq rfl]
      exact hrefl _
  | indirect pointer =>
      cases h₁ : m₁.registers.get? pointer with
      | none =>
          cases h₂ : m₂.registers.get? pointer with
          | none =>
              rw [h.inputValue_eq (by simp only [inputIndex, h₁, h₂])]
              exact hrefl _
          | some index =>
              obtain ⟨e₁, e₂⟩ := h.inputValue_of_none h₁ h₂
              rw [e₁, e₂]
              exact .error (.unusedLeft rfl)
      | some index =>
          cases h₂ : m₂.registers.get? pointer with
          | none =>
              obtain ⟨e₂, e₁⟩ := h.symm.inputValue_of_none h₂ h₁
              rw [e₁, e₂, h.input]
              exact .error (.unusedRight rfl)
          | some index' =>
              obtain rfl := h.registers.eq_of_get? h₁ h₂
              rw [h.inputValue_eq (by simp only [inputIndex, h₁, h₂])]
              exact hrefl _

/-- Every instruction takes machines that are alike to machines that are alike, or fails in both
with faults that are alike. -/
theorem effect (h : m₁.Alike m₂) (mnemonic : Mnemonic) (operand : Operand) :
    ResultsAlike (RuntimeFault.Alike m₁.input.size operand) Machine.Alike
      (m₁.effect mnemonic operand) (m₂.effect mnemonic operand) := by
  have hjump (taken : Bool) :
      ResultsAlike (RuntimeFault.Alike m₁.input.size operand) Machine.Alike
        ((m₁.jumpTarget operand).map (m₁.branch taken))
        ((m₂.jumpTarget operand).map (m₂.branch taken)) := by
    rw [h.jumpTarget_eq]
    refine (ResultsAlike.refl .same (fun _ => rfl) _).map (S := Eq) fun line _ hline => ?_
    exact hline ▸ h.branch taken line
  cases mnemonic with
  | read => exact (h.inputValue operand).map fun value _ hvalue => hvalue ▸ h.put value
  | store => exact .ok (h.store operand)
  | load => exact .ok (h.fetch_eq operand ▸ h.put _)
  | add =>
      simp only [Machine.effect, h.accumulator_eq, h.fetch_eq operand]
      exact .ok (h.put _)
  | sub =>
      simp only [Machine.effect, h.accumulator_eq, h.fetch_eq operand]
      exact .ok (h.put _)
  | half =>
      simp only [Machine.effect, h.accumulator_eq]
      exact .ok (h.put _)
  | jump | jpos | jzero | jneg =>
      simp only [Machine.effect, h.accumulator_eq]
      exact hjump _
  | halt => exact .ok h.halt
  | pass => exact .ok h.advance

theorem step (h : m₁.Alike m₂) :
    ResultsAlike (RuntimeError.Alike m₁.input.size) Machine.Alike m₁.step m₂.step := by
  cases hi : m₁.instruction? with
  | none =>
      rw [step_of_instruction?_eq_none hi,
        step_of_instruction?_eq_none (h.instruction?_eq ▸ hi)]
      exact .ok h.halt
  | some i =>
      rw [step_of_instruction? hi, step_of_instruction? (h.instruction?_eq ▸ hi)]
      exact (h.effect i.mnemonic i.operand).mapError fun _ _ hfault => ⟨rfl, hfault⟩

/-- One attempt at a step succeeds in both machines or fails in both, and leaves them alike. -/
theorem attempt (h : m₁.Alike m₂) :
    Option.Rel (RuntimeError.Alike m₁.input.size) m₁.attempt.1 m₂.attempt.1 ∧
      m₁.attempt.2.Alike m₂.attempt.2 := by
  obtain ⟨e₁, e₂, he, h₁, h₂⟩ | ⟨next₁, next₂, hnext, h₁, h₂⟩ := h.step.error_or_ok
  · rw [attempt_of_error h₁, attempt_of_error h₂]
    exact ⟨.some he, h⟩
  · rw [attempt_of_ok h₁, attempt_of_ok h₂]
    exact ⟨.none, hnext⟩

theorem after (h : m₁.Alike m₂) (n : Nat) : (m₁.after n).Alike (m₂.after n) := by
  induction n with
  | zero => exact h
  | succ n ih =>
      rw [after_succ, after_succ]
      exact ih.attempt.2

theorem run_of_isHalted (h : m₁.Alike m₂) (hh : m₁.isHalted) (bound : Nat) :
    (m₂.run bound).1 = (m₁.run bound).1 := by
  rw [Machine.run_of_isHalted hh, Machine.run_of_isHalted (h.isHalted_eq ▸ hh), h.accumulator_eq]

/-- A run that halts within a bound halts within it in the other machine, with the same value. -/
theorem run_of_returned (h : m₁.Alike m₂) {bound : Nat} {value : Word}
    (hr : (m₁.run bound).1 = .returned value) : (m₂.run bound).1 = .returned value := by
  induction bound generalizing m₁ m₂ with
  | zero =>
      by_cases hh : m₁.isHalted
      · exact (h.run_of_isHalted hh 0).trans hr
      · simp [run_zero_of_not_isHalted hh] at hr
  | succ bound ih =>
      by_cases hh : m₁.isHalted
      · exact (h.run_of_isHalted hh (bound + 1)).trans hr
      · obtain ⟨e₁, e₂, _, h₁, _⟩ | ⟨next₁, next₂, hnext, h₁, h₂⟩ := h.step.error_or_ok
        · simp [run_succ_of_error hh h₁] at hr
        · rw [run_succ_of_ok hh h₁] at hr
          rw [run_succ_of_ok (h.isHalted_eq ▸ hh) h₂]
          exact ih hnext hr

theorem returns (h : m₁.Alike m₂) {value : Word} :
    (∃ final, m₁.Returns value final) → ∃ final, m₂.Returns value final := by
  intro hgiven
  obtain ⟨final, bound, hr⟩ := hgiven
  have hvalue : (m₂.run bound).1 = .returned value := h.run_of_returned (by rw [hr])
  exact ⟨(m₂.run bound).2, bound, Prod.ext hvalue rfl⟩

end Machine.Alike

/-- Machines that are alike make every attempt alike for ever, and their runs halt with the same
values: no program tells a register never written from one that holds a written 0, except by the
words of an error. -/
theorem Machine.after_alike_of_alike {m₁ m₂ : Machine} (h : m₁.Alike m₂) :
    (∀ n, (m₁.after n).Alike (m₂.after n) ∧
      Option.Rel (RuntimeError.Alike m₁.input.size)
        (m₁.after n).attempt.1 (m₂.after n).attempt.1) ∧
    ∀ value, (∃ final, m₁.Returns value final) ↔ ∃ final, m₂.Returns value final := by
  constructor
  · intro n
    refine ⟨h.after n, ?_⟩
    have hn := (h.after n).attempt.1
    rwa [input_after] at hn
  · intro value
    exact ⟨h.returns, h.symm.returns⟩

/-- READ through a pointer that is unset in one machine and 0 in the other. -/
theorem Machine.after_alike_of_unset_pointer :
    let m₁ : Machine := .start (.ofList [⟨.read, .indirect 5, 1⟩]) ⟨[7]⟩
    let m₂ : Machine := { m₁ with registers := Registers.empty.write 5 0 }
    m₁.Alike m₂ ∧ (m₁.after 2).Alike (m₂.after 2) ∧
      m₁.attempt.1 = some ⟨.unusedPointer 5, ⟨.read, .indirect 5, 1⟩⟩ ∧
      m₂.attempt.1 = some ⟨.noInputRegister 0 1, ⟨.read, .indirect 5, 1⟩⟩ := by
  intro m₁ m₂
  have hread : m₁.registers.ReadAlike m₂.registers := by
    intro address
    simp only [m₁, m₂, start, Registers.initial, Registers.read_write]
    split <;> split <;> rfl
  have h : m₁.Alike m₂ := ⟨rfl, rfl, rfl, hread⟩
  exact ⟨h, ((after_alike_of_alike h).1 2).1, by decide, by decide⟩

end RandomAccessMachine
