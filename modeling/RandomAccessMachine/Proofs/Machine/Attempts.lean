import Mathlib.Logic.Function.Iterate
import RandomAccessMachine.Machine.Run
import RandomAccessMachine.Proofs.Results

/-!
# Repeated attempts and finished runs

`Machine.after` repeats attempts at a step, also past a halt and past a
failure. `Machine.Executes` says that the first of them execute instructions.
`Machine.Returns` and `Machine.Fails` say how a run ends when its bound is
large enough, so they do not mention a bound: `run_of_le` says that larger
bounds change nothing. `fails_iff` says in which states a run fails.
-/

namespace RandomAccessMachine.Machine

/-- The machine after this many attempts at a step. -/
def after (m : Machine) (n : Nat) : Machine := (fun m => m.attempt.2)^[n] m

/-- The run of the machine halts with this value and ends in this state. -/
def Returns (m : Machine) (value : Word) (final : Machine) : Prop :=
  ∃ bound, m.run bound = (.returned value, final)

/-- The run of the machine fails with this error and ends in this state. -/
def Fails (m : Machine) (e : RuntimeError) (final : Machine) : Prop :=
  ∃ bound, m.run bound = (.failed e, final)

@[simp] theorem after_zero (m : Machine) : m.after 0 = m := rfl

/-- The last attempt is made by the machine that the earlier ones led to. -/
theorem after_succ (m : Machine) (n : Nat) : m.after (n + 1) = (m.after n).attempt.2 :=
  Function.iterate_succ_apply' _ n m

theorem after_succ_of_ok {m next : Machine} {n : Nat} (h : (m.after n).step = .ok next) :
    m.after (n + 1) = next := by
  rw [after_succ, attempt_of_ok h]

/-- There is no instruction where a machine has halted. -/
theorem instruction?_of_isHalted {m : Machine} (h : m.isHalted) : m.instruction? = none := by
  have hpc : m.pc = 0 := by simpa [isHalted] using h
  simp [instruction?, hpc]

/-- A place where there is an instruction is not a halt. -/
theorem not_isHalted_of_instruction? {m : Machine} {i : Instruction}
    (h : m.instruction? = some i) : ¬ m.isHalted = true := by
  intro hhalt
  simp [instruction?_of_isHalted hhalt] at h

/-- A halted machine stays halted and as it is. -/
theorem after_succ_of_isHalted {m : Machine} {n : Nat} (h : (m.after n).isHalted) :
    m.after (n + 1) = m.after n :=
  after_succ_of_ok (step_of_isHalted h)

/-- What an instruction that succeeds can do to the machine. -/
theorem effect_eq_ok {m next : Machine} {mnemonic : Mnemonic} {operand : Operand}
    (h : m.effect mnemonic operand = .ok next) :
    (∃ value, next = m.put value) ∨ (mnemonic = .store ∧ next = m.store operand) ∨
      (∃ line, m.jumpTarget operand = .ok line ∧
        next = m.branch (mnemonic.jumpsAt m.accumulator) line) ∨
      (mnemonic = .halt ∧ next = m.halt) ∨ (mnemonic = .pass ∧ next = m.advance) := by
  cases mnemonic with
  | read =>
      obtain ⟨value, _, rfl⟩ := Except.map_eq_ok_iff.mp h
      exact .inl ⟨value, rfl⟩
  | jump | jpos | jzero | jneg =>
      obtain ⟨line, htarget, rfl⟩ := Except.map_eq_ok_iff.mp h
      exact .inr (.inr (.inl ⟨line, htarget, rfl⟩))
  | store => exact .inr (.inl ⟨rfl, (Except.ok.inj h).symm⟩)
  | load | add | sub | half => exact .inl ⟨_, (Except.ok.inj h).symm⟩
  | halt => exact .inr (.inr (.inr (.inl ⟨rfl, (Except.ok.inj h).symm⟩)))
  | pass => exact .inr (.inr (.inr (.inr ⟨rfl, (Except.ok.inj h).symm⟩)))

/-- No instruction changes the program or the input. -/
theorem program_input_of_effect {m next : Machine} {mnemonic : Mnemonic} {operand : Operand}
    (h : m.effect mnemonic operand = .ok next) :
    next.program = m.program ∧ next.input = m.input := by
  obtain ⟨value, rfl⟩ | ⟨_, rfl⟩ | ⟨line, _, rfl⟩ | ⟨_, rfl⟩ | ⟨_, rfl⟩ := effect_eq_ok h
  · exact ⟨rfl, rfl⟩
  · unfold store
    split <;> exact ⟨rfl, rfl⟩
  · unfold branch
    split <;> exact ⟨rfl, rfl⟩
  · exact ⟨rfl, rfl⟩
  · exact ⟨rfl, rfl⟩

/-- An instruction succeeds exactly with its effect. -/
theorem perform_eq_ok_iff {m next : Machine} {i : Instruction} :
    m.perform i = .ok next ↔ m.effect i.mnemonic i.operand = .ok next :=
  Except.mapError_eq_ok_iff

/-- An instruction fails exactly with the fault of its effect. -/
theorem perform_eq_error_iff {m : Machine} {i : Instruction} {e : RuntimeError} :
    m.perform i = .error e ↔
      i = e.instruction ∧ m.effect i.mnemonic i.operand = .error e.fault := by
  rw [perform, Except.mapError_eq_error_iff]
  constructor
  · intro hgiven
    obtain ⟨fault, heffect, rfl⟩ := hgiven
    exact ⟨rfl, heffect⟩
  · intro hgiven
    obtain ⟨rfl, heffect⟩ := hgiven
    exact ⟨e.fault, heffect, rfl⟩

theorem step_eq_error_iff {m : Machine} {e : RuntimeError} :
    m.step = .error e ↔ m.instruction? = some e.instruction ∧
      m.effect e.instruction.mnemonic e.instruction.operand = .error e.fault := by
  cases hi : m.instruction? with
  | none => simp [step_of_instruction?_eq_none hi]
  | some i =>
      rw [step_of_instruction? hi, perform_eq_error_iff, Option.some.injEq]
      exact and_congr_right fun heq => heq ▸ Iff.rfl

/-- What an attempt comes to: a halt where there is no instruction, an instruction that fails and
leaves the machine as it is, or one that succeeds. -/
theorem attempt_cases (m : Machine) :
    (m.instruction? = none ∧ m.attempt = (none, m.halt)) ∨
      (∃ e, m.step = .error e ∧ m.attempt = (some e, m)) ∨
      ∃ i next, m.instruction? = some i ∧ m.perform i = .ok next ∧ m.attempt = (none, next) := by
  cases hi : m.instruction? with
  | none => exact .inl ⟨rfl, attempt_of_ok (step_of_instruction?_eq_none hi)⟩
  | some i =>
      have hs := step_of_instruction? hi
      cases hp : m.perform i with
      | error e => exact .inr (.inl ⟨e, hs.trans hp, attempt_of_error (hs.trans hp)⟩)
      | ok next => exact .inr (.inr ⟨i, next, rfl, hp, attempt_of_ok (hs.trans hp)⟩)

theorem attempt_program_input (m : Machine) :
    m.attempt.2.program = m.program ∧ m.attempt.2.input = m.input := by
  obtain ⟨_, h⟩ | ⟨e, _, h⟩ | ⟨i, next, _, hp, h⟩ := m.attempt_cases
  · rw [h]
    exact ⟨rfl, rfl⟩
  · rw [h]
    exact ⟨rfl, rfl⟩
  · rw [h]
    exact program_input_of_effect (perform_eq_ok_iff.mp hp)

theorem program_after (m : Machine) (n : Nat) : (m.after n).program = m.program := by
  induction n with
  | zero => rfl
  | succ n ih => rw [after_succ, (attempt_program_input _).1, ih]

theorem input_after (m : Machine) (n : Nat) : (m.after n).input = m.input := by
  induction n with
  | zero => rfl
  | succ n ih => rw [after_succ, (attempt_program_input _).2, ih]

/-- The first steps of the run of a machine execute instructions, and all of them succeed. -/
def Executes (m : Machine) (n : Nat) : Prop :=
  ∀ k < n, ∃ i, (m.after k).instruction? = some i ∧ (m.after k).perform i = .ok (m.after (k + 1))

namespace Executes

variable {m : Machine} {n : Nat}

theorem zero (m : Machine) : m.Executes 0 := fun k hk => absurd hk (Nat.not_lt_zero k)

theorem of_le {k : Nat} (h : m.Executes n) (hk : k ≤ n) : m.Executes k :=
  fun j hj => h j (Nat.lt_of_lt_of_le hj hk)

theorem succ {i : Instruction} {next : Machine} (h : m.Executes n)
    (hi : (m.after n).instruction? = some i) (hp : (m.after n).perform i = .ok next) :
    m.Executes (n + 1) ∧ m.after (n + 1) = next := by
  have hnext : m.after (n + 1) = next := after_succ_of_ok ((step_of_instruction? hi).trans hp)
  refine ⟨?_, hnext⟩
  intro k hk
  obtain hk | rfl := Nat.lt_succ_iff_lt_or_eq.mp hk
  · exact h k hk
  · exact ⟨i, hi, hnext ▸ hp⟩

/-- Steps do not go on past a place without an instruction. -/
theorem le_of_instruction?_eq_none {k : Nat} (h : m.Executes n)
    (hk : (m.after k).instruction? = none) : n ≤ k := by
  by_contra hlt
  obtain ⟨i, hi, _⟩ := h k (by omega)
  simp [hk] at hi

/-- Steps do not go on past an instruction that fails. -/
theorem le_of_perform_eq_error {k : Nat} {i : Instruction} {e : RuntimeError}
    (h : m.Executes n) (hi : (m.after k).instruction? = some i)
    (hp : (m.after k).perform i = .error e) : n ≤ k := by
  by_contra hlt
  obtain ⟨j, hj, hok⟩ := h k (by omega)
  obtain rfl : j = i := Option.some.inj (hj.symm.trans hi)
  simp [hp] at hok

/-- The run of a machine goes through the states that its steps lead to. -/
theorem run_add (h : m.Executes n) (bound : Nat) :
    m.run (n + bound) = (m.after n).run bound := by
  induction n generalizing bound with
  | zero => rw [Nat.zero_add, after_zero]
  | succ n ih =>
      obtain ⟨i, hi, hp⟩ := h n (Nat.lt_succ_self n)
      have hs : (m.after n).step = .ok (m.after (n + 1)) := (step_of_instruction? hi).trans hp
      calc m.run (n + 1 + bound) = m.run (n + (bound + 1)) := by rw [Nat.add_assoc, Nat.add_comm 1]
        _ = (m.after n).run (bound + 1) := ih (h.of_le (Nat.le_succ n)) (bound + 1)
        _ = (m.after (n + 1)).run bound := run_succ_of_ok (not_isHalted_of_instruction? hi) hs bound

end Executes

section Returns

variable {m next final : Machine} {value : Word}

/-- A run that has ended within a bound does not go on within a larger one. -/
theorem run_of_le {bound more : Nat} (h : bound ≤ more) (hne : (m.run bound).1 ≠ .unfinished) :
    m.run more = m.run bound := by
  induction bound generalizing m more with
  | zero =>
      by_cases hh : m.isHalted = true
      · rw [run_of_isHalted hh, run_of_isHalted hh]
      · rw [run_zero_of_not_isHalted hh] at hne
        exact absurd rfl hne
  | succ bound ih =>
      obtain ⟨more, rfl⟩ : ∃ k, more = k + 1 := ⟨more - 1, by omega⟩
      by_cases hh : m.isHalted = true
      · rw [run_of_isHalted hh, run_of_isHalted hh]
      · cases hs : m.step with
        | error e => rw [run_succ_of_error hh hs, run_succ_of_error hh hs]
        | ok next =>
            rw [run_succ_of_ok hh hs] at hne ⊢
            rw [run_succ_of_ok hh hs]
            exact ih (Nat.le_of_succ_le_succ h) hne

/-- A run that halts does not fail. -/
theorem Returns.not_fails {e : RuntimeError} {other : Machine} (h : m.Returns value final) :
    ¬ m.Fails e other := by
  obtain ⟨bound, hrun⟩ := h
  rintro ⟨bound', hrun'⟩
  have hreturned : (m.run bound).1 ≠ .unfinished := by simp [hrun]
  have hfailed : (m.run bound').1 ≠ .unfinished := by simp [hrun']
  have hsame := (run_of_le (Nat.le_max_left bound bound') hreturned).symm.trans
    (run_of_le (Nat.le_max_right bound bound') hfailed)
  simp [hrun, hrun'] at hsame

/-- A run that ends takes a step where the machine has not halted yet. -/
theorem exists_eq_succ_of_run {bound : Nat} (hh : ¬ m.isHalted)
    (h : (m.run bound).1 ≠ .unfinished) : ∃ k, bound = k + 1 := by
  cases bound with
  | zero =>
      rw [run_zero_of_not_isHalted hh] at h
      exact absurd rfl h
  | succ k => exact ⟨k, rfl⟩

theorem Returns.of_isHalted (hh : m.isHalted = true) : m.Returns m.accumulator m :=
  ⟨0, run_of_isHalted hh 0⟩

/-- A step in front of a run. -/
theorem Returns.of_step (hh : ¬ m.isHalted = true) (hs : m.step = .ok next)
    (h : next.Returns value final) : m.Returns value final := by
  obtain ⟨bound, hrun⟩ := h
  exact ⟨bound + 1, (run_succ_of_ok hh hs bound).trans hrun⟩

/-- There is no instruction where the machine has halted and behind the last line. -/
theorem instruction?_eq_none_iff :
    m.instruction? = none ↔ m.pc = 0 ∨ m.program.lineCount < m.pc := by
  rw [instruction?, ← Option.not_isSome_iff_eq_none, Program.get?_isSome_iff]
  omega

/-- From a place without an instruction the machine halts with its next step. -/
theorem returns_of_instruction?_eq_none (h : m.instruction? = none) :
    m.Returns m.accumulator m.halt := by
  by_cases hh : m.isHalted = true
  · have hstay : m.halt = m :=
      Except.ok.inj ((step_of_instruction?_eq_none h).symm.trans (step_of_isHalted hh))
    rw [hstay]
    exact .of_isHalted hh
  · exact .of_step hh (step_of_instruction?_eq_none h) (.of_isHalted rfl)

end Returns

section Failures

variable {m final : Machine} {e : RuntimeError} {n : Nat}

/-- A run that goes on from one of its states and fails does so after some more steps. -/
theorem exists_of_run_eq_failed {bound : Nat} (hn : m.Executes n)
    (h : (m.after n).run bound = (.failed e, final)) :
    ∃ k, m.Executes k ∧ final = m.after k ∧ final.step = .error e := by
  induction bound generalizing n with
  | zero =>
      by_cases hhalt : (m.after n).isHalted = true
      · simp [run_of_isHalted hhalt] at h
      · simp [run_zero_of_not_isHalted hhalt] at h
  | succ bound ih =>
      by_cases hhalt : (m.after n).isHalted = true
      · simp [run_of_isHalted hhalt] at h
      · cases hs : (m.after n).step with
        | error e' =>
            rw [run_succ_of_error hhalt hs] at h
            cases h
            exact ⟨n, hn, rfl, hs⟩
        | ok next =>
            rw [run_succ_of_ok hhalt hs] at h
            cases hi : (m.after n).instruction? with
            | none =>
                -- the machine halts in silence, and a halted machine does not fail
                obtain rfl := Except.ok.inj ((step_of_instruction?_eq_none hi).symm.trans hs)
                simp [run_of_isHalted (m := (m.after n).halt) rfl] at h
            | some i =>
                obtain ⟨hsucc, hnext⟩ := hn.succ hi ((step_of_instruction? hi).symm.trans hs)
                exact ih hsucc (hnext ▸ h)

/-- A run fails exactly in the first state from which no step can be made. -/
theorem fails_iff :
    m.Fails e final ↔ ∃ n, m.Executes n ∧ final = m.after n ∧ final.step = .error e := by
  constructor
  · intro h
    obtain ⟨bound, hrun⟩ := h
    exact exists_of_run_eq_failed (Executes.zero m) hrun
  · intro h
    obtain ⟨n, hn, rfl, hs⟩ := h
    have hhalt := not_isHalted_of_instruction? (step_eq_error_iff.mp hs).1
    exact ⟨n + 1, (hn.run_add 1).trans (run_succ_of_error hhalt hs 0)⟩

end Failures

end RandomAccessMachine.Machine
