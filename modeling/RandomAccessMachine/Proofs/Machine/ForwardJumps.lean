import RandomAccessMachine.Proofs.Machine.Bounds
import RandomAccessMachine.Proofs.Machine.RunFailure
import RandomAccessMachine.Proofs.Machine.Stepping

/-!
# Programs without backward jumps

If every jump of a program leads forward, halts the machine or fails, then the
machine stops from wherever it begins, and it takes at most one step more than
the program has lines.

## Implementation notes

Every step either halts the machine or leads to a later line, and the place
behind the last line is the last one that it can come to. `stepsLeft` counts
the steps up to there and the one that halts.
-/

namespace RandomAccessMachine

/-- Every jump names a later line, the halt, or a line that the program does not have. -/
def Program.JumpsForward (p : Program) : Prop :=
  ∀ line i, p.get? line = some i → i.mnemonic ∈ Mnemonic.jumps →
    i.operand.number.toInt = 0 ∨ line < i.operand.number.toInt ∨
      i.operand.number.toInt < 0 ∨ p.lineCount < i.operand.number.toInt

instance (p : Program) : Decidable p.JumpsForward :=
  decidable_of_iff
    (∀ line < p.lineCount + 1, ∀ i ∈ p.get? line, i.mnemonic ∈ Mnemonic.jumps →
      i.operand.number.toInt = 0 ∨ line < i.operand.number.toInt ∨
        i.operand.number.toInt < 0 ∨ p.lineCount < i.operand.number.toInt) <| by
    constructor
    · intro h line i hi
      have hlast := (Program.get?_isSome_iff.mp (Option.isSome_of_eq_some hi)).2
      exact h line (Nat.lt_succ_of_le hlast) i hi
    · intro h line _ i hi
      exact h line i hi

theorem Mnemonic.mem_jumps_of_jumpsAt {mnemonic : Mnemonic} {value : Word}
    (h : mnemonic.jumpsAt value = true) : mnemonic ∈ Mnemonic.jumps := by
  cases mnemonic with
  | jump | jpos | jzero | jneg => simp [Mnemonic.jumps]
  | read | store | load | add | sub | half | halt | pass => cases h

namespace Machine

variable {m next : Machine} {n : Nat} {i : Instruction} {operand : Operand}

/-- The machine halts behind at most this many steps, or one of these steps fails. -/
def StopsWithin (m : Machine) (n : Nat) : Prop :=
  (∃ k ≤ n, m.Succeeds k ∧ (m.after k).isHalted = true) ∨
    ∃ k < n, m.Succeeds k ∧ ∃ e, (m.after k).step = .error e

theorem stopsWithin_of_isHalted (h : m.isHalted = true) (n : Nat) : m.StopsWithin n :=
  .inl ⟨0, Nat.zero_le n, .zero m, h⟩

theorem stopsWithin_succ_of_error {e : RuntimeError} (hs : m.step = .error e) (n : Nat) :
    m.StopsWithin (n + 1) :=
  .inr ⟨0, Nat.succ_pos n, .zero m, e, hs⟩

theorem StopsWithin.of_step (hs : m.step = .ok next) (h : next.StopsWithin n) :
    m.StopsWithin (n + 1) := by
  obtain ⟨k, hk, hsteps, hhalt⟩ | ⟨k, hk, hsteps, e, herror⟩ := h
  · refine .inl ⟨k + 1, Nat.succ_le_succ hk, hsteps.of_step hs, ?_⟩
    rwa [after_succ_of_step hs]
  · refine .inr ⟨k + 1, Nat.succ_lt_succ hk, hsteps.of_step hs, e, ?_⟩
    rwa [after_succ_of_step hs]

/-- The run of a machine that stops within its bound ends. -/
theorem StopsWithin.run (h : m.StopsWithin n) :
    (∃ value final, m.run n = (.returned value, final)) ∨
      ∃ e final, m.run n = (.failed e, final) := by
  obtain ⟨k, hk, hsteps, hhalt⟩ | ⟨k, hk, hsteps, e, herror⟩ := h
  · obtain ⟨rest, rfl⟩ := Nat.exists_eq_add_of_le hk
    exact .inl ⟨_, _, (hsteps.run_add rest).trans (run_of_isHalted hhalt rest)⟩
  · obtain ⟨rest, rfl⟩ := Nat.exists_eq_add_of_lt hk
    have hh : ¬ (m.after k).isHalted = true :=
      not_isHalted_of_instruction? (step_eq_error_iff.mp herror).1
    exact .inr ⟨_, _, (hsteps.run_add (rest + 1)).trans (run_succ_of_error hh herror rest)⟩

/-- The line that a jump goes to is the one that its operand names. -/
theorem toInt_of_jumpTarget {line : Nat} (h : m.jumpTarget operand = .ok line) :
    operand.number.toInt = line := by
  unfold jumpTarget at h
  cases hnumber : Word.toNat? operand.number with
  | none => simp [hnumber] at h
  | some target =>
      simp only [hnumber] at h
      split at h
      · obtain rfl := Except.ok.inj h
        exact Word.toNat?_eq_some_iff.mp hnumber
      · cases h

/-- If jumps lead forward, an instruction halts the machine or leads to a later line. -/
theorem pc_lt_of_effect (h : m.program.JumpsForward) (hi : m.instruction? = some i)
    (heffect : m.effect i.mnemonic i.operand = .ok next) : next.pc = 0 ∨ m.pc < next.pc := by
  obtain ⟨value, rfl⟩ | ⟨_, rfl⟩ | ⟨line, hline, rfl⟩ | ⟨_, rfl⟩ | ⟨_, rfl⟩ := effect_eq_ok heffect
  · exact .inr (Nat.lt_succ_self _)
  · rw [pc_store]
    exact .inr (Nat.lt_succ_self _)
  · cases htaken : i.mnemonic.jumpsAt m.accumulator with
    | false => exact .inr (Nat.lt_succ_self _)
    | true =>
        have hpc : (m.branch true line).pc = line := rfl
        have hforward := h m.pc i hi (Mnemonic.mem_jumps_of_jumpsAt htaken)
        have hlast := le_of_jumpTarget hline
        rw [toInt_of_jumpTarget hline] at hforward
        rw [hpc]
        omega
  · exact .inl rfl
  · exact .inr (Nat.lt_succ_self _)

/-- The steps that can be made at most if jumps lead forward: through the lines from here to the
last one, and one that halts the machine behind it. -/
def stepsLeft (m : Machine) : Nat :=
  if m.pc = 0 then 0 else m.program.lineCount + 1 - m.pc + 1

theorem stepsLeft_le (m : Machine) : m.stepsLeft ≤ m.program.lineCount + 1 := by
  unfold stepsLeft
  split <;> omega

theorem stepsLeft_pos (h : ¬ m.isHalted = true) : 0 < m.stepsLeft := by
  have hpc : m.pc ≠ 0 := by simpa [isHalted] using h
  rw [stepsLeft, if_neg hpc]
  exact Nat.succ_pos _

/-- If jumps lead forward, every step leaves fewer steps. -/
theorem stepsLeft_lt (h : m.program.JumpsForward) (hh : ¬ m.isHalted = true)
    (hs : m.step = .ok next) : next.stepsLeft < m.stepsLeft := by
  have hpos := stepsLeft_pos hh
  cases hi : m.instruction? with
  | none =>
      rw [step_of_instruction?_eq_none hi] at hs
      rw [← Except.ok.inj hs]
      exact hpos
  | some i =>
      have hlast := pc_le_of_step hs
      have hpc := pc_le_of_instruction? hi
      rw [step_of_instruction? hi, perform_eq_ok_iff] at hs
      have hprogram := (program_input_of_effect hs).1
      obtain hhalt | hlater := pc_lt_of_effect h hi hs
      · rwa [stepsLeft, if_pos hhalt]
      · have hne : m.pc ≠ 0 := by simpa [isHalted] using hh
        rw [stepsLeft, stepsLeft, if_neg hne, if_neg (Nat.ne_zero_of_lt hlater), hprogram]
        omega

theorem stopsWithin_of_stepsLeft_le (h : m.program.JumpsForward) (hn : m.stepsLeft ≤ n) :
    m.StopsWithin n := by
  induction n generalizing m with
  | zero =>
      by_cases hh : m.isHalted = true
      · exact stopsWithin_of_isHalted hh 0
      · exact absurd hn (Nat.not_le_of_gt (stepsLeft_pos hh))
  | succ n ih =>
      by_cases hh : m.isHalted = true
      · exact stopsWithin_of_isHalted hh (n + 1)
      · cases hs : m.step with
        | error e => exact stopsWithin_succ_of_error hs n
        | ok next =>
            have hlt := stepsLeft_lt h hh hs
            have hprogram : next.program = m.program := by
              have hattempt := (attempt_program_input m).1
              rwa [attempt_of_ok hs] at hattempt
            refine StopsWithin.of_step hs (ih ?_ (by omega))
            rwa [hprogram]

/-- A machine whose program has no backward jumps stops, wherever it begins and whatever its
registers and its input hold: within one step more than the program has lines it halts or fails,
and a run with this bound ends. -/
theorem stops_without_backward_jumps (h : m.program.JumpsForward) :
    m.StopsWithin (m.program.lineCount + 1) ∧
      ((∃ value final, m.run (m.program.lineCount + 1) = (.returned value, final)) ∨
        ∃ e final, m.run (m.program.lineCount + 1) = (.failed e, final)) := by
  have hstops := stopsWithin_of_stepsLeft_le h m.stepsLeft_le
  exact ⟨hstops, hstops.run⟩

/-- Each kind of jump once, and the machine with a positive accumulator at the first line, at a line
that fails, and at the greatest counter of 64 bits. -/
theorem stops_without_backward_jumps_behind_each_jump :
    let p := Program.ofList [⟨.jpos, .direct 3, 1⟩, ⟨.jump, .constant (-4), 2⟩,
      ⟨.jneg, .direct 4, 3⟩, ⟨.jzero, .constant 0, 4⟩]
    let m : Machine := ⟨1, Registers.empty.write 0 7, p, .empty⟩
    let failing : Machine := { m with pc := 2 }
    let behind : Machine := { m with pc := 18446744073709551615 }
    p.JumpsForward ∧ m.StopsWithin 5 ∧ (m.run 3).1 = .unfinished ∧ (m.run 4).1 = .returned 7 ∧
      failing.StopsWithin 5 ∧
      (failing.run 5).1 = .failed ⟨.noSuchLine (-4) 4, ⟨.jump, .constant (-4), 2⟩⟩ ∧
      behind.StopsWithin 5 ∧ (behind.run 1).1 = .returned 7 := by
  intro p m failing behind
  have hforward : p.JumpsForward := by decide
  exact ⟨hforward, (stops_without_backward_jumps (m := m) hforward).1, by decide, by decide,
    (stops_without_backward_jumps (m := failing) hforward).1, by decide,
    (stops_without_backward_jumps (m := behind) hforward).1, by decide⟩

end Machine

end RandomAccessMachine
