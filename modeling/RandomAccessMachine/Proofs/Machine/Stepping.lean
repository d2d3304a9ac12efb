import RandomAccessMachine.Proofs.Machine.Attempts

/-!
# Single steps and runs

A run may be taken over at any point: from the state that some steps lead to,
it halts, fails or goes on for ever exactly as the run from the first state
does. So a run halts exactly if some number of steps leads to a halt, and the
halted machine can be run again without any change.

## Implementation notes

Steps are attempts that succeed. They go on past a halt and past the last
line, where a run has ended, and such steps change nothing any more.
-/

namespace RandomAccessMachine.Machine

/-- The first attempts at a step succeed, this many of them. -/
def Succeeds (m : Machine) (n : Nat) : Prop := ∀ k < n, (m.after k).attempt.1 = none

/-- The run of the machine does not end, whatever its bound is. -/
def Loops (m : Machine) : Prop := ∀ bound, (m.run bound).1 = .unfinished

variable {m next final : Machine} {n : Nat} {value : Word}

/-- The attempts behind a step are those of the machine that it leads to. -/
theorem after_succ_of_step (hs : m.step = .ok next) (n : Nat) : m.after (n + 1) = next.after n := by
  rw [after, Function.iterate_succ_apply, attempt_of_ok hs, after]

namespace Succeeds

theorem zero (m : Machine) : m.Succeeds 0 := fun k hk => absurd hk (Nat.not_lt_zero k)

theorem of_succ (h : m.Succeeds (n + 1)) : m.Succeeds n :=
  fun k hk => h k (Nat.lt_succ_of_lt hk)

/-- The last of the attempts is a step. -/
theorem step_after (h : m.Succeeds (n + 1)) : (m.after n).step = .ok (m.after (n + 1)) := by
  have hlast : (m.after n).attempt.1 = none := h n (Nat.lt_succ_self n)
  cases hs : (m.after n).step with
  | error e => simp [attempt_of_error hs] at hlast
  | ok next => rw [after_succ_of_ok hs]

/-- A run with enough bound goes through the states that its steps lead to, and past a halt it stays
in the last of them. -/
theorem run_add (h : m.Succeeds n) (bound : Nat) : m.run (n + bound) = (m.after n).run bound := by
  induction n generalizing bound with
  | zero => rw [Nat.zero_add, after_zero]
  | succ n ih =>
      have hlast : (m.after n).run (bound + 1) = (m.after (n + 1)).run bound := by
        by_cases hh : (m.after n).isHalted = true
        · rw [after_succ_of_isHalted hh, run_of_isHalted hh, run_of_isHalted hh]
        · exact run_succ_of_ok hh h.step_after bound
      calc m.run (n + 1 + bound) = m.run (n + (bound + 1)) := by rw [Nat.add_assoc, Nat.add_comm 1]
        _ = (m.after n).run (bound + 1) := ih h.of_succ (bound + 1)
        _ = (m.after (n + 1)).run bound := hlast

/-- A step in front of attempts that succeed. -/
theorem of_step (hs : m.step = .ok next) (h : next.Succeeds n) : m.Succeeds (n + 1) := by
  intro k hk
  cases k with
  | zero => rw [after_zero, attempt_of_ok hs]
  | succ k =>
      rw [after_succ_of_step hs]
      exact h k (Nat.lt_of_succ_lt_succ hk)

end Succeeds

section Ends

variable {outcome : Outcome RuntimeError}

/-- A run ends behind a step as it ends from there. -/
theorem exists_run_eq_iff_of_step (hs : m.step = .ok next) (hended : outcome ≠ .unfinished) :
    (∃ bound, m.run bound = (outcome, final)) ↔ ∃ bound, next.run bound = (outcome, final) := by
  by_cases hh : m.isHalted = true
  · obtain rfl : m = next := Except.ok.inj ((step_of_isHalted hh).symm.trans hs)
    exact Iff.rfl
  · constructor
    · intro hgiven
      obtain ⟨bound, hrun⟩ := hgiven
      obtain ⟨rest, rfl⟩ := exists_eq_succ_of_run hh (by rw [hrun]; exact hended)
      exact ⟨rest, (run_succ_of_ok hh hs rest).symm.trans hrun⟩
    · intro hgiven
      obtain ⟨bound, hrun⟩ := hgiven
      exact ⟨bound + 1, (run_succ_of_ok hh hs bound).trans hrun⟩

/-- A run ends behind any number of steps as it ends from there. -/
theorem exists_run_eq_iff_of_succeeds (h : m.Succeeds n) (hended : outcome ≠ .unfinished) :
    (∃ bound, m.run bound = (outcome, final)) ↔
      ∃ bound, (m.after n).run bound = (outcome, final) := by
  induction n with
  | zero => rfl
  | succ n ih =>
      rw [ih h.of_succ]
      exact exists_run_eq_iff_of_step h.step_after hended

/-- A run goes on for ever exactly if it ends in no way. -/
theorem loops_iff : m.Loops ↔ ∀ outcome final, outcome ≠ .unfinished →
    ¬ ∃ bound, m.run bound = (outcome, final) := by
  constructor
  · intro h outcome final hended hgiven
    obtain ⟨bound, hrun⟩ := hgiven
    have hbound := h bound
    rw [hrun] at hbound
    exact hended hbound
  · intro h bound
    by_contra hended
    exact h _ _ hended ⟨bound, rfl⟩

/-- A run goes on for ever behind any number of steps exactly if it does so from there. -/
theorem loops_iff_of_succeeds (h : m.Succeeds n) : m.Loops ↔ (m.after n).Loops := by
  rw [loops_iff, loops_iff]
  refine forall₃_congr fun outcome final hended => ?_
  rw [exists_run_eq_iff_of_succeeds h hended]

end Ends

/-- A run that halts has made steps to a halt. -/
theorem exists_after_of_run_eq_returned {bound : Nat}
    (h : m.run bound = (.returned value, final)) :
    ∃ n, m.Succeeds n ∧ final = m.after n ∧ final.isHalted = true ∧ final.accumulator = value := by
  induction bound generalizing m with
  | zero =>
      by_cases hh : m.isHalted = true
      · rw [run_of_isHalted hh] at h
        cases h
        exact ⟨0, .zero _, rfl, hh, rfl⟩
      · simp [run_zero_of_not_isHalted hh] at h
  | succ bound ih =>
      by_cases hh : m.isHalted = true
      · rw [run_of_isHalted hh] at h
        cases h
        exact ⟨0, .zero _, rfl, hh, rfl⟩
      · cases hs : m.step with
        | error e => simp [run_succ_of_error hh hs] at h
        | ok next =>
            rw [run_succ_of_ok hh hs] at h
            obtain ⟨n, hn, rfl, hhalted, hvalue⟩ := ih h
            exact ⟨n + 1, .of_step hs hn, (after_succ_of_step hs n).symm, hhalted, hvalue⟩

/-- A run halts exactly in a state that some steps lead to and that has halted. -/
theorem returns_iff : m.Returns value final ↔
    ∃ n, m.Succeeds n ∧ final = m.after n ∧ final.isHalted = true ∧ final.accumulator = value := by
  constructor
  · intro h
    obtain ⟨bound, hrun⟩ := h
    exact exists_after_of_run_eq_returned hrun
  · intro hgiven
    obtain ⟨n, hn, rfl, hhalted, rfl⟩ := hgiven
    have hended : (.returned (m.after n).accumulator : Outcome RuntimeError) ≠ .unfinished := nofun
    exact (exists_run_eq_iff_of_succeeds hn hended).mpr ⟨0, run_of_isHalted hhalted 0⟩

/-- From the state that any number of steps leads to, a run halts, fails or goes on for ever as from
the first state, with the same value or error and in the same final state. A run halts exactly if
some number of steps leads to a halt, in the state that these steps lead to. Another run from there
gives the same value and changes nothing. -/
theorem run_agrees_with_steps (m : Machine) :
    (∀ n, m.Succeeds n →
      (∀ value final, m.Returns value final ↔ (m.after n).Returns value final) ∧
      (∀ e final, m.Fails e final ↔ (m.after n).Fails e final) ∧
      (m.Loops ↔ (m.after n).Loops)) ∧
    (∀ value final, m.Returns value final ↔
      ∃ n, m.Succeeds n ∧ final = m.after n ∧ final.pc = 0 ∧ final.accumulator = value) ∧
    ∀ value final, m.Returns value final →
      ∀ bound, final.run bound = (.returned value, final) := by
  have hhalted (final : Machine) : final.isHalted = true ↔ final.pc = 0 := by simp [isHalted]
  refine ⟨?_, ?_, ?_⟩
  · intro n hn
    refine ⟨?_, ?_, loops_iff_of_succeeds hn⟩
    · intro value final
      apply exists_run_eq_iff_of_succeeds hn
      simp
    · intro e final
      apply exists_run_eq_iff_of_succeeds hn
      simp
  · intro value final
    rw [returns_iff]
    simp only [hhalted]
  · intro value final hreturns
    obtain ⟨n, _, rfl, hhalt, rfl⟩ := returns_iff.mp hreturns
    exact run_of_isHalted hhalt

/-- Steps past the last line and past the halt behind it, and runs from both. -/
theorem run_agrees_with_steps_behind_last_line :
    let m := start (.ofList [⟨.load, .constant 7, 1⟩]) .empty
    m.Succeeds 3 ∧ (m.after 1).pc = 2 ∧ (m.after 3).Returns 7 (m.after 2) ∧
      m.Returns 7 (m.after 2) ∧ (m.after 2).pc = 0 ∧
      (m.after 2).run 5 = (.returned 7, m.after 2) := by
  intro m
  obtain ⟨hresume, hreturns, hagain⟩ := run_agrees_with_steps m
  have hsteps : m.Succeeds 3 := by
    intro k hk
    match k, hk with
    | 0, _ | 1, _ | 2, _ => rfl
  have hrun : m.Returns 7 (m.after 2) :=
    (hreturns 7 _).mpr ⟨2, hsteps.of_succ, rfl, rfl, by decide⟩
  exact ⟨hsteps, rfl, ((hresume 3 hsteps).1 7 _).mp hrun, hrun, rfl, hagain 7 _ hrun 5⟩

end RandomAccessMachine.Machine
