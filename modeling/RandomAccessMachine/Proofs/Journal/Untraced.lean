import RandomAccessMachine.Proofs.Journal.TracedStep
import RandomAccessMachine.Proofs.Machine.Attempts

/-!
# Tracing does not change the machine

With no limit on what can be written, a traced step is an attempt at a plain
step, and a traced run ends as the plain run does: it halts with the same
value or fails with the same error, in the same state, or neither run ends.

## Implementation notes

The simulation is in lockstep, so it holds for each bound on the number of
steps, and the statements about finished runs follow from it.
-/

namespace RandomAccessMachine

/-- The outcome with its error, if any, put in other terms. -/
def Outcome.mapError {ε δ : Type} (f : ε → δ) : Outcome ε → Outcome δ
  | .returned value => .returned value
  | .failed e => .failed (f e)
  | .unfinished => .unfinished

theorem Outcome.mapError_eq_returned_iff {ε δ : Type} {f : ε → δ} {o : Outcome ε} {value : Word} :
    o.mapError f = .returned value ↔ o = .returned value := by
  cases o <;> simp [mapError]

theorem Outcome.mapError_eq_failed_iff {ε δ : Type} {f : ε → δ} {o : Outcome ε} {d : δ} :
    o.mapError f = .failed d ↔ ∃ e, o = .failed e ∧ f e = d := by
  cases o <;> simp [mapError]

namespace TracedMachine

/-- The traced run halts with this value and ends in this state. -/
def Returns (t : TracedMachine) (value : Word) (final : TracedMachine) : Prop :=
  ∃ bound, t.run bound = (.returned value, final)

/-- The traced run fails with this error and ends in this state. -/
def Fails (t : TracedMachine) (e : TraceError) (final : TracedMachine) : Prop :=
  ∃ bound, t.run bound = (.failed e, final)

variable {t t' : TracedMachine}

/-- Without a limit a traced step is an attempt at a plain step. -/
theorem step_of_room_eq_none (h : t.room = none) :
    t.step.1 = t.machine.attempt.1.map .runtime ∧ t.step.2.machine = t.machine.attempt.2 ∧
      t.step.2.room = none := by
  cases hi : t.machine.instruction? with
  | none =>
      rw [step_of_instruction?_eq_none hi,
        Machine.attempt_of_ok (Machine.step_of_instruction?_eq_none hi)]
      exact ⟨rfl, rfl, h⟩
  | some i =>
      have hstep := Machine.step_of_instruction? hi
      obtain ⟨u, _, _, hf⟩ | ⟨e, u, hp, hu, hmu, ht⟩ |
          ⟨next, u, _, _, _, _, hf⟩ | ⟨next, u, hp, hu, hmu, _, ht⟩ := step_cases hi
      · exact absurd hf (not_fills_of_room_eq_none h _)
      · rw [hu, Machine.attempt_of_error (hstep.trans hp)]
        exact ⟨rfl, hmu, ht.room_eq_none h⟩
      · exact absurd hf (not_fills_of_room_eq_none h _)
      · rw [hu, Machine.attempt_of_ok (hstep.trans hp)]
        exact ⟨rfl, hmu, ht.room_eq_none h⟩

theorem finish_of_room_eq_none (h : t.room = none) :
    t.finish.1 = .returned t.machine.accumulator ∧ t.finish.2.machine = t.machine := by
  simp [finish, write_of_room_eq_none h]

/-- Without a limit the steps of a traced run are those of the plain run. -/
theorem advance_of_room_eq_none (bound : Nat) (h : t.room = none) :
    (t.advance bound).1 = (t.machine.run bound).1.mapError .runtime ∧
      (t.advance bound).2.machine = (t.machine.run bound).2 := by
  induction bound generalizing t with
  | zero =>
      by_cases hh : t.machine.isHalted
      · rw [advance_of_isHalted hh, Machine.run_of_isHalted hh]
        exact finish_of_room_eq_none h
      · rw [advance_zero_of_not_isHalted hh, Machine.run_zero_of_not_isHalted hh]
        exact ⟨rfl, rfl⟩
  | succ bound ih =>
      by_cases hh : t.machine.isHalted
      · rw [advance_of_isHalted hh, Machine.run_of_isHalted hh]
        exact finish_of_room_eq_none h
      · obtain ⟨hresult, hmachine, hroom⟩ := step_of_room_eq_none h
        cases hs : t.machine.step with
        | error e =>
            rw [Machine.attempt_of_error hs] at hresult hmachine
            rw [Machine.run_succ_of_error hh hs, advance_succ_of_some hh (Prod.ext hresult rfl)]
            exact ⟨rfl, hmachine⟩
        | ok next =>
            rw [Machine.attempt_of_ok hs] at hresult hmachine
            have hnext : t.step.2.machine = next := hmachine
            rw [Machine.run_succ_of_ok hh hs, advance_succ_of_none hh (Prod.ext hresult rfl),
              ← hnext]
            exact ih hroom

/-- Without a limit a traced run ends as the plain run with the same bound does. -/
theorem run_of_room_eq_none (bound : Nat) (h : t.room = none) :
    (t.run bound).1 = (t.machine.run bound).1.mapError .runtime ∧
      (t.run bound).2.machine = (t.machine.run bound).2 := by
  obtain ⟨u, hu, hmu, _, ht⟩ | ⟨u, _, _, hf⟩ := t.writeLines_cases (Trace.opening t.machine)
  · rw [run, hu, ← hmu]
    exact advance_of_room_eq_none bound (ht.room_eq_none h)
  · exact absurd hf (not_fills_of_room_eq_none h _)

/-- A traced run without a limit halts exactly when the plain run does. -/
theorem returns_iff_of_room_eq_none (h : t.room = none) {value : Word} {final : Machine} :
    (∃ t', t.Returns value t' ∧ t'.machine = final) ↔ t.machine.Returns value final := by
  constructor
  · intro hgiven
    obtain ⟨t', ⟨bound, hb⟩, rfl⟩ := hgiven
    obtain ⟨houtcome, hmachine⟩ := run_of_room_eq_none bound h
    rw [hb] at houtcome hmachine
    exact ⟨bound, Prod.ext (Outcome.mapError_eq_returned_iff.mp houtcome.symm) hmachine.symm⟩
  · intro hgiven
    obtain ⟨bound, hb⟩ := hgiven
    obtain ⟨houtcome, hmachine⟩ := run_of_room_eq_none bound h
    rw [hb] at houtcome hmachine
    exact ⟨(t.run bound).2, ⟨bound, Prod.ext houtcome rfl⟩, hmachine⟩

/-- A traced run without a limit fails exactly when the plain run does. -/
theorem fails_iff_of_room_eq_none (h : t.room = none) {e : TraceError} {final : Machine} :
    (∃ t', t.Fails e t' ∧ t'.machine = final) ↔
      ∃ cause, e = .runtime cause ∧ t.machine.Fails cause final := by
  constructor
  · intro hgiven
    obtain ⟨t', ⟨bound, hb⟩, rfl⟩ := hgiven
    obtain ⟨houtcome, hmachine⟩ := run_of_room_eq_none bound h
    rw [hb] at houtcome hmachine
    obtain ⟨cause, hfailed, hcause⟩ := Outcome.mapError_eq_failed_iff.mp houtcome.symm
    exact ⟨cause, hcause.symm, bound, Prod.ext hfailed hmachine.symm⟩
  · intro hgiven
    obtain ⟨cause, rfl, bound, hb⟩ := hgiven
    obtain ⟨houtcome, hmachine⟩ := run_of_room_eq_none bound h
    rw [hb] at houtcome hmachine
    exact ⟨(t.run bound).2, ⟨bound, Prod.ext houtcome rfl⟩, hmachine⟩

/-- A tracer whose texts always fit steps as the machine does, and its run halts or fails exactly
when the plain run does, with the same value or error and in the same state. -/
theorem same_as_untraced (m : Machine) (steps : Nat) (transcript : Transcript) :
    let t : TracedMachine := ⟨m, steps, none, transcript⟩
    (t.step.1 = m.attempt.1.map .runtime ∧ t.step.2.machine = m.attempt.2) ∧
    (∀ value final, (∃ t', t.Returns value t' ∧ t'.machine = final) ↔ m.Returns value final) ∧
    ∀ e final, (∃ t', t.Fails e t' ∧ t'.machine = final) ↔
      ∃ cause, e = .runtime cause ∧ m.Fails cause final := by
  intro t
  obtain ⟨hresult, hmachine, _⟩ := step_of_room_eq_none (t := t) rfl
  refine ⟨⟨hresult, hmachine⟩, ?_, ?_⟩
  · intro value final
    exact returns_iff_of_room_eq_none rfl
  · intro e final
    exact fails_iff_of_room_eq_none rfl

end TracedMachine

end RandomAccessMachine
