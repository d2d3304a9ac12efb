import RandomAccessMachine.Proofs.Journal.FullTrace

/-!
# Traces without a limit

Without a limit nothing is cut, so a trace grows with the bound on the steps
until the run ends. `unlimited_run_cases` says what has been written within a
bound. The lemmas after it say that the trace of the first steps is written
as soon as the bound allows these steps.
-/

namespace RandomAccessMachine.TracedMachine

section Bound

variable {t : TracedMachine} {bound more : Nat}

theorem advance_of_le (h : bound ≤ more) (hne : (t.advance bound).1 ≠ .unfinished) :
    t.advance more = t.advance bound := by
  induction bound generalizing t more with
  | zero =>
      by_cases hh : t.machine.isHalted
      · rw [advance_of_isHalted hh, advance_of_isHalted hh]
      · rw [advance_zero_of_not_isHalted hh] at hne
        exact absurd rfl hne
  | succ bound ih =>
      obtain ⟨more, rfl⟩ : ∃ k, more = k + 1 := ⟨more - 1, by omega⟩
      by_cases hh : t.machine.isHalted
      · rw [advance_of_isHalted hh, advance_of_isHalted hh]
      · rcases hs : t.step with ⟨_ | e, u⟩
        · rw [advance_succ_of_none hh hs] at hne ⊢
          rw [advance_succ_of_none hh hs]
          exact ih (by omega) hne
        · rw [advance_succ_of_some hh hs, advance_succ_of_some hh hs]

/-- A run that has ended within a bound does not go on within a larger one. -/
theorem run_of_le (h : bound ≤ more) (hne : (t.run bound).1 ≠ .unfinished) :
    t.run more = t.run bound := by
  unfold run at hne ⊢
  split
  · rfl
  · rename_i u hu
    rw [hu] at hne
    exact advance_of_le h hne

end Bound

variable {m : Machine} {limit : Option Nat} {asked : Option Level} {bound n : Nat}

@[simp] theorem output_start : (start m limit (.empty asked)).output = "" := rfl

/-- What a new tracer has written is the text that it has taken. -/
theorem Takes.output_of_start {t : TracedMachine} {text : List Char}
    (h : (start m limit (.empty asked)).Takes t text) : t.output.toList = text := by
  simpa using h.output

/-- The run of a new tracer that has not ended has written more characters than its bound. -/
theorem lt_length_output_of_unfinished
    (h : ((start m limit (.empty asked)).run bound).1 = .unfinished) :
    bound < ((start m limit (.empty asked)).run bound).2.output.toList.length := by
  obtain ⟨_, hstands⟩ | hends := run_cases m limit asked bound
  · rw [hstands.takes.output_of_start]
    exact Trace.lt_length_upTo m bound
  · rw [h] at hends
    cases hends

/-- Without a limit a run ends behind the heading of a step that fails, or it closes the trace. -/
theorem EndsAs.of_unlimited {outcome : Outcome TraceError} {t : TracedMachine}
    (h : EndsAs (start m none (.empty asked)) outcome t) :
    (∃ n i e, m.Executes n ∧ (m.after n).instruction? = some i ∧
      (m.after n).perform i = .error e ∧ outcome = .failed (.runtime e) ∧
      t.machine = m.after n ∧ t.output.toList = Trace.headed m n) ∨
    ∃ n, m.Executes n ∧ (m.after n).instruction? = none ∧
      outcome = .returned (m.after n).accumulator ∧ t.machine = m.after (n + 1) ∧
      t.output.toList = Trace.closed m n := by
  have hnot (text : List Char) : ¬ (start m none (.empty asked)).Fills t text :=
    not_fills_of_room_eq_none rfl text
  cases h with
  | openingCut _ hfills => exact absurd hfills (hnot _)
  | headingCut n _ _ _ _ hfills => exact absurd hfills (hnot _)
  | faulted n hexec hi hp hm htakes =>
      exact .inl ⟨n, _, _, hexec, hi, hp, rfl, hm, htakes.output_of_start⟩
  | remainderCut n _ _ _ hfills => exact absurd hfills (hnot _)
  | closingCut n _ _ _ _ hfills => exact absurd hfills (hnot _)
  | closed n hexec hi hm htakes =>
      exact .inr ⟨n, hexec, hi, rfl, hm, htakes.output_of_start⟩

/-- What a tracer without a limit has done within a bound: it has written the blocks of that many
steps, or it has failed behind a heading, or it has closed the trace. -/
theorem unlimited_run_cases (m : Machine) (asked : Option Level) (bound : Nat) :
    let result := (start m none (.empty asked)).run bound
    (result.1 = .unfinished ∧ m.Executes bound ∧ result.2.output.toList = Trace.upTo m bound) ∨
    (∃ n i e, m.Executes n ∧ (m.after n).instruction? = some i ∧
      (m.after n).perform i = .error e ∧ result.1 = .failed (.runtime e) ∧
      result.2.machine = m.after n ∧ result.2.output.toList = Trace.headed m n) ∨
    ∃ n, m.Executes n ∧ (m.after n).instruction? = none ∧
      result.1 = .returned (m.after n).accumulator ∧ result.2.machine = m.after (n + 1) ∧
      result.2.output.toList = Trace.closed m n := by
  intro result
  obtain ⟨houtcome, hstands⟩ | hends := run_cases m none asked bound
  · exact .inl ⟨houtcome, hstands.executes, hstands.takes.output_of_start⟩
  · exact .inr hends.of_unlimited

/-- The blocks of steps that succeed are written. -/
theorem upTo_prefix_output (asked : Option Level) (h : m.Executes n) (hb : n ≤ bound) :
    Trace.upTo m n <+: ((start m none (.empty asked)).run bound).2.output.toList := by
  obtain ⟨_, _, hout⟩ | ⟨k, i, e, _, hi, hp, _, _, hout⟩ | ⟨k, _, hi, _, _, hout⟩ :=
    unlimited_run_cases m asked bound
  · rw [hout]
    exact Trace.upTo_prefix_upTo m hb
  · rw [hout]
    have hle : n ≤ k := h.le_of_perform_eq_error hi hp
    apply (Trace.upTo_prefix_upTo m hle).trans
    exact Trace.upTo_prefix_headed m k
  · rw [hout]
    have hle : n ≤ k := h.le_of_instruction?_eq_none hi
    apply (Trace.upTo_prefix_upTo m hle).trans
    exact Trace.upTo_prefix_closed m k

/-- The heading of a step behind steps that succeed is written. -/
theorem headed_prefix_output (asked : Option Level) {i : Instruction} (h : m.Executes n)
    (hi : (m.after n).instruction? = some i) (hb : n < bound) :
    Trace.headed m n <+: ((start m none (.empty asked)).run bound).2.output.toList := by
  obtain ⟨_, _, hout⟩ | ⟨k, j, e, _, hj, hp, _, _, hout⟩ | ⟨k, _, hk, _, _, hout⟩ :=
    unlimited_run_cases m asked bound
  · rw [hout]
    exact Trace.headed_prefix_upTo m hb
  · rw [hout]
    obtain rfl | hlt := Nat.eq_or_lt_of_le (h.le_of_perform_eq_error hj hp)
    · exact List.prefix_rfl
    · apply (Trace.headed_prefix_upTo m hlt).trans
      exact Trace.upTo_prefix_headed m k
  · rw [hout]
    obtain rfl | hlt := Nat.eq_or_lt_of_le (h.le_of_instruction?_eq_none hk)
    · simp [hk] at hi
    · apply (Trace.headed_prefix_upTo m hlt).trans
      exact Trace.upTo_prefix_closed m k

/-- A run without a limit fails behind the heading of a step that fails. -/
theorem run_of_perform_eq_error (asked : Option Level) {i : Instruction} {e : RuntimeError}
    (h : m.Executes n) (hi : (m.after n).instruction? = some i)
    (hp : (m.after n).perform i = .error e) (hb : n < bound) :
    let result := (start m none (.empty asked)).run bound
    result.1 = .failed (.runtime e) ∧ result.2.machine = m.after n ∧
      result.2.output.toList = Trace.headed m n := by
  intro result
  obtain ⟨_, hexec, _⟩ | ⟨k, j, d, hk, hj, hd, houtcome, hm, hout⟩ | ⟨k, hexec, hk, _, _, _⟩ :=
    unlimited_run_cases m asked bound
  · have hle : bound ≤ n := hexec.le_of_perform_eq_error hi hp
    omega
  · obtain rfl : n = k :=
      Nat.le_antisymm (h.le_of_perform_eq_error hj hd) (hk.le_of_perform_eq_error hi hp)
    obtain rfl : i = j := Option.some.inj (hi.symm.trans hj)
    obtain rfl : e = d := Except.error.inj (hp.symm.trans hd)
    exact ⟨houtcome, hm, hout⟩
  · obtain rfl : n = k := Nat.le_antisymm (h.le_of_instruction?_eq_none hk)
      (hexec.le_of_perform_eq_error hi hp)
    simp [hk] at hi

/-- A run without a limit closes the trace at a place without an instruction. -/
theorem run_of_instruction?_eq_none (asked : Option Level) (h : m.Executes n)
    (hi : (m.after n).instruction? = none) (hb : n < bound) :
    let result := (start m none (.empty asked)).run bound
    result.1 = .returned (m.after n).accumulator ∧ result.2.machine = m.after (n + 1) ∧
      result.2.output.toList = Trace.closed m n := by
  intro result
  obtain ⟨_, hexec, _⟩ | ⟨k, j, d, hk, hj, hd, _, _, _⟩ | ⟨k, hexec, hk, houtcome, hm, hout⟩ :=
    unlimited_run_cases m asked bound
  · have hle : bound ≤ n := hexec.le_of_instruction?_eq_none hi
    omega
  · obtain rfl : n = k := Nat.le_antisymm (h.le_of_perform_eq_error hj hd)
      (hk.le_of_instruction?_eq_none hi)
    simp [hi] at hj
  · obtain rfl : n = k := Nat.le_antisymm (h.le_of_instruction?_eq_none hk)
      (hexec.le_of_instruction?_eq_none hi)
    exact ⟨houtcome, hm, hout⟩

/-- Without a limit the trace within a bound is the beginning of the trace within a larger one. -/
theorem output_prefix_output (m : Machine) (asked : Option Level) {more : Nat}
    (h : bound ≤ more) :
    ((start m none (.empty asked)).run bound).2.output.toList <+:
      ((start m none (.empty asked)).run more).2.output.toList := by
  by_cases hu : ((start m none (.empty asked)).run bound).1 = .unfinished
  · obtain ⟨_, hexec, hout⟩ | ⟨_, _, _, _, _, _, houtcome, _⟩ | ⟨_, _, _, houtcome, _⟩ :=
      unlimited_run_cases m asked bound
    · rw [hout]
      exact upTo_prefix_output asked hexec h
    · simp [hu] at houtcome
    · simp [hu] at houtcome
  · simp only [run_of_le h hu, List.prefix_rfl]

end RandomAccessMachine.TracedMachine
