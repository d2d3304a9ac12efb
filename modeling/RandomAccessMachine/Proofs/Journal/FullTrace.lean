import RandomAccessMachine.Proofs.Journal.TracedStep
import RandomAccessMachine.Proofs.Machine.Attempts

/-!
# The text of a whole trace

The text of a trace is put together from the states that plain attempts lead
to: the opening, a block for each step that executes an instruction, and the
closing line. A traced run, with a limit or without one, follows this text.
`run_cases` says how far it gets and in which state it then is.

## Implementation notes

A run either stands behind the blocks of some steps, or it has ended in one of
the six ways of `EndsAs`. A place without an instruction ends every run: either
the machine has halted there, or it halts in silence.
-/

namespace RandomAccessMachine

namespace Trace

/-- The heading of a step that begins in this state, if it executes an instruction. -/
def headingOf (step : Nat) (m : Machine) : List Char :=
  match m.instruction? with
  | some i => chars (heading step m.pc i)
  | none => []

/-- The text of a trace up to the end of the block of its `n`th step. -/
def upTo (m : Machine) : Nat → List Char
  | 0 => chars (opening m)
  | n + 1 => upTo m n ++ headingOf (n + 1) (m.after n) ++ chars (remainder (m.after (n + 1)))

/-- The text of a trace up to the end of the heading behind the block of its `n`th step. -/
def headed (m : Machine) (n : Nat) : List Char := upTo m n ++ headingOf (n + 1) (m.after n)

/-- The text of a trace that is closed behind the block of its `n`th step. -/
def closed (m : Machine) (n : Nat) : List Char :=
  upTo m n ++ (closing (m.after n).accumulator).toList

theorem upTo_prefix_headed (m : Machine) (n : Nat) : upTo m n <+: headed m n :=
  List.prefix_append _ _

theorem headed_prefix_upTo_succ (m : Machine) (n : Nat) : headed m n <+: upTo m (n + 1) :=
  List.prefix_append _ _

theorem upTo_prefix_closed (m : Machine) (n : Nat) : upTo m n <+: closed m n :=
  List.prefix_append _ _

theorem upTo_prefix_upTo (m : Machine) {n k : Nat} (h : n ≤ k) : upTo m n <+: upTo m k := by
  induction h with
  | refl => exact List.prefix_rfl
  | @step k _ ih =>
      have hblock : upTo m k <+: upTo m (k + 1) :=
        (upTo_prefix_headed m k).trans (headed_prefix_upTo_succ m k)
      exact ih.trans hblock

theorem headed_prefix_upTo (m : Machine) {n k : Nat} (h : n < k) : headed m n <+: upTo m k :=
  (headed_prefix_upTo_succ m n).trans (upTo_prefix_upTo m h)

/-- Every block holds at least one character. -/
theorem lt_length_upTo (m : Machine) (n : Nat) : n < (upTo m n).length := by
  have hblock (next : Machine) : 0 < (chars (remainder next)).length := by
    simp [chars, remainder]
  induction n with
  | zero => simp [upTo, chars, opening]
  | succ n ih =>
      have := hblock (m.after (n + 1))
      simp only [upTo, List.length_append]
      omega

end Trace

namespace TracedMachine

/-- A tracer that has written the blocks of the first steps and is about to go on. -/
structure StandsAt (start : TracedMachine) (n : Nat) (t : TracedMachine) : Prop where
  machine : t.machine = start.machine.after n
  steps : t.steps = n
  executes : start.machine.Executes n
  takes : start.Takes t (Trace.upTo start.machine n)

/-- How a traced run can end: with which outcome, in which state and behind which text. -/
inductive EndsAs (start : TracedMachine) : Outcome TraceError → TracedMachine → Prop
  /-- The opening does not fit. -/
  | openingCut {t : TracedMachine} (machine : t.machine = start.machine)
      (fills : start.Fills t (Trace.upTo start.machine 0)) : EndsAs start (.failed .full) t
  /-- The heading of a step does not fit. -/
  | headingCut {t : TracedMachine} (n : Nat) {i : Instruction}
      (executes : start.machine.Executes n)
      (instruction : (start.machine.after n).instruction? = some i)
      (machine : t.machine = start.machine.after n)
      (fits : ∀ room ∈ start.room, (Trace.upTo start.machine n).length ≤ room)
      (fills : start.Fills t (Trace.headed start.machine n)) : EndsAs start (.failed .full) t
  /-- An instruction has failed behind its heading. -/
  | faulted {t : TracedMachine} (n : Nat) {i : Instruction} {e : RuntimeError}
      (executes : start.machine.Executes n)
      (instruction : (start.machine.after n).instruction? = some i)
      (error : (start.machine.after n).perform i = .error e)
      (machine : t.machine = start.machine.after n)
      (takes : start.Takes t (Trace.headed start.machine n)) :
      EndsAs start (.failed (.runtime e)) t
  /-- The rest of a step's block does not fit. -/
  | remainderCut {t : TracedMachine} (n : Nat) (executes : start.machine.Executes (n + 1))
      (machine : t.machine = start.machine.after (n + 1))
      (fits : ∀ room ∈ start.room, (Trace.headed start.machine n).length ≤ room)
      (fills : start.Fills t (Trace.upTo start.machine (n + 1))) : EndsAs start (.failed .full) t
  /-- The closing line does not fit. -/
  | closingCut {t : TracedMachine} (n : Nat) (executes : start.machine.Executes n)
      (instruction : (start.machine.after n).instruction? = none)
      (machine : t.machine = start.machine.after (n + 1))
      (fits : ∀ room ∈ start.room, (Trace.upTo start.machine n).length ≤ room)
      (fills : start.Fills t (Trace.closed start.machine n)) : EndsAs start (.failed .full) t
  /-- The machine has halted and the trace is closed. -/
  | closed {t : TracedMachine} (n : Nat) (executes : start.machine.Executes n)
      (instruction : (start.machine.after n).instruction? = none)
      (machine : t.machine = start.machine.after (n + 1))
      (takes : start.Takes t (Trace.closed start.machine n)) :
      EndsAs start (.returned (start.machine.after n).accumulator) t

/-- The closing line is taken, or it fills the room. -/
theorem finish_cases (t : TracedMachine) :
    let line := (Trace.closing t.machine.accumulator).toList
    (∃ t', t.finish = (.returned t.machine.accumulator, t') ∧ t'.machine = t.machine ∧
      t.Takes t' line) ∨
    ∃ t', t.finish = (.failed .full, t') ∧ t'.machine = t.machine ∧ t.Fills t' line := by
  rcases t.write_cases (Trace.closing t.machine.accumulator) with
    ⟨u, hu, hmu, hsu, htu⟩ | ⟨u, hu, hmu, hfu⟩
  · left
    let noted : TracedMachine :=
      { u with transcript := u.transcript.note (.traceTerminated u.steps u.machine.accumulator) }
    have hnoted : noted.output = u.output := Transcript.output_note _ _
    refine ⟨noted, ?_, hmu, htu.fits, htu.room, by rw [hnoted, htu.output]⟩
    rw [finish, hu, ← hmu]
  · right
    exact ⟨u, by rw [finish, hu], hmu, hfu⟩

section Run

variable {start t : TracedMachine} {n : Nat}

/-- A tracer that stands at a place without an instruction closes the trace, or fills the room. -/
theorem StandsAt.finish_endsAs (h : StandsAt start n t)
    (hi : (start.machine.after n).instruction? = none) {t' : TracedMachine}
    (hm : t'.machine = start.machine.after (n + 1)) (hroom : t'.room = t.room)
    (hout : t'.output = t.output) : EndsAs start t'.finish.1 t'.finish.2 := by
  have htake : start.Takes t' (Trace.upTo start.machine n) :=
    ⟨h.takes.fits, hroom.trans h.takes.room, by rw [hout, h.takes.output]⟩
  have hacc : t'.machine.accumulator = (start.machine.after n).accumulator := by
    rw [hm, Machine.after_succ_of_ok (Machine.step_of_instruction?_eq_none hi)]
    rfl
  obtain ⟨u, hu, hmu, htu⟩ | ⟨u, hu, hmu, hfu⟩ := t'.finish_cases
  · rw [hu, hacc]
    rw [hacc] at htu
    exact .closed n h.executes hi (hmu.trans hm) (htake.append htu)
  · rw [hu]
    rw [hacc] at hfu
    exact .closingCut n h.executes hi (hmu.trans hm) h.takes.fits (htake.append_fills hfu)

/-- One step of a tracer in its place: it goes on to the next place, or the run has ended. -/
theorem StandsAt.step_cases (h : StandsAt start n t) {i : Instruction}
    (hi : t.machine.instruction? = some i) :
    (∃ t', t.step = (none, t') ∧ StandsAt start (n + 1) t') ∨
      ∃ e t', t.step = (some e, t') ∧ EndsAs start (.failed e) t' := by
  have hi' : (start.machine.after n).instruction? = some i := h.machine ▸ hi
  have hheading : Trace.headed start.machine n = Trace.upTo start.machine n ++
      Trace.chars (Trace.heading (t.steps + 1) t.machine.pc i) := by
    simp only [Trace.headed, Trace.headingOf, hi', h.steps, h.machine]
  obtain ⟨u, hu, hmu, hf⟩ | ⟨e, u, hp, hu, hmu, ht⟩ |
      ⟨next, u, hp, hu, hmu, hfit, hf⟩ | ⟨next, u, hp, hu, hmu, hsu, ht⟩ :=
    TracedMachine.step_cases hi
  · refine .inr ⟨_, u, hu, .headingCut n h.executes hi' (hmu.trans h.machine) h.takes.fits ?_⟩
    exact hheading ▸ h.takes.append_fills hf
  · rw [h.machine] at hp
    refine .inr ⟨_, u, hu, .faulted n h.executes hi' hp (hmu.trans h.machine) ?_⟩
    exact hheading ▸ h.takes.append ht
  · rw [h.machine] at hp
    obtain ⟨hexec, hnext⟩ := h.executes.succ hi' hp
    have htext := h.takes.append_fills hf
    rw [← List.append_assoc, ← hheading, ← hnext] at htext
    refine .inr ⟨_, u, hu, .remainderCut n hexec (hmu.trans hnext.symm) ?_ htext⟩
    intro room hroom
    have hrest := hfit (room - (Trace.upTo start.machine n).length)
      (by simp [h.takes.room, Option.mem_def.mp hroom])
    have hupTo := h.takes.fits room hroom
    rw [hheading, List.length_append]
    omega
  · rw [h.machine] at hp
    obtain ⟨hexec, hnext⟩ := h.executes.succ hi' hp
    have htext := h.takes.append ht
    rw [← List.append_assoc, ← hheading, ← hnext] at htext
    exact .inl ⟨u, hu, hmu.trans hnext.symm, hsu.trans (congrArg (· + 1) h.steps), hexec, htext⟩

/-- A tracer in its place whose machine has halted closes the trace, or fills the room. -/
theorem StandsAt.finish_endsAs_of_isHalted (h : StandsAt start n t) (hh : t.machine.isHalted) :
    EndsAs start t.finish.1 t.finish.2 := by
  have hhn : (start.machine.after n).isHalted := h.machine ▸ hh
  refine h.finish_endsAs (Machine.instruction?_of_isHalted hhn) ?_ rfl rfl
  exact h.machine.trans (Machine.after_succ_of_isHalted hhn).symm

/-- A run within a bound stands in the place after that many steps, or it has ended. -/
theorem StandsAt.advance_cases (h : StandsAt start n t) (bound : Nat) :
    ((t.advance bound).1 = .unfinished ∧ StandsAt start (n + bound) (t.advance bound).2) ∨
      EndsAs start (t.advance bound).1 (t.advance bound).2 := by
  induction bound generalizing n t with
  | zero =>
      by_cases hh : t.machine.isHalted
      · rw [advance_of_isHalted hh]
        exact .inr (h.finish_endsAs_of_isHalted hh)
      · rw [advance_zero_of_not_isHalted hh]
        exact .inl ⟨rfl, h⟩
  | succ bound ih =>
      by_cases hh : t.machine.isHalted
      · rw [advance_of_isHalted hh]
        exact .inr (h.finish_endsAs_of_isHalted hh)
      · cases hi : t.machine.instruction? with
        | none =>
            have hi' : (start.machine.after n).instruction? = none := h.machine ▸ hi
            rw [advance_succ_of_none hh (step_of_instruction?_eq_none hi),
              advance_of_isHalted (by rfl)]
            refine .inr (h.finish_endsAs hi' ?_ rfl rfl)
            rw [Machine.after_succ_of_ok (Machine.step_of_instruction?_eq_none hi'), h.machine]
        | some i =>
            obtain ⟨u, hu, hstands⟩ | ⟨e, u, hu, hends⟩ := h.step_cases hi
            · rw [advance_succ_of_none hh hu, Nat.add_comm bound 1, ← Nat.add_assoc]
              exact ih hstands
            · rw [advance_succ_of_some hh hu]
              exact .inr hends

/-- The run of a new tracer within a bound: it stands behind that many blocks, or it has ended. -/
theorem run_cases (m : Machine) (limit : Option Nat) (asked : Option Level) (bound : Nat) :
    let start := TracedMachine.start m limit (.empty asked)
    ((start.run bound).1 = .unfinished ∧ StandsAt start bound (start.run bound).2) ∨
      EndsAs start (start.run bound).1 (start.run bound).2 := by
  intro start
  rcases start.writeLines_cases (Trace.opening start.machine) with
    ⟨u, hu, hmu, hsu, htu⟩ | ⟨u, hu, hmu, hfu⟩
  · have hstands : StandsAt start 0 u :=
      ⟨hmu, hsu, .zero m, htu⟩
    rw [run, hu]
    simpa using hstands.advance_cases bound
  · rw [run, hu]
    exact .inr (.openingCut hmu hfu)

end Run

end TracedMachine

end RandomAccessMachine
