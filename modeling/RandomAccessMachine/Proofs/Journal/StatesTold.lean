import RandomAccessMachine.Proofs.Journal.UnlimitedTrace
import RandomAccessMachine.Proofs.Journal.Untraced

/-!
# A trace tells the states of a run

The format of a trace is written here as one text: an introduction with the
first state, a block for each step with the states on both sides of it, and
the output. `trace_tells_states` says that the trace of a run that halts or
fails is this text for the states that plain attempts lead to.

## Implementation notes

A halt behind the last line is no step of the text, so the states are those
up to the first place without an instruction. Behind a step that fails the
text ends in the middle of its block.
-/

namespace RandomAccessMachine

namespace Trace

/-- A line with a value under its name. -/
def field (name value : String) : String := name ++ " : " ++ value ++ "\n"

/-- The text about the first state. -/
def introduction (m : Machine) : String :=
  .join ["Initial state:\n", field "Input registers" m.input.text,
    field "Data registers" m.registers.text, field "Program counter" (Decimal.natural m.pc),
    separator]

/-- The text about the step with this number before it is made. -/
def announcement (number : Nat) (m : Machine) (i : Instruction) : String :=
  .join [field "Step" (Decimal.natural number),
    field "Program counter value" (Decimal.natural m.pc),
    field "Executing an instruction" i.text]

/-- The text about the state that a step has led to. -/
def arrival (m : Machine) : String :=
  .join [field "Input registers" m.input.text, field "Data registers" m.registers.text,
    if m.pc = 0 then "Program has ended successfully.\n"
    else field "New program counter value" (Decimal.natural m.pc),
    separator]

/-- The text about the step with this number from one state to another. -/
def block (number : Nat) (m next : Machine) : String :=
  match m.instruction? with
  | some i => announcement number m i ++ arrival next
  | none => ""

example :
    let m := Machine.start (.ofList [⟨.jump, .direct 0, 1⟩]) ⟨[5]⟩
    block 3 m m.halt =
      "Step : 3\nProgram counter value : 1\nExecuting an instruction : JUMP 0\n" ++
        "Input registers : [5]\nData registers : \x7b0: 0\x7d\n" ++
        "Program has ended successfully.\n-----------------------\n" := by
  decide +kernel

/-- The text about the first steps of a machine, this many of them. -/
def told (m : Machine) (n : Nat) : String :=
  introduction m ++
    String.join ((List.range n).map fun k => block (k + 1) (m.after k) (m.after (k + 1)))

variable {m : Machine} {n : Nat}

theorem toList_introduction (m : Machine) : (introduction m).toList = chars (opening m) := by
  simp [introduction, field, chars, opening]

theorem toList_announcement (number : Nat) (m : Machine) (i : Instruction) :
    (announcement number m i).toList = chars (heading number m.pc i) := by
  simp [announcement, field, chars, heading]

theorem toList_arrival (m : Machine) : (arrival m).toList = chars (remainder m) := by
  by_cases h : m.pc = 0 <;> simp [arrival, field, chars, remainder, Machine.isHalted, h]

theorem toList_output (value : Word) :
    (field "Output" (Word.text value)).toList = (closing value).toList := by
  simp [field, closing]

theorem toList_block (number : Nat) {next : Machine} {i : Instruction}
    (h : m.instruction? = some i) :
    (block number m next).toList = headingOf number m ++ chars (remainder next) := by
  rw [block, headingOf, h]
  simp [toList_announcement, toList_arrival]

/-- The text about steps that execute instructions is what a tracer has written behind them. -/
theorem toList_told (h : m.Executes n) : (told m n).toList = upTo m n := by
  induction n with
  | zero => simp [told, upTo, toList_introduction]
  | succ n ih =>
      obtain ⟨i, hi, _⟩ := h n (Nat.lt_succ_self n)
      have hsplit : told m (n + 1) = told m n ++ block (n + 1) (m.after n) (m.after (n + 1)) := by
        simp [told, List.range_succ, String.append_assoc]
      rw [hsplit, String.toList_append, ih (h.of_le (Nat.le_succ n)), toList_block _ hi, upTo,
        List.append_assoc]

end Trace

namespace TracedMachine

/-- The trace of a run that halts tells its states one after the other and then the output. The
trace of a run that fails tells the states up to the last one, and then that the step that fails is
about to be made. -/
theorem trace_tells_states (m : Machine) (asked : Option Level) :
    let t := start m none (.empty asked)
    (∀ value final, m.Returns value final →
      ∃ n t', m.Executes n ∧ (m.after n).instruction? = none ∧
        value = (m.after n).accumulator ∧ t.Returns value t' ∧ t'.machine = final ∧
        t'.output = Trace.told m n ++ Trace.field "Output" (Word.text value)) ∧
    ∀ e final, m.Fails e final →
      ∃ n i t', m.Executes n ∧ final = m.after n ∧ final.instruction? = some i ∧
        final.perform i = .error e ∧ t.Fails (.runtime e) t' ∧ t'.machine = final ∧
        t'.output = Trace.told m n ++ Trace.announcement (n + 1) final i := by
  intro t
  constructor
  · intro value final hreturns
    obtain ⟨t', ⟨bound, hrun⟩, rfl⟩ := (returns_iff_of_room_eq_none (t := t) rfl).mpr hreturns
    obtain ⟨houtcome, _⟩ | ⟨_, _, _, _, _, _, houtcome, _⟩ | ⟨n, hexec, hi, houtcome, _, hout⟩ :=
      unlimited_run_cases m asked bound
    · simp [t, hrun] at houtcome
    · simp [t, hrun] at houtcome
    · rw [hrun] at houtcome hout
      obtain rfl := Outcome.returned.inj houtcome
      refine ⟨n, t', hexec, hi, rfl, ⟨bound, hrun⟩, rfl, String.toList_inj.mp ?_⟩
      rw [hout, Trace.closed, String.toList_append, Trace.toList_told hexec, Trace.toList_output]
  · intro e final hfails
    obtain ⟨t', ⟨bound, hrun⟩, rfl⟩ :=
      (fails_iff_of_room_eq_none (t := t) rfl).mpr ⟨e, rfl, hfails⟩
    obtain ⟨houtcome, _⟩ | ⟨n, i, e', hexec, hi, hp, houtcome, hm, hout⟩ | ⟨_, _, _, houtcome, _⟩ :=
      unlimited_run_cases m asked bound
    · simp [t, hrun] at houtcome
    · rw [hrun] at houtcome hm hout
      obtain rfl : e = e' := by simpa using houtcome
      refine ⟨n, i, t', hexec, hm, hm ▸ hi, hm ▸ hp, ⟨bound, hrun⟩, rfl, String.toList_inj.mp ?_⟩
      have hheading : Trace.headingOf (n + 1) (m.after n) =
          Trace.chars (Trace.heading (n + 1) (m.after n).pc i) := by
        rw [Trace.headingOf, hi]
      rw [hout, Trace.headed, hheading, String.toList_append, Trace.toList_told hexec,
        Trace.toList_announcement, hm]
    · simp [t, hrun] at houtcome

/-- A run that halts with a jump to line 0, and one that fails with its second step. -/
theorem trace_tells_states_of_jumps :
    let halting := Machine.start (.ofList [⟨.load, .constant 2, 1⟩, ⟨.jump, .direct 0, 2⟩]) ⟨[5]⟩
    let failing := Machine.start (.ofList [⟨.pass, .absent, 1⟩, ⟨.jump, .direct 7, 2⟩]) .empty
    let e : RuntimeError := ⟨.noSuchLine 7 2, ⟨.jump, .direct 7, 2⟩⟩
    (halting.Returns 2 (halting.after 2) ∧
      ∃ t', (start halting none (.empty none)).Returns 2 t' ∧ t'.machine = halting.after 2 ∧
        t'.output = Trace.told halting 2 ++ Trace.field "Output" (Word.text 2)) ∧
    failing.Fails e (failing.after 1) ∧
      ∃ t', (start failing none (.empty none)).Fails (.runtime e) t' ∧
        t'.machine = failing.after 1 ∧
        t'.output =
          Trace.told failing 1 ++ Trace.announcement 2 (failing.after 1) e.instruction := by
  intro halting failing e
  constructor
  · have hreturns : halting.Returns 2 (halting.after 2) := ⟨2, rfl⟩
    obtain ⟨n, t', hexec, hi, _, hrun, hmachine, hout⟩ :=
      (trace_tells_states halting none).1 2 _ hreturns
    have hsteps : halting.Executes 2 := by
      intro k hk
      match k, hk with
      | 0, _ | 1, _ => exact ⟨_, rfl, rfl⟩
    obtain rfl : n = 2 := Nat.le_antisymm (hexec.le_of_instruction?_eq_none rfl)
      (hsteps.le_of_instruction?_eq_none hi)
    exact ⟨hreturns, t', hrun, hmachine, hout⟩
  · have hfails : failing.Fails e (failing.after 1) := ⟨2, rfl⟩
    obtain ⟨n, i, t', hexec, hfinal, hi, hp, hrun, hmachine, hout⟩ :=
      (trace_tells_states failing none).2 e _ hfails
    have hsteps : failing.Executes 1 := by
      intro k hk
      match k, hk with
      | 0, _ => exact ⟨_, rfl, rfl⟩
    have hfault : (failing.after 1).perform e.instruction = .error e := rfl
    have hi' : some e.instruction = some i := hi
    rw [hfinal] at hi hp
    obtain rfl : n = 1 := Nat.le_antisymm (hexec.le_of_perform_eq_error rfl hfault)
      (hsteps.le_of_perform_eq_error hi hp)
    exact ⟨hfails, t', hrun, hmachine, Option.some.inj hi' ▸ hout⟩

end TracedMachine

end RandomAccessMachine
