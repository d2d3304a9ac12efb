import Mathlib
import RandomAccessMachine.Proofs.CommandLine.Arguments
import RandomAccessMachine.Proofs.Journal.Untraced
import RandomAccessMachine.Proofs.Journal.UnlimitedTrace

/-!
# What the command line answers

A session with bad values blames the first of them, whatever program it is
given. Otherwise it shows the error of a text that is no program, or the
result or the error of the run. With the option for debugging it exits with
the same code and shows the trace of the run between its own lines.

## Implementation notes

A session that asks for no details shows no record, as all of them are about
details. So what it prints are the texts that are written. `Prints` follows
the machine that a session traces next to one that is traced on its own.
-/

namespace RandomAccessMachine

theorem Record.not_isShownAt_warn (r : Record) : r.level.isShownAt (some .warn) = false := by
  cases r <;> rfl

/-- A log that asks for warnings shows no record. -/
theorem Transcript.note_of_warn {t : Transcript} (h : t.asked = some .warn) (r : Record) :
    t.note r = t := by
  rw [note, h, Record.not_isShownAt_warn]
  rfl

theorem Transcript.noteAll_of_warn {t : Transcript} (h : t.asked = some .warn) (rs : List Record) :
    t.noteAll rs = t := by
  induction rs with
  | nil => rfl
  | cons r rs ih =>
      rw [noteAll, List.foldl_cons, note_of_warn h]
      exact ih

/-- Where no record is shown, the run of a machine leaves the transcript as it is. -/
theorem Machine.runNoting_of_warn {t : Transcript} (h : t.asked = some .warn) (bound : Nat)
    (m : Machine) : m.runNoting bound t = ((m.run bound).1, (m.run bound).2, t) := by
  induction bound generalizing m with
  | zero => by_cases hh : m.isHalted <;> simp [runNoting, run, hh, Transcript.note_of_warn h]
  | succ bound ih =>
      by_cases hh : m.isHalted
      · simp [runNoting, run, hh, Transcript.note_of_warn h]
      · cases hs : m.step with
        | error e => simp [runNoting, run, hh, hs]
        | ok next =>
            cases hi : m.instruction? with
            | none => simp [runNoting, run, hh, hs, hi, ih]
            | some i => simp [runNoting, run, hh, hs, hi, ih, Transcript.note_of_warn h]

namespace CommandLine

theorem printedAll_say (t : Transcript) (text : String) :
    printedAll (t.say text) = printedAll t ++ text := by
  simp [printedAll, Transcript.say, printed]

/-- Two traced machines in the same state, of which the first one belongs to a session that has
printed this text and what the second one has written. -/
structure Prints (before : String) (t u : TracedMachine) : Prop where
  machine : t.machine = u.machine
  steps : t.steps = u.steps
  room : t.room = u.room
  asked : t.transcript.asked = some .warn
  printed : printedAll t.transcript = before ++ u.output

/-- Results of an operation on both machines: they are the same, and so are the states. -/
def Agree {α : Type} (before : String) (r r' : α × TracedMachine) : Prop :=
  ∃ result t u, r = (result, t) ∧ r' = (result, u) ∧ Prints before t u

namespace Prints

variable {before : String} {t u : TracedMachine}

theorem say (h : Prints before t u) (text : String) (room : Option Nat) :
    Prints before { t with transcript := t.transcript.say text, room := room }
      { u with transcript := u.transcript.say text, room := room } := by
  refine ⟨h.machine, h.steps, rfl, h.asked, ?_⟩
  rw [printedAll_say, h.printed, TracedMachine.output, TracedMachine.output,
    Transcript.output_say, String.append_assoc]

/-- A record is shown by neither machine: the session does not ask for it, and it is no text. -/
theorem note (h : Prints before t u) (r r' : Record) :
    Prints before { t with transcript := t.transcript.note r }
      { u with transcript := u.transcript.note r' } := by
  refine ⟨h.machine, h.steps, h.room, ?_, ?_⟩
  · rw [Transcript.asked_note, h.asked]
  · rw [Transcript.note_of_warn h.asked, h.printed, TracedMachine.output, TracedMachine.output,
      Transcript.output_note]

theorem write (h : Prints before t u) (text : String) :
    Agree before (t.write text) (u.write text) := by
  unfold TracedMachine.write
  rw [h.room]
  split
  · exact ⟨_, _, _, rfl, rfl, h.say _ _⟩
  · split
    · exact ⟨_, _, _, rfl, rfl, h.say _ _⟩
    · exact ⟨_, _, _, rfl, rfl, h.say _ _⟩

theorem writeLines (h : Prints before t u) (lines : List String) :
    Agree before (t.writeLines lines) (u.writeLines lines) := by
  induction lines generalizing t u with
  | nil => exact ⟨_, _, _, rfl, rfl, h⟩
  | cons line lines ih =>
      obtain ⟨fits, t', u', ht, hu, hwritten⟩ := h.write line
      rw [TracedMachine.writeLines, TracedMachine.writeLines, ht, hu]
      cases fits with
      | false => exact ⟨_, _, _, rfl, rfl, hwritten⟩
      | true => exact ih hwritten

theorem announce (h : Prints before t u) (i : Instruction) :
    Agree before (t.announce i) (u.announce i) := by
  have hbegun : Prints before { t with steps := t.steps + 1 } { u with steps := u.steps + 1 } :=
    ⟨h.machine, congrArg (· + 1) h.steps, h.room, h.asked, h.printed⟩
  have hlines := hbegun.writeLines (Trace.heading (u.steps + 1) u.machine.pc i)
  unfold TracedMachine.announce
  rwa [← h.steps, ← h.machine] at hlines ⊢

theorem arrive (h : Prints before t u) (i : Instruction) (next : Machine) :
    Agree before (t.arrive i next) (u.arrive i next) := by
  have hmoved : Prints before { t with machine := next } { u with machine := next } :=
    ⟨rfl, h.steps, h.room, h.asked, h.printed⟩
  exact (hmoved.note _ _).writeLines (Trace.remainder next)

theorem step (h : Prints before t u) : Agree before t.step u.step := by
  cases hi : u.machine.instruction? with
  | none =>
      have hi' : t.machine.instruction? = none := h.machine ▸ hi
      rw [TracedMachine.step_of_instruction?_eq_none hi,
        TracedMachine.step_of_instruction?_eq_none hi', h.machine]
      exact ⟨_, _, _, rfl, rfl, rfl, h.steps, h.room, h.asked, h.printed⟩
  | some i =>
      obtain ⟨fits, t', u', ht, hu, hbegun⟩ := h.announce i
      rw [TracedMachine.step, TracedMachine.step, h.machine, hi]
      simp only [ht, hu]
      cases fits with
      | false => exact ⟨_, _, _, rfl, rfl, hbegun⟩
      | true =>
          dsimp only
          rw [hbegun.machine]
          cases u'.machine.perform i with
          | error e => exact ⟨_, _, _, rfl, rfl, hbegun⟩
          | ok next =>
              obtain ⟨fits, t'', u'', ht, hu, hended⟩ := hbegun.arrive i next
              simp only [ht, hu]
              cases fits with
              | false => exact ⟨_, _, _, rfl, rfl, hended⟩
              | true => exact ⟨_, _, _, rfl, rfl, hended⟩

theorem finish (h : Prints before t u) : Agree before t.finish u.finish := by
  obtain ⟨fits, t', u', ht, hu, hclosed⟩ := h.write (Trace.closing u.machine.accumulator)
  rw [TracedMachine.finish, TracedMachine.finish, h.machine, ht, hu]
  cases fits with
  | false => exact ⟨_, _, _, rfl, rfl, hclosed⟩
  | true =>
      have hvalue : Outcome.returned (ε := TraceError) t'.machine.accumulator =
          .returned u'.machine.accumulator := by rw [hclosed.machine]
      exact ⟨_, _, _, Prod.ext hvalue rfl, rfl, hclosed.note _ _⟩

theorem advance_of_isHalted (h : Prints before t u) (hh : u.machine.isHalted = true)
    (bound : Nat) : Agree before (t.advance bound) (u.advance bound) := by
  rw [TracedMachine.advance_of_isHalted hh, TracedMachine.advance_of_isHalted (h.machine ▸ hh)]
  exact h.finish

theorem advance (h : Prints before t u) (bound : Nat) :
    Agree before (t.advance bound) (u.advance bound) := by
  induction bound generalizing t u with
  | zero =>
      by_cases hh : u.machine.isHalted = true
      · exact h.advance_of_isHalted hh 0
      · rw [TracedMachine.advance_zero_of_not_isHalted hh,
          TracedMachine.advance_zero_of_not_isHalted (h.machine ▸ hh)]
        exact ⟨_, _, _, rfl, rfl, h⟩
  | succ bound ih =>
      by_cases hh : u.machine.isHalted = true
      · exact h.advance_of_isHalted hh (bound + 1)
      · have hh' : ¬ t.machine.isHalted = true := h.machine ▸ hh
        obtain ⟨result, t', u', ht, hu, hnext⟩ := h.step
        cases result with
        | none =>
            rw [TracedMachine.advance_succ_of_none hh hu, TracedMachine.advance_succ_of_none hh' ht]
            exact ih hnext
        | some e =>
            rw [TracedMachine.advance_succ_of_some hh hu, TracedMachine.advance_succ_of_some hh' ht]
            exact ⟨_, _, _, rfl, rfl, hnext⟩

/-- A run that a session traces has the outcome of one that is traced on its own, and it prints
what that one writes. -/
theorem run (h : Prints before t u) (bound : Nat) : Agree before (t.run bound) (u.run bound) := by
  obtain ⟨fits, t', u', ht, hu, hopened⟩ := h.writeLines (Trace.opening u.machine)
  rw [TracedMachine.run, TracedMachine.run, h.machine, ht, hu]
  cases fits with
  | false => exact ⟨_, _, _, rfl, rfl, hopened⟩
  | true => exact hopened.advance bound

end Prints

/-- The session gives this response as soon as its bound is large enough. -/
def Answers (args : List String) (source : Source) (r : Response) : Prop :=
  ∃ enough, ∀ bound, enough ≤ bound → respond bound args source = r

section Answers

variable {debug : Bool} {args values : List String} {words : List Word} {source : Source}
  {p : Program} {bound : Nat} {m : Machine}

/-- A bad value is blamed, whatever the session is given to run. -/
theorem respond_of_not_isNumber {before after : List String} {bad : String}
    (hargs : Gives debug args (before ++ bad :: after))
    (hbefore : ∀ value ∈ before, IsNumber value) (hbad : ¬ IsNumber bad) (bound : Nat)
    (source : Source) : respond bound args source = ⟨some 1, invalidValueText bad⟩ := by
  rw [respond, hargs.ofArguments]
  simp [parseInput_of_not_isNumber hbefore hbad]

/-- With values that denote words the program is read and run. -/
theorem respond_of_denotes (hargs : Gives debug args values)
    (hvalues : List.Forall₂ (fun value w => Decimal.Denotes value.toList w.toInt) values words)
    (bound : Nat) (source : Source) :
    respond bound args source = runProgram bound ⟨values, debug, false, 0⟩ ⟨words⟩ source := by
  rw [respond, hargs.ofArguments]
  simp [parseInput_of_denotes hvalues]

/-- Nothing has been shown, and no details are asked for. -/
abbrev quiet : Transcript := .empty (some .warn)

theorem printedAll_quiet : printedAll quiet = "" := by
  simp [printedAll, Transcript.empty]

/-- A text that is no program is answered with its error. -/
theorem runProgram_of_error {e : AssemblyError} (h : Program.ofSource source = .error e)
    (input : Input) :
    runProgram bound ⟨values, debug, false, 0⟩ input source = ⟨some 1, e.message ++ "\n"⟩ := by
  have hquiet : quiet.noteAll source.assemblyRecords = quiet := Transcript.noteAll_of_warn rfl _
  simp only [runProgram, Options.level, hquiet, h, failed, printedAll_say, printedAll_quiet,
    String.empty_append]

/-- A program is run with its trace or without. -/
theorem runProgram_of_ok (h : Program.ofSource source = .ok p) (input : Input) :
    runProgram bound ⟨values, debug, false, 0⟩ input source =
      if debug then runDebugging bound quiet (.start p input)
      else runPlainly bound quiet (.start p input) := by
  have hquiet : quiet.noteAll source.assemblyRecords = quiet := Transcript.noteAll_of_warn rfl _
  simp only [runProgram, Options.level, hquiet, h]

/-- Without a trace the result or the error of the run is printed. -/
theorem runPlainly_quiet (bound : Nat) (m : Machine) :
    runPlainly bound quiet m =
      match (m.run bound).1 with
      | .returned value => ⟨some 0, Word.text value ++ "\n"⟩
      | .failed e => ⟨some 1, e.message ++ "\n"⟩
      | .unfinished => ⟨none, ""⟩ := by
  rw [runPlainly, Machine.runNoting_of_warn rfl]
  cases (m.run bound).1 <;>
    simp only [succeeded, failed, printedAll_say, printedAll_quiet, String.empty_append]

/-- With a trace two lines are printed, then the trace, and then the error if the run fails. -/
theorem runDebugging_quiet (bound : Nat) (m : Machine) (asked : Option Level) :
    runDebugging bound quiet m =
      match (TracedMachine.start m none (.empty asked)).run bound with
      | (.returned _, traced) => ⟨some 0, debugText ++ traced.output⟩
      | (.failed e, traced) => ⟨some 1, debugText ++ traced.output ++ (e.message ++ "\n")⟩
      | (.unfinished, traced) => ⟨none, debugText ++ traced.output⟩ := by
  have hprints : Prints debugText (.start m none (quiet.say debugText))
      (.start m none (.empty asked)) := by
    refine ⟨rfl, rfl, rfl, rfl, ?_⟩
    rw [TracedMachine.output_start, String.append_empty]
    exact (printedAll_say quiet debugText).trans (by rw [printedAll_quiet, String.empty_append])
  obtain ⟨outcome, t, u, ht, hu, hended⟩ := hprints.run bound
  rw [runDebugging, ht, hu]
  cases outcome <;> simp only [succeeded, failed, printedAll_say, hended.printed]

theorem invalidValueText_eq (bad : String) :
    invalidValueText bad = "Error : Invalid non-numeric argument " ++ bad ++
      "\nRerun with 'ram --help' to see a brief help\n" := by
  simp [invalidValueText, ofLines, String.join, String.append_assoc]

variable {final : Machine}

/-- A run that halts is answered with its result. -/
theorem answers_of_returns {value : Word}
    (hrespond : ∀ bound, respond bound args source = runPlainly bound quiet m)
    (h : m.Returns value final) : Answers args source ⟨some 0, Word.text value ++ "\n"⟩ := by
  obtain ⟨enough, hrun⟩ := h
  refine ⟨enough, fun bound hbound => ?_⟩
  rw [hrespond, runPlainly_quiet, Machine.run_of_le hbound (by rw [hrun]; nofun), hrun]

/-- A run that fails is answered with its error. -/
theorem answers_of_fails {e : RuntimeError}
    (hrespond : ∀ bound, respond bound args source = runPlainly bound quiet m)
    (h : m.Fails e final) : Answers args source ⟨some 1, e.message ++ "\n"⟩ := by
  obtain ⟨enough, hrun⟩ := h
  refine ⟨enough, fun bound hbound => ?_⟩
  rw [hrespond, runPlainly_quiet, Machine.run_of_le hbound (by rw [hrun]; nofun), hrun]

/-- The trace of a run that halts is printed as it is. -/
theorem answers_of_traced_returns {value : Word} (asked : Option Level)
    (hrespond : ∀ bound, respond bound args source = runDebugging bound quiet m)
    (h : m.Returns value final) :
    ∃ t, (TracedMachine.start m none (.empty asked)).Returns value t ∧
      Answers args source ⟨some 0, debugText ++ t.output⟩ := by
  obtain ⟨t, ⟨enough, hrun⟩, _⟩ :=
    (TracedMachine.returns_iff_of_room_eq_none (t := .start m none (.empty asked)) rfl).mpr h
  refine ⟨t, ⟨enough, hrun⟩, enough, fun bound hbound => ?_⟩
  rw [hrespond, runDebugging_quiet bound m asked,
    TracedMachine.run_of_le hbound (by rw [hrun]; nofun), hrun]

/-- The trace of a run that fails is printed as it is, and then the error. -/
theorem answers_of_traced_fails {e : RuntimeError} (asked : Option Level)
    (hrespond : ∀ bound, respond bound args source = runDebugging bound quiet m)
    (h : m.Fails e final) :
    ∃ t, (TracedMachine.start m none (.empty asked)).Fails (.runtime e) t ∧
      Answers args source ⟨some 1, debugText ++ t.output ++ (e.message ++ "\n")⟩ := by
  obtain ⟨t, ⟨enough, hrun⟩, _⟩ :=
    (TracedMachine.fails_iff_of_room_eq_none (t := .start m none (.empty asked)) rfl).mpr
      ⟨e, rfl, h⟩
  refine ⟨t, ⟨enough, hrun⟩, enough, fun bound hbound => ?_⟩
  rw [hrespond, runDebugging_quiet bound m asked,
    TracedMachine.run_of_le hbound (by rw [hrun]; nofun), hrun]
  rfl

end Answers

/-- If a value is bad, a session blames the first one in two lines. If all values denote words, it
prints the error of a text that is no program, the result of a run that halts, or the error of a run
that fails. With the option for debugging it exits with the same code, and it prints two lines, the
trace of the run, and the error if the run fails, unless a value is bad or the text no program. -/
theorem sessions_tell_the_truth {args debugArgs values : List String}
    (hargs : Gives false args values) (hdebug : Gives true debugArgs values) (source : Source)
    (asked : Option Level) :
    (∀ before bad after, values = before ++ bad :: after →
      (∀ value ∈ before, IsNumber value) → ¬ IsNumber bad →
        ∀ bound, ∀ command ∈ [args, debugArgs], respond bound command source =
          ⟨some 1, "Error : Invalid non-numeric argument " ++ bad ++
            "\nRerun with 'ram --help' to see a brief help\n"⟩) ∧
    ((∀ value ∈ values, IsNumber value) → ∃ words : List Word,
      List.Forall₂ (fun value w => Decimal.Denotes value.toList w.toInt) values words ∧
      (∀ e, Program.ofSource source = .error e → ∀ bound, ∀ command ∈ [args, debugArgs],
        respond bound command source = ⟨some 1, e.message ++ "\n"⟩) ∧
      ∀ p, Program.ofSource source = .ok p →
        let m := Machine.start p ⟨words⟩
        let traced := TracedMachine.start m none (.empty asked)
        let heading := ">>> Debugging mode <<<\n-----------------------\n"
        (∀ value final, m.Returns value final →
          Answers args source ⟨some 0, Word.text value ++ "\n"⟩ ∧
          ∃ t, traced.Returns value t ∧ Answers debugArgs source ⟨some 0, heading ++ t.output⟩) ∧
        ∀ e final, m.Fails e final →
          Answers args source ⟨some 1, e.message ++ "\n"⟩ ∧
          ∃ t, traced.Fails (.runtime e) t ∧
            Answers debugArgs source ⟨some 1, heading ++ t.output ++ (e.message ++ "\n")⟩) := by
  constructor
  · rintro before bad after rfl hbefore hbad bound command hcommand
    obtain ⟨debug, hgives⟩ : ∃ debug, Gives debug command (before ++ bad :: after) := by
      obtain rfl | rfl : command = args ∨ command = debugArgs := by simpa using hcommand
      · exact ⟨_, hargs⟩
      · exact ⟨_, hdebug⟩
    rw [respond_of_not_isNumber hgives hbefore hbad, invalidValueText_eq]
  · intro hnumbers
    obtain ⟨words, hwords⟩ := exists_denotes hnumbers
    have hrespond (bound : Nat) := respond_of_denotes hargs hwords bound source
    have hrespond' (bound : Nat) := respond_of_denotes hdebug hwords bound source
    refine ⟨words, hwords, ?_, ?_⟩
    · intro e he bound command hcommand
      obtain rfl | rfl : command = args ∨ command = debugArgs := by simpa using hcommand
      · rw [hrespond, runProgram_of_error he]
      · rw [hrespond', runProgram_of_error he]
    · intro p hp
      have hplain (bound : Nat) := (hrespond bound).trans (runProgram_of_ok hp ⟨words⟩)
      have htraced (bound : Nat) := (hrespond' bound).trans (runProgram_of_ok hp ⟨words⟩)
      constructor
      · intro value final h
        exact ⟨answers_of_returns hplain h, answers_of_traced_returns asked htraced h⟩
      · intro e final h
        exact ⟨answers_of_fails hplain h, answers_of_traced_fails asked htraced h⟩

/-- A run that fails on two signed values, the second of them behind the option for debugging, and
a value that is no number behind one that is. -/
theorem sessions_tell_the_truth_of_missing_input :
    let s := Source.ofString "READ 3"
    let i : Instruction := ⟨.read, .direct 3, 1⟩
    let m := Machine.start (.ofList [i]) ⟨[-7, 3]⟩
    let e : RuntimeError := ⟨.noInputRegister 3 2, i⟩
    let heading := ">>> Debugging mode <<<\n-----------------------\n"
    Gives false ["-7", "+3"] ["-7", "+3"] ∧ Gives true ["-7", "-d", "+3"] ["-7", "+3"] ∧
      (∀ value ∈ ["-7", "+3"], IsNumber value) ∧ Program.ofSource s = .ok (.ofList [i]) ∧
      m.Fails e m ∧ Answers ["-7", "+3"] s ⟨some 1, e.message ++ "\n"⟩ ∧
      (∃ t, (TracedMachine.start m none (.empty none)).Fails (.runtime e) t ∧
        Answers ["-7", "-d", "+3"] s ⟨some 1, heading ++ t.output ++ (e.message ++ "\n")⟩) ∧
      Gives false ["--", "7", "-"] ["7", "-"] ∧ Gives true ["-d", "--", "7", "-"] ["7", "-"] ∧
      IsNumber "7" ∧ ¬ IsNumber "-" ∧
      respond 0 ["-d", "--", "7", "-"] s =
        ⟨some 1, "Error : Invalid non-numeric argument " ++ "-" ++
          "\nRerun with 'ram --help' to see a brief help\n"⟩ := by
  intro s i m e heading
  have hargs : Gives false ["-7", "+3"] ["-7", "+3"] :=
    .value (by decide) (.value (by decide) .nil)
  have hdebug : Gives true ["-7", "-d", "+3"] ["-7", "+3"] :=
    .value (by decide) (.debug (.inl rfl) (.value (by decide) .nil))
  have hdigit {c : Char} (h : c.isDigit = true) : Decimal.IsDigits [c] := ⟨nofun, by simpa using h⟩
  have hseven : IsNumber "7" := ⟨7, .unsigned (hdigit rfl), by decide⟩
  have hnumbers : ∀ value ∈ ["-7", "+3"], IsNumber value := by
    have hminus : IsNumber "-7" := ⟨-7, .minus (hdigit rfl), by decide⟩
    have hplus : IsNumber "+3" := ⟨3, .plus (hdigit rfl), by decide⟩
    simp [hminus, hplus]
  have hhyphen : ¬ IsNumber "-" := fun h => by
    obtain ⟨w, hw⟩ := exists_parseValue?_of_isNumber h
    have hnone : parseValue? "-" = none := by decide
    simp [hnone] at hw
  have hok : Program.ofSource s = .ok (.ofList [i]) := by cbv
  have hfails : m.Fails e m := ⟨1, rfl⟩
  obtain ⟨words, hwords, _, hrun⟩ := (sessions_tell_the_truth hargs hdebug s none).2 hnumbers
  have hinput : (parseInput ["-7", "+3"]) = .ok ⟨[-7, 3]⟩ := by decide
  obtain rfl : words = [-7, 3] := by
    simpa using (parseInput_of_denotes hwords).symm.trans hinput
  obtain ⟨hanswer, htrace⟩ := (hrun _ hok).2 e m hfails
  have hhyphens : Gives false ["--", "7", "-"] ["7", "-"] := .hyphens ["7", "-"]
  have hhyphens' : Gives true ["-d", "--", "7", "-"] ["7", "-"] := .debug (.inl rfl) hhyphens
  have hbad := (sessions_tell_the_truth hhyphens hhyphens' s none).1 ["7"] "-" [] rfl
    (by simpa using hseven) hhyphen 0 ["-d", "--", "7", "-"] (by simp)
  exact ⟨hargs, hdebug, hnumbers, hok, hfails, hanswer, htrace, hhyphens, hhyphens', hseven,
    hhyphen, hbad⟩

end CommandLine

end RandomAccessMachine
