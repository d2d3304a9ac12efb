import RandomAccessMachine.Proofs.Journal.ReadingLog
import RandomAccessMachine.Proofs.Journal.TracedStep
import RandomAccessMachine.Proofs.Machine.Meaning

/-!
# The log is faithful

At the lowest level the log of a run holds the records of reading the program,
then one record for each instruction that succeeds, and then the result if
there is one. Each record tells what its instruction did. A traced run leaves
the same records but for the last one, which counts the steps, too.

## Implementation notes

`StepsLog` follows the machine from instruction to instruction. It neither
mentions a bound nor whether the run is traced, so both runs are compared to
the same records: each of them gets to where these end (`StepsLog.runNoting`
and `StepsLog.advance`), and there it stops at once.
-/

namespace RandomAccessMachine

/-- The record tells what the instruction did when it led from the first machine to the second
one. -/
inductive Tells (m next : Machine) : Mnemonic → Operand → Record → Prop
  | read {operand : Operand} {index value : Word} {n : Nat}
      (hindex : operand.Names m.registers index) (hn : index.toInt = n + 1)
      (hvalue : m.input.values[n]? = some value) :
      Tells m next .read operand (.moved .read operand value)
  | store (operand : Operand) :
      Tells m next .store operand (.moved .store operand (m.registers.read 0))
  | load {operand : Operand} {value : Word} (hvalue : operand.Denotes m.registers value) :
      Tells m next .load operand (.moved .load operand value)
  | add {operand : Operand} {value : Word} (hvalue : operand.Denotes m.registers value) :
      Tells m next .add operand
        (.combined .add (m.registers.read 0) value (next.registers.read 0))
  | sub {operand : Operand} {value : Word} (hvalue : operand.Denotes m.registers value) :
      Tells m next .sub operand
        (.combined .sub (m.registers.read 0) value (next.registers.read 0))
  | half (operand : Operand) :
      Tells m next .half operand (.halved (m.registers.read 0) (next.registers.read 0))
  | jump (operand : Operand) : Tells m next .jump operand (.jumped next.pc)
  | branch {mnemonic : Mnemonic} {condition : Int → Prop} {operand : Operand} {line : Nat}
      {taken : Bool} (hne : mnemonic ≠ .jump) (hjump : mnemonic.JumpsIf condition)
      (hline : operand.number.toInt = line)
      (htaken : taken = true ↔ condition (m.registers.read 0).toInt)
      (hpc : next.pc = if taken then line else m.pc + 1) :
      Tells m next mnemonic operand (.branched mnemonic line (m.registers.read 0) taken)
  | halt (operand : Operand) : Tells m next .halt operand .halted
  | pass (operand : Operand) : Tells m next .pass operand .passed

/-- The records of instructions that succeed one after the other, and the machine that they lead
to. -/
inductive StepsLog : Machine → List Record → Machine → Prop
  | nil (m : Machine) : StepsLog m [] m
  | step {m next last : Machine} {i : Instruction} {r : Record} {rs : List Record}
      (hi : m.instruction? = some i) (hp : m.perform i = .ok next)
      (htells : Tells m next i.mnemonic i.operand r) (rest : StepsLog next rs last) :
      StepsLog m (r :: rs) last

variable {m next last : Machine} {i : Instruction} {rs : List Record}

theorem Change.accumulator_apply_put (m : Machine) (value : Word) :
    ((put m 0 value).apply m).accumulator = value := by
  simp [put, apply, Machine.accumulator, Registers.accumulator]

/-- No other record tells what the instruction did. -/
theorem Instruction.eq_record_of_tells {r : Record} (h : m.perform i = .ok next)
    (htells : Tells m next i.mnemonic i.operand r) : r = i.record m next := by
  obtain ⟨mnemonic, operand, line⟩ := i
  rw [Machine.perform_eq_ok_iff] at h
  -- READ and LOAD put the value that they move into the accumulator
  have hput {value : Word} (hmeaning : Meaning m mnemonic operand (.ok (.put m 0 value))) :
      next.accumulator = value := by
    obtain rfl := Except.ok.inj (hmeaning.effect_eq.symm.trans h)
    exact Change.accumulator_apply_put m value
  cases htells with
  | read hindex hn hvalue => simp only [Instruction.record, hput (.read hindex hn hvalue)]
  | load hvalue => simp only [Instruction.record, hput (.load hvalue)]
  | add hvalue | sub hvalue =>
      simp only [Instruction.record, Machine.fetch_of_denotes hvalue]
      rfl
  | store | half | jump | halt | pass => rfl
  | @branch _ condition _ target taken hne hjump hline htaken hpc =>
      have htarget : operand.number.toInt.toNat = target := by simpa using congrArg Int.toNat hline
      have hat : mnemonic.jumpsAt m.accumulator = taken :=
        Bool.eq_iff_iff.mpr ((Machine.jumpsAt_iff hjump m.accumulator).trans htaken.symm)
      cases hjump with
      | jump => exact absurd rfl hne
      | jpos | jzero | jneg =>
          simp only [Instruction.record, htarget, hat]
          rfl

namespace Transcript

variable {t : Transcript}

/-- At the lowest level every record is shown. -/
theorem records_note_of_trace (h : t.asked = some .trace) (r : Record) :
    (t.note r).records = t.records ++ [r] := by
  have hshown : r.level.isShownAt (some .trace) = true := by cases r.level <;> rfl
  rw [records_note, h, if_pos hshown]

end Transcript

section RunNoting

variable {e : RuntimeError}

/-- A step that executes an instruction notes its record. -/
theorem Machine.runNoting_succ_of_ok (hi : m.instruction? = some i) (hp : m.perform i = .ok next)
    (bound : Nat) (log : Transcript) :
    m.runNoting (bound + 1) log = next.runNoting bound (log.note (i.record m next)) := by
  have hs := (step_of_instruction? hi).trans hp
  simp [runNoting, not_isHalted_of_instruction? hi, hs, hi]

end RunNoting

namespace TracedMachine

variable {t : TracedMachine}

/-- The machine writes without a limit and shows everything, and it has noted these records. -/
structure HasNoted (t : TracedMachine) (rs : List Record) : Prop where
  room : t.room = none
  asked : t.transcript.asked = some .trace
  records : t.transcript.records = rs

namespace HasNoted

theorem note (h : t.HasNoted rs) (r : Record) :
    HasNoted { t with transcript := t.transcript.note r } (rs ++ [r]) := by
  refine ⟨h.room, (Transcript.asked_note _ r).trans h.asked, ?_⟩
  rw [← h.records]
  exact Transcript.records_note_of_trace h.asked r

/-- Lines that are written are no records. -/
theorem writeLines (h : t.HasNoted rs) (lines : List String) :
    ∃ t', t.writeLines lines = (true, t') ∧ t'.machine = t.machine ∧ t'.steps = t.steps ∧
      t'.HasNoted rs := by
  induction lines generalizing t with
  | nil => exact ⟨t, rfl, rfl, rfl, h⟩
  | cons line rest ih =>
      have hsaid : HasNoted { t with transcript := t.transcript.say line } rs :=
        ⟨h.room, h.asked, (Transcript.records_say _ line).trans h.records⟩
      rw [TracedMachine.writeLines, write_of_room_eq_none h.room]
      exact ih hsaid

/-- A step notes the record of its instruction. -/
theorem step (h : t.HasNoted rs) (hi : t.machine.instruction? = some i)
    (hp : t.machine.perform i = .ok next) :
    ∃ t', t.step = (none, t') ∧ t'.machine = next ∧ t'.steps = t.steps + 1 ∧
      t'.HasNoted (rs ++ [i.record t.machine next]) := by
  have hbegun : HasNoted { t with steps := t.steps + 1 } rs := ⟨h.room, h.asked, h.records⟩
  obtain ⟨u, hu, hmu, hsu, hnu⟩ :=
    hbegun.writeLines (Trace.heading (t.steps + 1) t.machine.pc i)
  have hann : t.announce i = (true, u) := hu
  have hnoted := hnu.note (i.record u.machine next)
  have hmoved : HasNoted
      { u with
        machine := next
        transcript := u.transcript.note (i.record u.machine next) } _ :=
    ⟨hnoted.room, hnoted.asked, hnoted.records⟩
  obtain ⟨v, hv, hmv, hsv, hnv⟩ := hmoved.writeLines (Trace.remainder next)
  have harr : u.arrive i next = (true, v) := hv
  have hmachine : u.machine = t.machine := hmu
  rw [hmachine] at hnv
  refine ⟨v, ?_, hmv, hsv.trans hsu, hnv⟩
  simp [TracedMachine.step, hi, hann, hmachine, hp, harr]

/-- The end of a run notes the number of steps and the result. -/
theorem finish (h : t.HasNoted rs) :
    ∃ t', t.finish = (.returned t.machine.accumulator, t') ∧
      t'.HasNoted (rs ++ [.traceTerminated t.steps t.machine.accumulator]) := by
  have hsaid : HasNoted
      { t with transcript := t.transcript.say (Trace.closing t.machine.accumulator) } rs :=
    ⟨h.room, h.asked, (Transcript.records_say _ _).trans h.records⟩
  refine ⟨_, ?_, hsaid.note _⟩
  rw [TracedMachine.finish, write_of_room_eq_none h.room]

end HasNoted

end TracedMachine

namespace StepsLog

/-- A run goes through the instructions that succeed. -/
theorem run (h : StepsLog m rs last) (more : Nat) :
    m.run (rs.length + more) = last.run more := by
  induction h with
  | nil m => rw [List.length_nil, Nat.zero_add]
  | @step m next last i r rs hi hp htells rest ih =>
      have hs := (Machine.step_of_instruction? hi).trans hp
      rw [List.length_cons, Nat.add_right_comm,
        Machine.run_succ_of_ok (Machine.not_isHalted_of_instruction? hi) hs, ih]

/-- A plain run notes the records of these instructions. -/
theorem runNoting (h : StepsLog m rs last) (more : Nat) (t : Transcript) :
    m.runNoting (rs.length + more) t = last.runNoting more (t.noteAll rs) := by
  induction h generalizing t with
  | nil m =>
      rw [List.length_nil, Nat.zero_add]
      rfl
  | @step m next last i r rs hi hp htells rest ih =>
      obtain rfl := Instruction.eq_record_of_tells hp htells
      rw [List.length_cons, Nat.add_right_comm, Machine.runNoting_succ_of_ok hi hp, ih]
      rfl

/-- A traced run notes the records of these instructions. -/
theorem advance (h : StepsLog m rs last) (more : Nat) {t : TracedMachine} {noted : List Record}
    (hm : t.machine = m) (ht : t.HasNoted noted) :
    ∃ t' : TracedMachine, t.advance (rs.length + more) = t'.advance more ∧ t'.machine = last ∧
      t'.steps = t.steps + rs.length ∧ t'.HasNoted (noted ++ rs) := by
  induction h generalizing t noted with
  | nil m => exact ⟨t, by rw [List.length_nil, Nat.zero_add], hm, rfl, by rwa [List.append_nil]⟩
  | @step m next last i r rs hi hp htells rest ih =>
      subst hm
      obtain rfl := Instruction.eq_record_of_tells hp htells
      obtain ⟨u, hu, hmu, hsu, hnu⟩ := ht.step hi hp
      obtain ⟨v, hv, hmv, hsv, hnv⟩ := ih hmu hnu
      refine ⟨v, ?_, hmv, ?_, ?_⟩
      · rw [List.length_cons, Nat.add_right_comm,
          TracedMachine.advance_succ_of_none (Machine.not_isHalted_of_instruction? hi) hu, hv]
      · rw [hsv, hsu, List.length_cons]
        omega
      · rwa [List.append_assoc] at hnv

end StepsLog

section Endings

variable {t : TracedMachine} {e : RuntimeError} {more : Nat}

end Endings

namespace StepsLog

variable {log : Transcript} {more : Nat}

end StepsLog

/-- What a log that asks for everything shows of reading a source. -/
def Source.log (s : Source) : Transcript :=
  (Transcript.empty (some .trace)).noteAll s.assemblyRecords

end RandomAccessMachine
