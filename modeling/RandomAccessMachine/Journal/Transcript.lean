import RandomAccessMachine.Journal.Record
import RandomAccessMachine.Machine.Run

/-!
# Transcripts

A transcript holds what has been shown so far, in order: texts that were
written and records that the log shows. Only the records up to the level that
the log asks for enter it.
-/

namespace RandomAccessMachine

/-- Something that is shown. -/
inductive Entry
  | text (text : String)
  | record (record : Record)
  deriving DecidableEq

/-- What has been shown so far. -/
structure Transcript where
  /-- The level that the log asks for, or none when it is off. -/
  asked : Option Level
  entries : Array Entry
  deriving DecidableEq

namespace Transcript

/-- Nothing has been shown so far. -/
def empty (asked : Option Level) : Transcript := ⟨asked, #[]⟩

/-- Show a text. -/
def say (t : Transcript) (text : String) : Transcript :=
  { t with entries := t.entries.push (.text text) }

/-- Show a record, if the log asks for its level. -/
def note (t : Transcript) (r : Record) : Transcript :=
  if r.level.isShownAt t.asked then { t with entries := t.entries.push (.record r) } else t

/-- Show records one after the other. -/
def noteAll (t : Transcript) (rs : List Record) : Transcript := rs.foldl note t

/-- All texts together. -/
def output (t : Transcript) : String :=
  t.entries.foldl (fun out entry =>
    match entry with
    | .text text => out ++ text
    | .record _ => out) ""

/-- All records. -/
def records (t : Transcript) : List Record :=
  t.entries.toList.filterMap fun
    | .record r => some r
    | .text _ => none

@[simp] theorem asked_say (t : Transcript) (s : String) : (t.say s).asked = t.asked := rfl

@[simp] theorem asked_note (t : Transcript) (r : Record) : (t.note r).asked = t.asked := by
  unfold note
  split <;> rfl

@[simp] theorem output_say (t : Transcript) (s : String) : (t.say s).output = t.output ++ s := by
  simp [say, output]

@[simp] theorem output_note (t : Transcript) (r : Record) : (t.note r).output = t.output := by
  unfold note
  split <;> simp [output]

@[simp] theorem records_say (t : Transcript) (s : String) : (t.say s).records = t.records := by
  simp [say, records]

theorem records_note (t : Transcript) (r : Record) :
    (t.note r).records = t.records ++ if r.level.isShownAt t.asked then [r] else [] := by
  unfold note
  split <;> simp [records]

end Transcript

/-- Run the machine as `run` does, and note each executed instruction and the result. -/
def Machine.runNoting (bound : Nat) (t : Transcript) (m : Machine) :
    Outcome RuntimeError × Machine × Transcript :=
  if m.isHalted then (.returned m.accumulator, m, t.note (.terminated m.accumulator))
  else
    match bound with
    | 0 => (.unfinished, m, t)
    | bound + 1 =>
        match m.step with
        | .error e => (.failed e, m, t)
        | .ok next =>
            runNoting bound
              (match m.instruction? with
                | some i => t.note (i.record m next)
                | none => t) next

/-- Noting changes neither the outcome nor the machine. -/
theorem Machine.runNoting_run (bound : Nat) (t : Transcript) (m : Machine) :
    ((m.runNoting bound t).1, (m.runNoting bound t).2.1) = m.run bound := by
  induction bound generalizing t m with
  | zero => by_cases h : m.isHalted <;> simp [runNoting, run, h]
  | succ bound ih =>
      by_cases h : m.isHalted
      · simp [runNoting, run, h]
      · cases hs : m.step with
        | error e => simp [runNoting, run, h, hs]
        | ok next => simp [runNoting, run, h, hs, ih]

end RandomAccessMachine
