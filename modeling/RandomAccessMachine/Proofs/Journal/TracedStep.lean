import RandomAccessMachine.Journal.TracedMachine

/-!
# What a traced step can do

A text that is written either is taken as a whole or fills the room that is
left. `step_cases` says what a step does to the machine and to the text: there
are four ways for it to go, by where the room ends and whether the instruction
fails.

## Implementation notes

Texts are compared as lists of characters, so that lengths and cuts are those
of lists.
-/

namespace RandomAccessMachine

/-- The characters of lines that follow each other. -/
def Trace.chars (lines : List String) : List Char := lines.flatMap String.toList

namespace TracedMachine

/-- The second machine has written a text that fitted behind what the first one has written. -/
structure Takes (t t' : TracedMachine) (text : List Char) : Prop where
  fits : ∀ room ∈ t.room, text.length ≤ room
  room : t'.room = t.room.map (· - text.length)
  output : t'.output.toList = t.output.toList ++ text

/-- The second machine has written as much of a text as the first one had room for, but not all. -/
def Fills (t t' : TracedMachine) (text : List Char) : Prop :=
  ∃ room, t.room = some room ∧ room < text.length ∧
    t'.output.toList = t.output.toList ++ text.take room

theorem Takes.append {t u v : TracedMachine} {a b : List Char} (hu : t.Takes u a)
    (hv : u.Takes v b) : t.Takes v (a ++ b) := by
  refine ⟨?_, ?_, ?_⟩
  · intro room hroom
    have ha := hu.fits room hroom
    have hb := hv.fits (room - a.length) (by simp [hu.room, Option.mem_def.mp hroom])
    rw [List.length_append]
    omega
  · rw [hv.room, hu.room, Option.map_map]
    congr 1
    funext room
    simp [Nat.sub_sub]
  · rw [hv.output, hu.output, List.append_assoc]

/-- A text that fills the room does so as well behind a text that fitted. -/
theorem Takes.append_fills {t u v : TracedMachine} {a b : List Char} (hu : t.Takes u a)
    (hv : u.Fills v b) : t.Fills v (a ++ b) := by
  obtain ⟨rest, hrest, hlt, hout⟩ := hv
  rw [hu.room] at hrest
  obtain ⟨room, hroom, rfl⟩ := Option.map_eq_some_iff.mp hrest
  have ha := hu.fits room hroom
  refine ⟨room, hroom, by rw [List.length_append]; omega, ?_⟩
  rw [hout, hu.output, List.append_assoc, List.take_append, List.take_of_length_le ha]

theorem Fills.append {t u : TracedMachine} {a : List Char} (hu : t.Fills u a) (b : List Char) :
    t.Fills u (a ++ b) := by
  obtain ⟨room, hroom, hlt, hout⟩ := hu
  refine ⟨room, hroom, by rw [List.length_append]; omega, ?_⟩
  rw [hout, List.take_append_of_le_length (by omega)]

theorem Takes.room_eq_none {t t' : TracedMachine} {text : List Char} (ht : t.Takes t' text)
    (h : t.room = none) : t'.room = none := by
  rw [ht.room, h]
  rfl

/-- Without a limit no text fills the room. -/
theorem not_fills_of_room_eq_none {t t' : TracedMachine} (h : t.room = none)
    (text : List Char) : ¬ t.Fills t' text := by
  intro hgiven
  obtain ⟨room, hroom, _⟩ := hgiven
  simp [h] at hroom

/-- A text is taken or fills the room, and the machine stays as it is. -/
theorem write_cases (t : TracedMachine) (text : String) :
    (∃ t', t.write text = (true, t') ∧ t'.machine = t.machine ∧ t'.steps = t.steps ∧
      t.Takes t' text.toList) ∨
    ∃ t', t.write text = (false, t') ∧ t'.machine = t.machine ∧ t.Fills t' text.toList := by
  have hout (s : String) (room : Option Nat) :
      ({ t with transcript := t.transcript.say s, room := room } : TracedMachine).output.toList =
        t.output.toList ++ s.toList := by
    simp [output]
  cases hroom : t.room with
  | none =>
      left
      refine ⟨_, write_of_room_eq_none hroom text, rfl, rfl, by simp [hroom], by simp [hroom], ?_⟩
      exact hout text t.room
  | some room =>
      by_cases hfit : text.length ≤ room
      · left
        refine ⟨{ t with transcript := t.transcript.say text, room := some (room - text.length) },
          by simp [write, hroom, hfit], rfl, rfl, ?_, ?_, hout text _⟩
        · intro r hr
          rw [hroom, Option.mem_some_iff] at hr
          simpa [← hr, String.length_toList] using hfit
        · simp [hroom, String.length_toList]
      · right
        refine ⟨{ t with
            transcript := t.transcript.say (String.ofList (text.toList.take room))
            room := some 0 }, by simp [write, hroom, hfit], rfl, room, hroom, ?_, ?_⟩
        · simpa [String.length_toList] using hfit
        · rw [hout, String.toList_ofList]

/-- Lines are taken as a whole, or the first of them that does not fit fills the room. -/
theorem writeLines_cases (t : TracedMachine) (lines : List String) :
    (∃ t', t.writeLines lines = (true, t') ∧ t'.machine = t.machine ∧ t'.steps = t.steps ∧
      t.Takes t' (Trace.chars lines)) ∨
    ∃ t', t.writeLines lines = (false, t') ∧ t'.machine = t.machine ∧
      t.Fills t' (Trace.chars lines) := by
  induction lines generalizing t with
  | nil =>
      left
      refine ⟨t, rfl, rfl, rfl, by simp [Trace.chars], ?_, by simp [Trace.chars]⟩
      cases t.room <;> simp [Trace.chars]
  | cons line rest ih =>
      simp only [writeLines, Trace.chars, List.flatMap_cons] at ih ⊢
      obtain ⟨u, hu, hmu, hsu, htu⟩ | ⟨u, hu, hmu, hfu⟩ := t.write_cases line
      · rw [hu]
        obtain ⟨v, hv, hmv, hsv, htv⟩ | ⟨v, hv, hmv, hfv⟩ := ih u
        · exact .inl ⟨v, hv, hmv.trans hmu, hsv.trans hsu, htu.append htv⟩
        · exact .inr ⟨v, hv, hmv.trans hmu, htu.append_fills hfv⟩
      · rw [hu]
        exact .inr ⟨u, rfl, hmu, hfu.append _⟩

/-- A step at a place without an instruction halts the machine and writes nothing. -/
theorem step_of_instruction?_eq_none {t : TracedMachine} (h : t.machine.instruction? = none) :
    t.step = (none, { t with machine := t.machine.halt }) := by
  simp [step, h, Machine.step_of_instruction?_eq_none h]

/-- A step at an instruction: its heading does not fit; or the instruction fails behind its
heading; or the machine moves on and the rest of the block does not fit; or all of it fits. -/
theorem step_cases {t : TracedMachine} {i : Instruction} (h : t.machine.instruction? = some i) :
    let heading := Trace.chars (Trace.heading (t.steps + 1) t.machine.pc i)
    (∃ t', t.step = (some .full, t') ∧ t'.machine = t.machine ∧ t.Fills t' heading) ∨
    (∃ e t', t.machine.perform i = .error e ∧ t.step = (some (.runtime e), t') ∧
      t'.machine = t.machine ∧ t.Takes t' heading) ∨
    (∃ next t', t.machine.perform i = .ok next ∧ t.step = (some .full, t') ∧
      t'.machine = next ∧ (∀ room ∈ t.room, heading.length ≤ room) ∧
      t.Fills t' (heading ++ Trace.chars (Trace.remainder next))) ∨
    ∃ next t', t.machine.perform i = .ok next ∧ t.step = (none, t') ∧
      t'.machine = next ∧ t'.steps = t.steps + 1 ∧
      t.Takes t' (heading ++ Trace.chars (Trace.remainder next)) := by
  intro heading
  let begun : TracedMachine := { t with steps := t.steps + 1 }
  rcases begun.writeLines_cases (Trace.heading (t.steps + 1) t.machine.pc i) with
    ⟨u, hu, hmu, hsu, htu⟩ | ⟨u, hu, hmu, hfu⟩
  · have hann : t.announce i = (true, u) := hu
    have hheading : t.Takes u heading := ⟨htu.fits, htu.room, htu.output⟩
    cases hp : t.machine.perform i with
    | error e =>
        refine .inr (.inl ⟨e, u, rfl, ?_, hmu, hheading⟩)
        simp [step, h, hann, hmu, begun, hp]
    | ok next =>
        let moved : TracedMachine :=
          { u with
            machine := next
            transcript := u.transcript.note (i.record u.machine next) }
        have hmoved : moved.output = u.output := Transcript.output_note _ _
        rcases moved.writeLines_cases (Trace.remainder next) with
          ⟨v, hv, hmv, hsv, htv⟩ | ⟨v, hv, hmv, hfv⟩
        · have harr : u.arrive i next = (true, v) := hv
          have hrest : u.Takes v (Trace.chars (Trace.remainder next)) :=
            ⟨htv.fits, htv.room, by rw [htv.output, hmoved]⟩
          refine .inr (.inr (.inr ⟨next, v, rfl, ?_, hmv, hsv.trans hsu, hheading.append hrest⟩))
          simp [step, h, hann, hmu, begun, hp, harr]
        · have harr : u.arrive i next = (false, v) := hv
          have hrest : u.Fills v (Trace.chars (Trace.remainder next)) := by
            obtain ⟨room, hroom, hlt, hout⟩ := hfv
            exact ⟨room, hroom, hlt, by rw [hout, hmoved]⟩
          refine .inr (.inr (.inl ⟨next, v, rfl, ?_, hmv, hheading.fits,
            hheading.append_fills hrest⟩))
          simp [step, h, hann, hmu, begun, hp, harr]
  · have hann : t.announce i = (false, u) := hu
    refine .inl ⟨u, ?_, hmu, hfu⟩
    simp [step, h, hann]

section Advance

variable {t t' : TracedMachine}

theorem advance_of_isHalted (h : t.machine.isHalted) (bound : Nat) :
    t.advance bound = t.finish := by
  cases bound <;> simp [advance, h]

theorem advance_zero_of_not_isHalted (h : ¬ t.machine.isHalted) :
    t.advance 0 = (.unfinished, t) := by
  simp [advance, h]

theorem advance_succ_of_none (h : ¬ t.machine.isHalted) (hs : t.step = (none, t'))
    (bound : Nat) : t.advance (bound + 1) = t'.advance bound := by
  simp [advance, h, hs]

theorem advance_succ_of_some {e : TraceError} (h : ¬ t.machine.isHalted)
    (hs : t.step = (some e, t')) (bound : Nat) : t.advance (bound + 1) = (.failed e, t') := by
  simp [advance, h, hs]

end Advance

end TracedMachine

end RandomAccessMachine
