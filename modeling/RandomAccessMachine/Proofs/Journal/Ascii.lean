import RandomAccessMachine.Proofs.Journal.FullTrace
import RandomAccessMachine.Proofs.Text.Utf8

/-!
# Traces are written in ASCII

Every text that a tracer writes consists of ASCII characters, so its bytes are
its characters, and the room for characters is room for bytes.
-/

namespace RandomAccessMachine

/-- Every character of the text is an ASCII character. -/
def Ascii (text : String) : Prop := ∀ c ∈ text.toList, c.toNat < 128

instance (text : String) : Decidable (Ascii text) :=
  decidable_of_decidable_of_iff
    (p := text.toList.all (fun c => decide (c.toNat < 128)) = true) (by simp [Ascii])

namespace Ascii

theorem append {a b : String} (ha : Ascii a) (hb : Ascii b) : Ascii (a ++ b) := by
  intro c hc
  rw [String.toList_append, List.mem_append] at hc
  exact hc.elim (ha c) (hb c)

theorem intercalate {separator : String} {texts : List String} (hs : Ascii separator)
    (ht : ∀ text ∈ texts, Ascii text) : Ascii (separator.intercalate texts) := by
  induction texts with
  | nil => simp [Ascii]
  | cons text rest ih =>
      have htext := ht text (by simp)
      cases rest with
      | nil => simpa using htext
      | cons next rest =>
          rw [String.intercalate_cons_cons]
          have hrest : Ascii (separator.intercalate (next :: rest)) :=
            ih fun t h => ht t (by simp [h])
          exact (htext.append hs).append hrest

theorem natural (n : Nat) : Ascii (Decimal.natural n) := by
  intro c hc
  have hdigit : 48 ≤ c.toNat ∧ c.toNat ≤ 57 :=
    Char.isDigit_iff_toNat.mp (Decimal.isDigit_of_mem_natural hc)
  omega

theorem word (w : Word) : Ascii (Word.text w) := by
  unfold Word.text Decimal.integer
  split
  · exact natural _
  · exact append (by decide) (natural _)

theorem inputText (input : Input) : Ascii input.text := by
  refine append (append (by decide) (intercalate (by decide) ?_)) (by decide)
  intro text htext
  obtain ⟨w, _, rfl⟩ := List.mem_map.mp htext
  exact word w

theorem registersText (r : Registers) : Ascii r.text := by
  refine append (append (by decide) (intercalate (by decide) ?_)) (by decide)
  intro text htext
  obtain ⟨e, _, rfl⟩ := List.mem_map.mp htext
  exact ((word e.1).append (by decide)).append (word e.2)

theorem name (m : Mnemonic) : Ascii m.name := by
  cases m <;> decide

theorem instructionText (i : Instruction) : Ascii i.text := by
  have hname := name i.mnemonic
  have hspaced : Ascii (i.mnemonic.name ++ " ") := hname.append (by decide)
  unfold Instruction.text
  cases i.operand with
  | absent => exact hname
  | direct x => exact hspaced.append (word x)
  | indirect x =>
      apply hspaced.append
      exact append (append (by decide) (word x)) (by decide)
  | constant x =>
      apply hspaced.append
      exact append (by decide) (word x)

/-- A line of a trace is a value behind its label. -/
theorem labelled {label value : String} (hl : Ascii label) (hv : Ascii value) :
    Ascii (label ++ value ++ "\n") :=
  (hl.append hv).append (by decide)

end Ascii

namespace Trace

/-- Lines of ASCII characters follow each other as ASCII characters. -/
theorem ascii_chars {lines : List String} (h : ∀ line ∈ lines, Ascii line) :
    ∀ c ∈ chars lines, c.toNat < 128 := by
  intro c hc
  obtain ⟨line, hline, hmem⟩ := List.mem_flatMap.mp hc
  exact h line hline c hmem

theorem ascii_opening (m : Machine) : ∀ line ∈ opening m, Ascii line := by
  simp only [opening, List.forall_mem_cons]
  exact ⟨by decide, .labelled (by decide) (.inputText _), .labelled (by decide) (.registersText _),
    .labelled (by decide) (.natural _), by decide, by simp⟩

theorem ascii_heading (step pc : Nat) (i : Instruction) :
    ∀ line ∈ heading step pc i, Ascii line := by
  simp only [heading, List.forall_mem_cons]
  exact ⟨.labelled (by decide) (.natural _), .labelled (by decide) (.natural _),
    .labelled (by decide) (.instructionText _), by simp⟩

theorem ascii_remainder (m : Machine) : ∀ line ∈ remainder m, Ascii line := by
  have hpc : Ascii (if m.isHalted then "Program has ended successfully.\n"
      else "New program counter value : " ++ Decimal.natural m.pc ++ "\n") := by
    split
    · decide
    · exact .labelled (by decide) (.natural _)
  simp only [remainder, List.forall_mem_cons]
  exact ⟨.labelled (by decide) (.inputText _), .labelled (by decide) (.registersText _), hpc,
    by decide, by simp⟩

theorem ascii_closing (result : Word) : Ascii (closing result) :=
  .labelled (by decide) (.word result)

theorem ascii_headingOf (step : Nat) (m : Machine) :
    ∀ c ∈ headingOf step m, c.toNat < 128 := by
  unfold headingOf
  split
  · exact ascii_chars (ascii_heading step m.pc _)
  · simp

theorem ascii_upTo (m : Machine) (n : Nat) : ∀ c ∈ upTo m n, c.toNat < 128 := by
  induction n with
  | zero => exact ascii_chars (ascii_opening m)
  | succ n ih =>
      simp only [upTo, List.forall_mem_append]
      exact ⟨⟨ih, ascii_headingOf _ _⟩, ascii_chars (ascii_remainder _)⟩

theorem ascii_headed (m : Machine) (n : Nat) : ∀ c ∈ headed m n, c.toNat < 128 :=
  List.forall_mem_append.mpr ⟨ascii_upTo m n, ascii_headingOf _ _⟩

theorem ascii_closed (m : Machine) (n : Nat) : ∀ c ∈ closed m n, c.toNat < 128 :=
  List.forall_mem_append.mpr ⟨ascii_upTo m n, ascii_closing _⟩

end Trace

end RandomAccessMachine
