import Mathlib
import RandomAccessMachine.Proofs.Assembly.LineVerdict

/-!
# Instructions stand on their lines

Wherever a cursor has got to in a source, the instructions that are read from
there carry the numbers of consecutive lines. So an instruction of a program
stands where a jump to its line looks for it.

## Implementation notes

What a cursor holds of its line ends with the only line feed in it. That is
kept by every call, also by those that report faults or the end.
-/

namespace RandomAccessMachine

namespace Cursor

/-- The cursor after this many calls, whatever they report. -/
def after (c : Cursor) (n : Nat) : Cursor := (fun c => c.next.2)^[n] c

theorem after_succ (c : Cursor) (n : Nat) : c.after (n + 1) = (c.after n).next.2 :=
  Function.iterate_succ_apply' _ n c

theorem after_add (c : Cursor) (n k : Nat) : c.after (n + k) = (c.after n).after k := by
  rw [Nat.add_comm]
  exact Function.iterate_add_apply _ k n c

theorem after_of_next {c c' : Cursor} {f : Option Finding} (h : c.next = (f, c')) (n : Nat) :
    c.after (n + 1) = c'.after n := by
  rw [Nat.add_comm, after_add]
  exact congrArg (after · n) (congrArg Prod.snd h)

/-- The number of the line in which the next call looks for a lexeme. -/
def lineToScan (c : Cursor) : Nat := if c.line = [] then c.lineNr + 1 else c.lineNr

/-- The cursor holds nothing, or the rest of a line up to its only line feed. -/
def HoldsLine (c : Cursor) : Prop :=
  c.line = [] ∨ ∃ body, '\n' ∉ body ∧ c.line = body ++ ['\n']

theorem holdsLine_ofSource (s : Source) : (ofSource s).HoldsLine := .inl rfl

/-- What is held of a line has its line feed in it. -/
theorem HoldsLine.lineFeed_mem {c : Cursor} (h : c.HoldsLine) (hne : c.line ≠ []) :
    '\n' ∈ c.line := by
  obtain hnil | ⟨body, _, hline⟩ := h
  · exact absurd hnil hne
  · simp [hline]

/-- Reading a line leaves the line with its line feed. -/
theorem HoldsLine.fill {c : Cursor} (h : c.HoldsLine) : c.fill.2.HoldsLine := by
  obtain ⟨_, hfill⟩ | ⟨_, chars, source, hr, hfill⟩ | ⟨_, reason, source, _, hfill⟩ |
    ⟨_, source, _, hfill⟩ := c.fill_cases
  · rwa [hfill]
  · rw [hfill]
    obtain ⟨body, hbody, rfl⟩ := Source.exists_body_of_readLine (congrArg Prod.fst hr)
    exact .inr ⟨body, hbody, rfl⟩
  · rw [hfill]
    exact h
  · rw [hfill]
    exact h

/-- What a lexeme leaves of a line is nothing, or the rest of the line. -/
theorem HoldsLine.first {c : Cursor} (h : c.HoldsLine) :
    HoldsLine { c with line := (Lexeme.first c.line).2 } := by
  obtain hnil | ⟨body, hbody, hline⟩ := h
  · exact .inl (by rw [hnil]; rfl)
  · rw [hline]
    obtain hend | ⟨rest, hsuffix, _, hrest⟩ := Lexeme.first_terminated hbody
    · exact .inl (by rw [hend])
    · exact .inr ⟨rest, fun hmem => hbody (hsuffix.mem hmem), hrest⟩

/-- Every call leaves nothing of a line, or the rest of one. -/
theorem HoldsLine.next {c : Cursor} (h : c.HoldsLine) : c.next.2.HoldsLine := by
  obtain ⟨_, _, hnext⟩ | ⟨_, _, hnext⟩ | ⟨_, _, hnext⟩ := c.next_cases
  · rw [hnext]
    exact h.fill
  · rw [hnext]
    exact h.fill
  · rw [hnext]
    exact h.fill.first

theorem HoldsLine.after {c : Cursor} (h : c.HoldsLine) (n : Nat) : (c.after n).HoldsLine := by
  induction n with
  | zero => exact h
  | succ n ih =>
      rw [after_succ]
      exact ih.next

/-- An end that has been reported is not forgotten. -/
theorem ended_fill {c : Cursor} (h : c.ended = true) : c.fill.2.ended = true := by
  obtain ⟨_, hfill⟩ | ⟨_, chars, source, _, hfill⟩ | ⟨_, reason, source, _, hfill⟩ |
    ⟨_, source, _, hfill⟩ := c.fill_cases <;> simp [hfill, h]

/-- A cursor that has reported the end reports it again, or a line that cannot be read. -/
theorem next_of_ended_eq_true {c c' : Cursor} {f : Finding} (h : c.ended = true)
    (hn : c.next = (some f, c')) : ∃ reason, f.lexeme = .fault (.unreadable reason) := by
  obtain ⟨reason, _, hnext⟩ | ⟨_, _, hnext⟩ | ⟨_, hended, _⟩ := c.next_cases
  · cases hnext.symm.trans hn
    exact ⟨reason, rfl⟩
  · cases hnext.symm.trans hn
  · cases hended.symm.trans (ended_fill h)

/-- No instructions are read after the end has been reported. -/
theorem instructions_findings_of_ended {c : Cursor} {is : List Instruction} (h : c.ended = true)
    (hok : Expectation.name.instructions c.findings = .ok is) : is = [] := by
  rcases hn : c.next with ⟨_ | f, c'⟩
  · rw [findings_of_none hn] at hok
    exact (Except.ok.inj hok).symm
  · obtain ⟨reason, hfault⟩ := next_of_ended_eq_true h hn
    obtain ⟨line, l⟩ := f
    obtain rfl : l = .fault (.unreadable reason) := hfault
    rw [findings_of_some hn] at hok
    cases hok

end Cursor

namespace Program

variable {p : Program} {k : Nat} {i : Instruction}

/-- Instructions that are read from anywhere in a source carry consecutive numbers. -/
theorem line_of_ofCursor {c : Cursor} (h : c.HoldsLine) (hok : ofCursor c = .ok p)
    (hi : p.instructions[k]? = some i) : i.line = c.lineToScan + k := by
  rw [ofCursor_eq_ok_iff] at hok
  rw [← Array.getElem?_toList] at hi
  cases hended : c.ended with
  | true =>
      rw [Cursor.instructions_findings_of_ended hended hok] at hi
      cases hi
  | false =>
      obtain ⟨source, line, n, ended⟩ := c
      obtain rfl : ended = false := hended
      obtain rfl | ⟨body, hbody, rfl⟩ : line = [] ∨ ∃ body, '\n' ∉ body ∧ line = body ++ ['\n'] := h
      · rw [Cursor.instructions_findings] at hok
        obtain ⟨_, _, _, hline⟩ := Source.exists_line_of_instructionsOf hok hi
        have hscan : Cursor.lineToScan ⟨source, [], n, false⟩ = n + 1 := rfl
        omega
      · rw [Cursor.findings_of_line,
          Expectation.instructions_append (Lexeme.isLine_ofLine hbody),
          Cursor.instructions_findings] at hok
        have hscan : Cursor.lineToScan ⟨source, body ++ ['\n'], n, false⟩ = n := by
          simp [Cursor.lineToScan]
        obtain ⟨v, hv⟩ := Expectation.exists_verdict (Lexeme.isLine_ofLine hbody) .name
        rw [hv n] at hok
        rw [hscan]
        cases v with
        | refused f => cases hok
        | accepted m o =>
            obtain ⟨rest, hrest, hlist⟩ := Except.map_eq_ok_iff.mp hok
            rw [← hlist] at hi
            cases k with
            | zero =>
                obtain rfl : (⟨m, o, n⟩ : Instruction) = i := by simpa using hi
                rfl
            | succ k =>
                have htail : rest[k]? = some i := by simpa using hi
                obtain ⟨_, _, _, hline⟩ := Source.exists_line_of_instructionsOf hrest htail
                omega

/-- The instructions of a program carry the numbers of their lines. -/
theorem line_of_ofSource {s : Source} (h : ofSource s = .ok p) (hi : p.instructions[k]? = some i) :
    i.line = k + 1 := by
  have hline := line_of_ofCursor (Cursor.holdsLine_ofSource s) h hi
  have hscan : (Cursor.ofSource s).lineToScan = 1 := rfl
  omega

/-- Instructions with the numbers of the lines that they are added as can be added. -/
theorem foldlM_push? {is : List Instruction} {p : Program}
    (h : ∀ k i, is[k]? = some i → i.line = p.lineCount + k + 1) :
    is.foldlM push? p = some ⟨p.instructions ++ is.toArray⟩ := by
  induction is generalizing p with
  | nil => simp
  | cons i is ih =>
      have hfirst : i.line = p.lineCount + 1 := h 0 i rfl
      have hcount : (⟨p.instructions.push i⟩ : Program).lineCount = p.lineCount + 1 :=
        Array.size_push i
      have hrest := ih (p := ⟨p.instructions.push i⟩) fun k j hj => by
        have hline := h (k + 1) j (by simpa using hj)
        omega
      rw [List.foldlM_cons, push?_of_line_eq hfirst]
      exact hrest.trans (by simp)

/-- A program has as many lines as its source. -/
theorem lineCount_of_ofSource {s : Source} (h : ofSource s = .ok p) :
    p.lineCount = s.lines.length := by
  rw [ofSource_eq_ok_iff, Source.instructionsOf_eq_ok_iff Source.exists_says_of_mem] at h
  rw [← h.1, lineCount, Array.length_toList]

/-- Wherever reading begins, the instructions carry the numbers of consecutive lines. The program
of a whole source takes each of them as its next line, has the lines of the source, and has an
instruction with the number of the line exactly on each of these. -/
theorem instructions_on_their_lines (s : Source) :
    (∀ (n : Nat) (p : Program), ofCursor ((Cursor.ofSource s).after n) = .ok p →
      ∀ (k : Nat) (i : Instruction), p.instructions[k]? = some i →
        i.line = ((Cursor.ofSource s).after n).lineToScan + k) ∧
    ∀ p : Program, ofSource s = .ok p →
      p.instructions.toList.foldlM push? empty = some p ∧
      p.lineCount = s.lines.length ∧
      (∀ text, s = .ofString text → p.lineCount = (textLines text.toList).length) ∧
      ∀ line, ((∃ i, p.get? line = some i) ↔ 1 ≤ line ∧ line ≤ p.lineCount) ∧
        ∀ _ : 1 ≤ line ∧ line ≤ p.lineCount, p.get? line = some p[line] ∧ p[line].line = line := by
  constructor
  · intro n p hok k i hi
    exact line_of_ofCursor ((Cursor.holdsLine_ofSource s).after n) hok hi
  · intro p hok
    have hcount := lineCount_of_ofSource hok
    refine ⟨?_, hcount, ?_, fun line => ⟨?_, fun hline => ⟨get?_eq_some_getElem hline, ?_⟩⟩⟩
    · have hpush : p.instructions.toList.foldlM push? empty =
          some ⟨empty.instructions ++ p.instructions.toList.toArray⟩ := by
        apply foldlM_push?
        intro k i hi
        rw [Array.getElem?_toList] at hi
        rw [line_of_ofSource hok hi]
        simp [empty, lineCount]
      rw [hpush]
      simp [empty]
    · rintro text rfl
      rw [hcount, Source.ofString_eq_ofText, Source.length_lines_ofText]
    · rw [← get?_isSome_iff, Option.isSome_iff_exists]
    · obtain ⟨k, rfl⟩ : ∃ k, line = k + 1 := ⟨line - 1, by omega⟩
      have hget := get?_eq_some_getElem hline
      rw [get?_succ] at hget
      exact line_of_ofSource hok hget

/-- Behind the name on its first line, a text of two lines is read as two empty ones. -/
theorem instructions_on_their_lines_behind_name :
    let s := Source.ofText ['H', 'A', 'L', 'T', '\n', '#']
    let p := ofList [⟨.pass, .absent, 1⟩, ⟨.pass, .absent, 2⟩]
    ofCursor ((Cursor.ofSource s).after 1) = .ok p ∧
      ∀ (k : Nat) (i : Instruction), p.instructions[k]? = some i → i.line = 1 + k := by
  intro s p
  have hok : ofCursor ((Cursor.ofSource s).after 1) = .ok p := by cbv
  exact ⟨hok, (instructions_on_their_lines s).1 1 p hok⟩

end Program

end RandomAccessMachine
