import RandomAccessMachine.Assembly.Lexeme
import RandomAccessMachine.Source.Line

/-!
# Reading tokens from a source

A cursor stands in a source: it holds what is left of the current line and
the number of that line. Each call of `next` reports one token or one fault,
after it has read another line if the current one is used up.

## Implementation notes

A cursor that has reported the end of its source stays at the end. It still
reads the next line when it holds none, and counts it, but takes no token from
it. `calls` lists the calls up to the first report of the end; every call
before that one shortens the source or takes something off the current line.
-/

namespace RandomAccessMachine

/-- A place in a source. -/
structure Cursor where
  /-- What is left of the source after the current line. -/
  source : Source
  /-- What is left of the current line, up to and including its line feed. -/
  line : List Char
  /-- The number of the current line, or 0 before the first one. -/
  lineNr : Nat
  /-- Whether the source has reported its end at the beginning of a line. -/
  ended : Bool
  deriving DecidableEq

/-- A token or fault that a cursor reports, with the number of the line concerned. -/
structure Finding where
  line : Nat
  lexeme : Lexeme
  deriving DecidableEq

namespace Cursor

/-- The cursor at the beginning of a source. -/
def ofSource (source : Source) : Cursor := ⟨source, [], 0, false⟩

/-- Read the next line if the current one is used up. -/
def fill (c : Cursor) : Except String Unit × Cursor :=
  if c.line.isEmpty then
    match c.source.readLine with
    | (.line chars, source) => (.ok (), ⟨source, chars, c.lineNr + 1, c.ended⟩)
    | (.failed reason, source) => (.error reason, { c with source := source })
    | (.ended, source) => (.ok (), { c with source := source, ended := true })
  else (.ok (), c)

/-- Report the next token or fault, or nothing at the end of the source. -/
def next (c : Cursor) : Option Finding × Cursor :=
  match c.fill with
  | (.error reason, c) => (some ⟨c.lineNr + 1, .fault (.unreadable reason)⟩, c)
  | (.ok (), c) =>
      -- once the end has been reported, a line read later counts but yields nothing
      if c.ended then (none, c)
      else
        (some ⟨c.lineNr, (Lexeme.first c.line).1⟩,
          { c with line := (Lexeme.first c.line).2 })

/-- A line that is not used up stays, and otherwise a line is read, or cannot be read, or the end is
met. -/
theorem fill_cases (c : Cursor) :
    (c.line ≠ [] ∧ c.fill = (.ok (), c)) ∨
    (c.line = [] ∧ ∃ chars source, c.source.readLine = (.line chars, source) ∧
      c.fill = (.ok (), ⟨source, chars, c.lineNr + 1, c.ended⟩)) ∨
    (c.line = [] ∧ ∃ reason source, c.source.readLine = (.failed reason, source) ∧
      c.fill = (.error reason, { c with source := source })) ∨
    (c.line = [] ∧ ∃ source, c.source.readLine = (.ended, source) ∧
      c.fill = (.ok (), { c with source := source, ended := true })) := by
  unfold fill
  by_cases hline : c.line = []
  · rcases c.source.readLine with ⟨chars | reason | _, source⟩
    · exact .inr (.inl ⟨hline, chars, source, rfl, by simp [hline]⟩)
    · exact .inr (.inr (.inl ⟨hline, reason, source, rfl, by simp [hline]⟩))
    · exact .inr (.inr (.inr ⟨hline, source, rfl, by simp [hline]⟩))
  · exact .inl ⟨hline, by simp [hline]⟩

/-- A call fails to read a line, or it reports the end, or it takes the first lexeme of the line
that it holds. -/
theorem next_cases (c : Cursor) :
    (∃ reason, c.fill.1 = .error reason ∧
      c.next = (some ⟨c.fill.2.lineNr + 1, .fault (.unreadable reason)⟩, c.fill.2)) ∨
    (c.fill.1 = .ok () ∧ c.fill.2.ended = true ∧ c.next = (none, c.fill.2)) ∨
    (c.fill.1 = .ok () ∧ c.fill.2.ended = false ∧
      c.next = (some ⟨c.fill.2.lineNr, (Lexeme.first c.fill.2.line).1⟩,
        { c.fill.2 with line := (Lexeme.first c.fill.2.line).2 })) := by
  unfold next
  rcases c.fill with ⟨reason | _, filled⟩
  · exact .inl ⟨reason, rfl, rfl⟩
  · cases hended : filled.ended with
    | true => exact .inr (.inl ⟨rfl, rfl, by simp [hended]⟩)
    | false => exact .inr (.inr ⟨rfl, rfl, by simp [hended]⟩)

/-- The line that the next call reads, with its number, if it reads one. -/
def opened? (c : Cursor) : Option (Nat × List Char) :=
  if c.line.isEmpty then
    match c.source.readLine with
    | (.line chars, _) => some (c.lineNr + 1, chars)
    | _ => none
  else none

/-- Every finding shortens the source or, on the same source, takes something off the line. -/
theorem next_lt {c c' : Cursor} {f : Finding} (h : c.next = (some f, c')) :
    Prod.Lex (· < ·) (· < ·) (c'.source.length, Lexeme.extent c'.line)
      (c.source.length, Lexeme.extent c.line) := by
  simp only [next, fill] at h
  by_cases hl : c.line = []
  · have hlen : (c.source.readLine).1 ≠ .ended → (c.source.readLine).2.length < c.source.length :=
      Source.readLine_length_lt
    cases hr : c.source.readLine with
    | mk read source =>
        rw [hr] at hlen
        cases read with
        | line chars =>
            simp only [hl, hr, List.isEmpty_nil, if_true] at h
            split at h
            · simp at h
            · simp only [Prod.mk.injEq] at h
              rw [← h.2]
              exact .left _ _ (hlen (by simp))
        | failed reason =>
            simp only [hl, hr, List.isEmpty_nil, if_true, Prod.mk.injEq] at h
            rw [← h.2]
            exact .left _ _ (hlen (by simp))
        | ended => simp [hl, hr] at h
  · have hne : c.line.isEmpty = false := by simpa using hl
    simp only [hne, Bool.false_eq_true, if_false] at h
    split at h
    · simp at h
    · simp only [Prod.mk.injEq] at h
      rw [← h.2]
      exact .right _ (Lexeme.first_extent_lt hl)

/-- A call of `next` with the cursor before and after it. -/
structure Call where
  before : Cursor
  finding : Option Finding
  after : Cursor
  deriving DecidableEq

/-- The calls of `next` up to the first one that reports the end. -/
def calls (c : Cursor) : List Call :=
  match _h : c.next with
  | (none, c') => [⟨c, none, c'⟩]
  | (some f, c') => ⟨c, some f, c'⟩ :: calls c'
termination_by (c.source.length, Lexeme.extent c.line)
decreasing_by exact next_lt _h

/-- The findings up to the end of the source. -/
def findings (c : Cursor) : List Finding := c.calls.filterMap Call.finding

/-- The cursor after the call that reports the end. -/
def atEnd (c : Cursor) : Cursor := (c.calls.getLast?.map Call.after).getD c

/-- The calls of `next` until the end has been reported this many more times than once. -/
def callsBeyond (c : Cursor) : Nat → List Call
  | 0 => c.calls
  | n + 1 => c.calls ++ callsBeyond c.atEnd n

/-- The cursor after this many calls of `next`, or the first fault that they report. -/
def skip (c : Cursor) : Nat → Except (Nat × LexicalFault) Cursor
  | 0 => .ok c
  | n + 1 =>
      match c.next with
      | (some ⟨line, .fault fault⟩, _) => .error (line, fault)
      | (_, c') => skip c' n

theorem calls_of_none {c c' : Cursor} (h : c.next = (none, c')) : c.calls = [⟨c, none, c'⟩] := by
  rw [calls]
  split <;> simp_all

theorem calls_of_some {c c' : Cursor} {f : Finding} (h : c.next = (some f, c')) :
    c.calls = ⟨c, some f, c'⟩ :: c'.calls := by
  rw [calls]
  split <;> simp_all

theorem findings_of_none {c c' : Cursor} (h : c.next = (none, c')) : c.findings = [] := by
  simp [findings, calls_of_none h]

theorem findings_of_some {c c' : Cursor} {f : Finding} (h : c.next = (some f, c')) :
    c.findings = f :: c'.findings := by
  simp [findings, calls_of_some h]

end Cursor

end RandomAccessMachine
