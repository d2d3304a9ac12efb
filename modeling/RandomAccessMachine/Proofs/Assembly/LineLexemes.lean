import RandomAccessMachine.Assembly.Cursor
import RandomAccessMachine.Proofs.Assembly.TokenLead
import RandomAccessMachine.Proofs.Source.TextLines

/-!
# The lexemes of a line and the findings in a text

A line with its line feed is split into lexemes of which only the last one is
the end of the line. A cursor finds the lexemes of the lines of a text in
order, each with the number of its line.

## Implementation notes

`findings_line_append` lets any source follow a line, so it also says what
the first lines of a source contribute whatever comes after them.
-/

namespace RandomAccessMachine

namespace Lexeme

/-- The lexemes of a line one after the other. -/
def ofLine (line : List Char) : List Lexeme :=
  if _h : line = [] then [] else (first line).1 :: ofLine (first line).2
termination_by extent line
decreasing_by exact first_extent_lt _h

@[simp] theorem ofLine_nil : ofLine [] = [] := by
  rw [ofLine, dif_pos rfl]

theorem ofLine_of_ne_nil {line : List Char} (h : line ≠ []) :
    ofLine line = (first line).1 :: ofLine (first line).2 := by
  rw [ofLine, dif_neg h]

/-- Lexemes of which the last one and no other is the end of the line. -/
inductive IsLine : List Lexeme → Prop
  | lineEnd : IsLine [.token .newline]
  | cons {l : Lexeme} {rest : List Lexeme} (h : l ≠ .token .newline) (tail : IsLine rest) :
      IsLine (l :: rest)

/-- A number leaves the end of its line behind it. -/
theorem exists_rest_of_number (digits : List Char) {tail : List Char} (h : '\n' ∉ tail) :
    ∃ rest, rest <:+ tail ∧ (number digits (tail ++ ['\n'])).1 ≠ .token .newline ∧
      (number digits (tail ++ ['\n'])).2 = rest ++ ['\n'] := by
  obtain ⟨rest, hafter⟩ | ⟨c, rest, rfl, hfault⟩ := number_cases digits h
  · rw [number_of_after hafter]
    refine ⟨rest, hafter.suffix, ?_, rfl⟩
    intro ht
    obtain ⟨x, hx⟩ := exists_number_of_ofDigits ht
    cases hx
  · rw [hfault]
    exact ⟨rest, List.suffix_cons c rest, nofun, rfl⟩

/-- A name leaves the end of its line behind it. -/
theorem exists_rest_of_name (letters : List Char) {tail : List Char} (h : '\n' ∉ tail) :
    ∃ rest, rest <:+ tail ∧ (name letters (tail ++ ['\n'])).1 ≠ .token .newline ∧
      (name letters (tail ++ ['\n'])).2 = rest ++ ['\n'] := by
  obtain ⟨rest, hafter⟩ | ⟨c, rest, rfl, hfault⟩ := name_cases letters h
  · rw [name_of_after hafter]
    refine ⟨rest, hafter.suffix, ?_, rfl⟩
    intro ht
    obtain ⟨m, hm⟩ := exists_keyword_of_ofLetters ht
    cases hm
  · rw [hfault]
    exact ⟨rest, List.suffix_cons c rest, nofun, rfl⟩

/-- The first lexeme of a line is its end, or it leaves a line behind it. -/
theorem first_terminated {body : List Char} (h : '\n' ∉ body) :
    first (body ++ ['\n']) = (.token .newline, []) ∨
      ∃ rest, rest <:+ body ∧ (first (body ++ ['\n'])).1 ≠ .token .newline ∧
        (first (body ++ ['\n'])).2 = rest ++ ['\n'] := by
  obtain ⟨gap, tail, _, rfl, hlead⟩ := exists_lead h
  have htail : '\n' ∉ tail := fun hmem => h (List.mem_append_right gap hmem)
  generalize first (gap ++ tail ++ ['\n']) = result at hlead ⊢
  cases hlead with
  | lineEnd _ => exact .inl rfl
  | @symbol c t hs rest =>
      refine .inr ⟨rest, (List.suffix_cons c rest).trans (List.suffix_append gap _), ?_, rfl⟩
      intro ht
      rw [Lexeme.token.inj ht, Token.ofSymbol?_eq_some_iff] at hs
      simp at hs
      simp [hs] at htail
  | @digits run rest hrun =>
      have hrest : '\n' ∉ rest := fun hmem => htail (List.mem_append_right run hmem)
      obtain ⟨left, hleft, hne, hnumber⟩ := exists_rest_of_number run hrest
      have hsuffix := hleft.trans (List.suffix_append run rest)
      exact .inr ⟨left, hsuffix.trans (List.suffix_append gap _), hne, hnumber⟩
  | @letters run rest hrun =>
      have hrest : '\n' ∉ rest := fun hmem => htail (List.mem_append_right run hmem)
      obtain ⟨left, hleft, hne, hname⟩ := exists_rest_of_name run hrest
      have hsuffix := hleft.trans (List.suffix_append run rest)
      exact .inr ⟨left, hsuffix.trans (List.suffix_append gap _), hne, hname⟩
  | other c rest =>
      exact .inr ⟨rest, (List.suffix_cons c rest).trans (List.suffix_append gap _), nofun, rfl⟩

/-- A line that is left behind a lexeme is shorter. -/
theorem length_lt_of_first {body rest : List Char}
    (h : (first (body ++ ['\n'])).2 = rest ++ ['\n']) : rest.length < body.length := by
  have hlt : extent (first (body ++ ['\n'])).2 < extent (body ++ ['\n']) :=
    first_extent_lt (by simp)
  rw [h, extent_terminated, extent_terminated] at hlt
  exact Nat.lt_of_succ_lt_succ hlt

/-- The lexemes of a line end with the only end of the line among them. -/
theorem isLine_ofLine {body : List Char} (h : '\n' ∉ body) : IsLine (ofLine (body ++ ['\n'])) := by
  induction hn : body.length using Nat.strongRecOn generalizing body with
  | ind n ih =>
      rw [ofLine_of_ne_nil (by simp)]
      obtain hend | ⟨rest, hsuffix, hne, hrest⟩ := first_terminated h
      · rw [hend, ofLine_nil]
        apply IsLine.lineEnd
      · have hlt : rest.length < n := hn ▸ length_lt_of_first hrest
        have hline : '\n' ∉ rest := fun hmem => h (hsuffix.mem hmem)
        rw [hrest]
        apply IsLine.cons hne
        exact ih rest.length hlt hline rfl

end Lexeme

namespace Cursor

variable {c c' : Cursor} {line : List Char} {source source' : Source} {n : Nat}

/-- A cursor whose next call is that of another one finds the same. -/
theorem findings_eq_of_next (h : c.next = c'.next) : c.findings = c'.findings := by
  rcases hn : c.next with ⟨_ | f, after⟩
  · rw [findings_of_none hn, findings_of_none (h.symm.trans hn)]
  · rw [findings_of_some hn, findings_of_some (h.symm.trans hn)]

/-- A map of cursors that every call respects carries their findings along. -/
theorem findings_map {f : Cursor → Cursor} {g : Finding → Finding}
    (h : ∀ c, (f c).next = (c.next.1.map g, f c.next.2)) (c : Cursor) :
    (f c).findings = c.findings.map g := by
  fun_induction calls c with
  | case1 c c' hnext =>
      have hmapped : (f c).next = (none, f c') := by rw [h, hnext]; rfl
      rw [findings_of_none hnext, findings_of_none hmapped, List.map_nil]
  | case2 c finding c' hnext ih =>
      have hmapped : (f c).next = (some (g finding), f c') := by rw [h, hnext]; rfl
      rw [findings_of_some hnext, findings_of_some hmapped, ih, List.map_cons]

theorem next_of_line (h : line ≠ []) :
    next ⟨source, line, n, false⟩ =
      (some ⟨n, (Lexeme.first line).1⟩, ⟨source, (Lexeme.first line).2, n, false⟩) := by
  have hline : line.isEmpty = false := by simpa using h
  simp [next, fill, hline]

theorem next_of_terminated (source : Source) (body : List Char) (n : Nat) :
    next ⟨source, body ++ ['\n'], n, false⟩ =
      (some ⟨n, (Lexeme.first (body ++ ['\n'])).1⟩,
        ⟨source, (Lexeme.first (body ++ ['\n'])).2, n, false⟩) :=
  next_of_line (by simp)

/-- Within a line a cursor finds the lexemes of this line. -/
theorem findings_of_line (source : Source) (line : List Char) (n : Nat) :
    findings ⟨source, line, n, false⟩ =
      (Lexeme.ofLine line).map (Finding.mk n) ++ findings ⟨source, [], n, false⟩ := by
  fun_induction Lexeme.ofLine line with
  | case1 => rfl
  | case2 line hne ih =>
      rw [findings_of_some (next_of_line hne), ih]
      rfl

theorem opened?_of_ne_nil (h : line ≠ []) (source : Source) (n : Nat) :
    opened? ⟨source, line, n, false⟩ = none := by
  have hline : line.isEmpty = false := by simpa using h
  simp [opened?, hline]

theorem opened?_of_readLine (h : source.readLine = (.line line, source')) :
    opened? ⟨source, [], n, false⟩ = some (n + 1, line) := by
  simp [opened?, h]

/-- At the end of a line the next call is made in the line that is read. -/
theorem next_of_readLine (h : source.readLine = (.line line, source')) :
    next ⟨source, [], n, false⟩ = next ⟨source', line, n + 1, false⟩ := by
  have hne : line.isEmpty = false := by
    simpa using Source.ne_nil_of_readLine (congrArg Prod.fst h)
  simp [next, fill, h, hne]

/-- At the end of a line a cursor goes on with the line that it reads. -/
theorem findings_of_readLine (h : source.readLine = (.line line, source')) :
    findings ⟨source, [], n, false⟩ = findings ⟨source', line, n + 1, false⟩ := by
  apply findings_eq_of_next
  exact next_of_readLine h

/-- A line that is read is found first, and then what is found in the source behind it. -/
theorem findings_of_lineRead (h : source.readLine = (.line line, source')) :
    findings ⟨source, [], n, false⟩ =
      (Lexeme.ofLine line).map (Finding.mk (n + 1)) ++ findings ⟨source', [], n + 1, false⟩ := by
  rw [findings_of_readLine h, findings_of_line]

/-- Nothing is found where the end is reported at the beginning of a line. -/
theorem next_of_ended (h : source.readLine = (.ended, source')) :
    next ⟨source, [], n, false⟩ = (none, ⟨source', [], n, true⟩) := by
  simp [next, fill, h]

theorem findings_of_ended (h : source.readLine = (.ended, source')) :
    findings ⟨source, [], n, false⟩ = [] :=
  findings_of_none (next_of_ended h)

/-- A line that cannot be read is found as a fault. -/
theorem next_of_failed {reason : String} (h : source.readLine = (.failed reason, source')) :
    next ⟨source, [], n, false⟩ =
      (some ⟨n + 1, .fault (.unreadable reason)⟩, ⟨source', [], n, false⟩) := by
  simp [next, fill, h]

theorem findings_of_failed {reason : String} (h : source.readLine = (.failed reason, source')) :
    findings ⟨source, [], n, false⟩ =
      ⟨n + 1, .fault (.unreadable reason)⟩ :: findings ⟨source', [], n, false⟩ :=
  findings_of_some (next_of_failed h)

/-- A line in front of a source is found first, and then what is found in the source. -/
theorem findings_line_append (h : '\n' ∉ line) (source : Source) (n : Nat) :
    findings ⟨.ofText (line ++ ['\n']) ++ source, [], n, false⟩ =
      (Lexeme.ofLine (line ++ ['\n'])).map (Finding.mk (n + 1)) ++
        findings ⟨source, [], n + 1, false⟩ := by
  apply findings_of_lineRead
  exact Source.readLine_line h source

/-- The lexemes of lines with their line feeds, where the first line has the number after this
one. -/
def lineFindings (n : Nat) : List (List Char) → List Finding
  | [] => []
  | line :: lines =>
      (Lexeme.ofLine (line ++ ['\n'])).map (Finding.mk (n + 1)) ++ lineFindings (n + 1) lines

/-- In a text a cursor finds the lexemes of its lines. -/
theorem findings_ofText (text : List Char) (n : Nat) :
    findings ⟨.ofText text, [], n, false⟩ = lineFindings n (textLines text) := by
  induction text using text_induction generalizing n with
  | nil => exact findings_of_ended Source.readLine_nil
  | last line hline hne =>
      rw [findings_of_lineRead (Source.readLine_last hline hne),
        findings_of_ended Source.readLine_nil, textLines_last hline hne]
      rfl
  | line line rest hline ih =>
      calc
        findings ⟨.ofText (line ++ '\n' :: rest), [], n, false⟩ =
            (Lexeme.ofLine (line ++ ['\n'])).map (Finding.mk (n + 1)) ++
              findings ⟨.ofText rest, [], n + 1, false⟩ := by
          rw [Source.ofText_line, findings_line_append hline]
        _ = lineFindings n (line :: textLines rest) := by
          rw [ih (n + 1), lineFindings]
        _ = lineFindings n (textLines (line ++ '\n' :: rest)) := by
          rw [textLines_line hline]

end Cursor

end RandomAccessMachine
