import Mathlib
import RandomAccessMachine.Proofs.Assembly.LineBuffer
import RandomAccessMachine.Proofs.Assembly.OnDemand

/-!
# Reading makes progress

A call within a line shortens what is left of the line and does not look at
the source. So the calls that find something are bounded by the characters
that are read, and a program is read with one call more at most.

## Implementation notes

Every line that a reading gets to holds a line feed. A line without one is left
with a line feed alone behind a number or a name that ends it, so what is left
of it is no end of it; the bounds count its `extent`, which gets smaller there
too. `pullWithin` reads on demand with a bound on the calls, by recursion on
this bound, so it gives something only where reading stops by itself. Like
`pull`, it gives an instruction the line of the token that completes it, which
is also the line of its first token. A line can bring a line feed that it lacks
in the source, so `remaining` counts the lines of a source besides its pieces.
-/

namespace RandomAccessMachine

namespace Lexeme

/-- What a lexeme leaves of a line with a line feed is a shorter end of this line. -/
theorem first_suffix_of_mem {line : List Char} (h : '\n' ∈ line) :
    (first line).2 <:+ line ∧ (first line).2.length < line.length := by
  cases line with
  | nil => cases h
  | cons c rest =>
      obtain hsuffix | ⟨hnone, _⟩ := first_cons_leaves c rest
      · exact ⟨hsuffix.trans (List.suffix_cons c rest), Nat.lt_succ_of_le hsuffix.length_le⟩
      · exact absurd h hnone

/-- A line has no more lexemes than characters, a line feed that it lacks among these. -/
theorem length_ofLine_le (line : List Char) : (ofLine line).length ≤ extent line := by
  fun_induction ofLine line with
  | case1 => exact Nat.le_refl 0
  | case2 line hne ih =>
      have hlt := first_extent_lt hne
      rw [List.length_cons]
      omega

end Lexeme

namespace Source

theorem length_terminated_le (chars : List Char) :
    (terminated chars).length ≤ chars.length + 1 := by
  unfold terminated
  split
  · exact Nat.le_succ _
  · exact Nat.le_of_eq List.length_append

/-- A line that is read has at most one character more than pieces. -/
theorem FirstLine.length_chars_le {line rest : Source} {chars : List Char}
    (h : FirstLine false line rest) (hread : line.readLine.1 = .line chars) :
    chars.length ≤ line.length + 1 := by
  have hseen : ([] : List UInt8).isEmpty = !false := rfl
  obtain ⟨_, reason, hcut⟩ | ⟨_, hcut⟩ := h.cut_cases hseen
  · simp [Source.readLine, hcut, Cut.decoded] at hread
  · simp only [Source.readLine, hcut, Cut.decoded, List.reverse_nil, List.nil_append] at hread
    cases hd : decode? (line.filterMap Piece.byte?) with
    | none => simp [hd] at hread
    | some encoded =>
        rw [hd] at hread
        cases hread
        have hencoded := Utf8.length_le_bytes encoded
        rw [Utf8.bytes_of_decode? hd] at hencoded
        have hbytes : (line.filterMap Piece.byte?).length ≤ line.length :=
          List.length_filterMap_le _ _
        have hterminated := length_terminated_le encoded
        omega

theorem extent_of_readLine {s rest : Source} {chars : List Char}
    (h : s.readLine = (.line chars, rest)) :
    Lexeme.extent chars + rest.length + rest.lines.length ≤ s.length + s.lines.length := by
  obtain ⟨line, rfl, hfirst, hread⟩ := exists_firstLine_of_readLine h (by simp)
  have hle := hfirst.length_chars_le hread
  obtain ⟨body, _, rfl⟩ := exists_body_of_readLine hread
  rw [Lexeme.extent_terminated]
  rw [List.length_append, List.length_singleton] at hle
  rw [hfirst.lines, List.length_append, List.length_cons]
  omega

theorem length_of_failed {s rest : Source} {reason : String}
    (h : s.readLine = (.failed reason, rest)) :
    rest.length + rest.lines.length < s.length + s.lines.length := by
  obtain ⟨line, rfl, hfirst, _⟩ := exists_firstLine_of_readLine h (by simp)
  rw [hfirst.lines, List.length_append, List.length_cons]
  omega

end Source

namespace Cursor

/-- A call within a line takes a lexeme off it, whatever the source holds. -/
theorem exists_next_of_mem {c : Cursor} (hended : c.ended = false) (hline : '\n' ∈ c.line) :
    ∃ l rest, rest <:+ c.line ∧ rest.length < c.line.length ∧
      ∀ source, next { c with source := source } =
        (some ⟨c.lineNr, l⟩, { c with source := source, line := rest }) := by
  obtain ⟨_, line, n, ended⟩ := c
  obtain rfl : ended = false := hended
  obtain ⟨hsuffix, hlt⟩ := Lexeme.first_suffix_of_mem hline
  exact ⟨_, _, hsuffix, hlt, fun _ => next_of_line (List.ne_nil_of_mem hline)⟩

/-- The calls before the end find what there is to find, and the next one reports the end. -/
theorem next_after {c : Cursor} {k : Nat} (h : k ≤ c.findings.length) :
    (c.after k).next.1 = c.findings[k]? := by
  fun_induction calls c generalizing k with
  | case1 c c' hnext =>
      rw [findings_of_none hnext] at h ⊢
      obtain rfl : k = 0 := Nat.le_zero.mp h
      exact congrArg Prod.fst hnext
  | case2 c f c' hnext ih =>
      rw [findings_of_some hnext] at h ⊢
      cases k with
      | zero => exact congrArg Prod.fst hnext
      | succ k =>
          rw [after_of_next hnext, List.getElem?_cons_succ]
          exact ih (Nat.le_of_succ_le_succ h)

theorem length_lineFindings_le (n : Nat) (lines : List (List Char)) :
    (lineFindings n lines).length ≤ (lines.flatMap (· ++ ['\n'])).length := by
  induction lines generalizing n with
  | nil => exact Nat.le_refl 0
  | cons line lines ih =>
      have hline := Lexeme.length_ofLine_le (line ++ ['\n'])
      have hlines := ih (n + 1)
      rw [Lexeme.extent_terminated] at hline
      simp only [lineFindings, List.length_append, List.length_map, List.flatMap_cons,
        List.length_singleton]
      omega

/-- What a cursor has before it: the characters of its line, the pieces of its source, and a line
feed for each line that may lack it. -/
def remaining (c : Cursor) : Nat :=
  Lexeme.extent c.line + c.source.length + c.source.lines.length

/-- No more is found in a text than it has characters with the line feed of its last line. -/
theorem length_findings_ofString_le (text : String) :
    (ofSource (.ofString text)).findings.length ≤
      if text = "" then 0 else (Source.terminated text.toList).length := by
  have hlines := length_lineFindings_le 0 (textLines text.toList)
  rw [ofSource, Source.ofString_eq_ofText, findings_ofText]
  split
  · rename_i hnil
    simp [hnil, lineFindings]
  · rename_i hne
    rwa [flatMap_textLines (by simpa using hne)] at hlines

/-- A read that fails uses up pieces, and one that succeeds brings no more characters than it uses
up pieces and lines. -/
theorem remaining_fill (c : Cursor) :
    (∀ reason, c.fill.1 = .error reason → c.fill.2.remaining < c.remaining) ∧
      (c.fill.2.ended = false → c.fill.2.remaining ≤ c.remaining) := by
  obtain ⟨_, hfill⟩ | ⟨hline, chars, source, hr, hfill⟩ | ⟨hline, reason, source, hr, hfill⟩ |
    ⟨_, source, _, hfill⟩ := c.fill_cases
  · rw [hfill]
    exact ⟨nofun, fun _ => Nat.le_refl _⟩
  · have hle := Source.extent_of_readLine hr
    simp only [hfill, remaining, hline, Lexeme.extent_nil]
    exact ⟨nofun, fun _ => by omega⟩
  · have hlt := Source.length_of_failed hr
    simp only [hfill, remaining, hline, Lexeme.extent_nil]
    exact ⟨fun _ _ => by omega, fun _ => by omega⟩
  · rw [hfill]
    exact ⟨nofun, nofun⟩

/-- Every finding takes something of what a cursor has before it. -/
theorem remaining_lt_of_next {c c' : Cursor} {f : Finding} (h : c.next = (some f, c')) :
    c'.remaining < c.remaining := by
  obtain ⟨hfailed, hread⟩ := c.remaining_fill
  obtain ⟨reason, hfill, hnext⟩ | ⟨_, _, hnext⟩ | ⟨hfill, hended, hnext⟩ := c.next_cases
  · cases hnext.symm.trans h
    exact hfailed reason hfill
  · cases hnext.symm.trans h
  · cases hnext.symm.trans h
    have hlt := Lexeme.first_extent_lt (ne_nil_of_fill hfill hended)
    have hle := hread hended
    simp only [remaining] at hle ⊢
    omega

/-- No more is found than a cursor has before it. -/
theorem length_findings_le (c : Cursor) : c.findings.length ≤ c.remaining := by
  fun_induction calls c with
  | case1 c c' hnext =>
      rw [findings_of_none hnext]
      exact Nat.zero_le _
  | case2 c f c' hnext ih =>
      rw [findings_of_some hnext]
      exact Nat.lt_of_le_of_lt ih (remaining_lt_of_next hnext)

end Cursor

namespace Expectation

/-- Judge findings as at most this many calls of a cursor report them, and give the cursor after
the last call, unless more calls are needed. -/
def pullWithin (e : Expectation) (c : Cursor) :
    Nat → Option (Except AssemblyError (List Instruction) × Cursor)
  | 0 => none
  | calls + 1 =>
      match c.next with
      | (none, c') =>
          match e.mnemonic? with
          | none => some (.ok [], c')
          | some m => some (.error (.unfinished m), c')
      | (some ⟨line, .fault fault⟩, c') => some (.error (.lexical line fault), c')
      | (some ⟨line, .token t⟩, c') =>
          match e.feed t with
          | .more next => next.pullWithin c' calls
          | .complete m o =>
              (name.pullWithin c' calls).map fun (result, last) =>
                (result.map (⟨m, o, line⟩ :: ·), last)
          | .refused fault => some (.error (.statement line fault), c')

/-- One call more than there are findings is enough. -/
theorem pullWithin_of_lt {e : Expectation} {c : Cursor} {calls : Nat}
    (h : c.findings.length < calls) : e.pullWithin c calls = some (e.pull c) := by
  induction calls generalizing e c with
  | zero => exact absurd h (Nat.not_lt_zero _)
  | succ calls ih =>
      rcases hn : c.next with ⟨_ | ⟨line, t | fault⟩, c'⟩
      · rw [pull_of_none hn]
        cases hm : e.mnemonic? <;> simp [pullWithin, hn, hm]
      · rw [Cursor.findings_of_some hn, List.length_cons] at h
        have hrest {e : Expectation} : e.pullWithin c' calls = some (e.pull c') :=
          ih (Nat.lt_of_succ_lt_succ h)
        rw [pull_of_token hn]
        cases hfeed : e.feed t with
        | more next => simp [pullWithin, hn, hfeed, hrest]
        | complete m o => simp [pullWithin, hn, hfeed, hrest]
        | refused fault => simp [pullWithin, hn, hfeed]
      · rw [pull_of_fault hn]
        simp [pullWithin, hn]

end Expectation

namespace Program

/-- The program whose text a cursor has before it, read with at most this many calls, and the cursor
after the last call, unless more calls are needed. -/
def pullWithin (c : Cursor) (calls : Nat) : Option (Except AssemblyError Program × Cursor) :=
  (Expectation.name.pullWithin c calls).map fun (result, last) => (result.map ofList, last)

/-- Within a line up to its line feed each call takes characters off the front and leaves the source
alone, and a reading holds only such lines. So in a text the end is reported after at most as many
findings as the text has characters with the line feed of its last line, and reading a program ends
in any source, with one call more at most than the cursor has characters, pieces and lines before
it. -/
theorem reading_makes_progress :
    (∀ c : Cursor, c.ended = false → '\n' ∈ c.line →
      ∃ l rest, rest <:+ c.line ∧ rest.length < c.line.length ∧
        ∀ source, Cursor.next { c with source := source } =
          (some ⟨c.lineNr, l⟩, { c with source := source, line := rest })) ∧
    (∀ (s : Source) (n : Nat), ((Cursor.ofSource s).after n).line ≠ [] →
      '\n' ∈ ((Cursor.ofSource s).after n).line) ∧
    (∀ text : String, ∃ k, k ≤ (if text = "" then 0 else (Source.terminated text.toList).length) ∧
      (∀ j < k, ((Cursor.ofSource (.ofString text)).after j).next.1 ≠ none) ∧
      ((Cursor.ofSource (.ofString text)).after k).next.1 = none) ∧
    ∀ (c : Cursor) (calls : Nat), c.remaining < calls →
      ∃ last, pullWithin c calls = some (ofCursor c, last) := by
  refine ⟨fun c => Cursor.exists_next_of_mem, fun s n => ?_, fun text => ?_,
    fun c calls hcalls => ?_⟩
  · exact ((Cursor.holdsLine_ofSource s).after n).lineFeed_mem
  · let c := Cursor.ofSource (.ofString text)
    refine ⟨c.findings.length, Cursor.length_findings_ofString_le text, fun j hj => ?_, ?_⟩
    · rw [Cursor.next_after (Nat.le_of_lt hj), List.getElem?_eq_getElem hj]
      exact Option.some_ne_none _
    · rw [Cursor.next_after (Nat.le_refl _), List.getElem?_eq_none (Nat.le_refl _)]
  · have hpull : Expectation.name.pullWithin c calls = some (Expectation.name.pull c) :=
      Expectation.pullWithin_of_lt (Nat.lt_of_le_of_lt c.length_findings_le hcalls)
    refine ⟨(pull c).2, ?_⟩
    rw [pullWithin, hpull, ← pull_eq_ofCursor]
    rfl

/-- Behind an equals sign, a number that is spoiled is taken with the character behind it, and then
reading ends. -/
theorem reading_makes_progress_behind_number :
    let c := (Cursor.ofSource (.ofText ['=', '9', 'x', ')', '\n', '#'])).after 1
    c.ended = false ∧ c.line = ['9', 'x', ')', '\n'] ∧ '\n' ∈ c.line ∧ c.remaining = 6 ∧
      c.next = (some ⟨1, .fault (.invalidNumber ['9'] 'x')⟩, { c with line := [')', '\n'] }) ∧
      [')', '\n'] <:+ c.line ∧
      ∃ last, pullWithin c 7 = some (.error (.lexical 1 (.invalidNumber ['9'] 'x')), last) := by
  intro c
  obtain ⟨hprogress, hheld, _, hends⟩ := reading_makes_progress
  have hc : c = ⟨.ofText ['#'], ['9', 'x', ')', '\n'], 1, false⟩ := by cbv
  have hended : c.ended = false := congrArg Cursor.ended hc
  have hline : c.line = ['9', 'x', ')', '\n'] := congrArg Cursor.line hc
  have hne : c.line ≠ [] := by simp [hline]
  have hmem : '\n' ∈ c.line := hheld _ 1 hne
  obtain ⟨l, rest, hsuffix, _, hnext⟩ := hprogress c hended hmem
  have hfound : c.next =
      (some ⟨1, .fault (.invalidNumber ['9'] 'x')⟩, { c with line := [')', '\n'] }) := by
    rw [hc]
    cbv
  have hrest : rest = [')', '\n'] :=
    congrArg (fun call => call.2.line) ((hnext c.source).symm.trans hfound)
  have hremaining : c.remaining = 6 := by
    rw [hc]
    cbv
  have hprogram : ofCursor c = .error (.lexical 1 (.invalidNumber ['9'] 'x')) := by
    rw [hc]
    cbv
  obtain ⟨last, hlast⟩ := hends c 7 (by omega)
  exact ⟨hended, hline, hmem, hremaining, hfound, hrest ▸ hsuffix, last, hprogram ▸ hlast⟩

end Program

end RandomAccessMachine
