import Mathlib
import RandomAccessMachine.Proofs.Assembly.LineLexemes

/-!
# Findings in texts that are put together

What is found in a line does not depend on the lines before it, apart from
the line number. So the findings in a text behind complete lines are those in
the text alone with greater line numbers, and faults make no difference. A
line feed at the end of the last line makes no difference either.

## Implementation notes

Between two lines a cursor holds nothing but their number, and every call
treats a number that is greater by some amount in the same way (`next_later`).
-/

namespace RandomAccessMachine

/-- The same finding with this many more lines before it. -/
def Finding.later (k : Nat) (f : Finding) : Finding := { f with line := f.line + k }

namespace Cursor

variable {lines : List (List Char)} {text : List Char}

/-- The same cursor with this many more lines before it. -/
def later (k : Nat) (c : Cursor) : Cursor := { c with lineNr := c.lineNr + k }

theorem fill_later (k : Nat) (c : Cursor) : (c.later k).fill = (c.fill.1, c.fill.2.later k) := by
  unfold fill later
  dsimp only
  split
  · rcases c.source.readLine with ⟨chars | reason | _, source⟩
    · simp only [Nat.add_right_comm]
    · rfl
    · rfl
  · rfl

/-- More lines before a cursor do not change what a call reports, apart from the line number. -/
theorem next_later (k : Nat) (c : Cursor) :
    (c.later k).next = (c.next.1.map (Finding.later k), c.next.2.later k) := by
  rw [next, fill_later, next]
  rcases c.fill with ⟨reason | _, filled⟩
  · simp [later, Finding.later, Nat.add_right_comm]
  · cases hended : filled.ended <;> simp [later, Finding.later, hended]

/-- Lines in front of a source are found first, and then what is found in the source. -/
theorem findings_lines_append (h : ∀ line ∈ lines, '\n' ∉ line) (source : Source) (n : Nat) :
    findings ⟨.ofText (lines.flatMap (· ++ ['\n'])) ++ source, [], n, false⟩ =
      lineFindings n lines ++ findings ⟨source, [], n + lines.length, false⟩ := by
  induction lines generalizing n with
  | nil => rfl
  | cons line lines ih =>
      obtain ⟨hline, hlines⟩ := List.forall_mem_cons.mp h
      have hnumber : n + 1 + lines.length = n + (line :: lines).length := by
        rw [List.length_cons]
        omega
      calc
        findings ⟨.ofText ((line :: lines).flatMap (· ++ ['\n'])) ++ source, [], n, false⟩ =
            findings ⟨.ofText (line ++ ['\n']) ++
              (.ofText (lines.flatMap (· ++ ['\n'])) ++ source), [], n, false⟩ := by
          rw [List.flatMap_cons, Source.ofText_append, List.append_assoc]
        _ = (Lexeme.ofLine (line ++ ['\n'])).map (Finding.mk (n + 1)) ++
              (lineFindings (n + 1) lines ++
                findings ⟨source, [], n + 1 + lines.length, false⟩) := by
          rw [findings_line_append hline, ih hlines]
        _ = lineFindings n (line :: lines) ++
              findings ⟨source, [], n + (line :: lines).length, false⟩ := by
          rw [lineFindings, List.append_assoc, hnumber]

/-- A text of complete lines in front of a source is found first. The findings in the source are
those in the source alone, with the lines of the text added to the line numbers. -/
theorem findings_text_append (h : text = [] ∨ text.getLast? = some '\n') (source : Source)
    (n : Nat) :
    findings ⟨.ofText text ++ source, [], n, false⟩ =
      findings ⟨.ofText text, [], n, false⟩ ++
        (findings ⟨source, [], n, false⟩).map (Finding.later (text.count '\n')) := by
  have hlines : ∀ line ∈ textLines text, '\n' ∉ line :=
    fun _ => lineFeed_notMem_of_mem_textLines
  have hcount : text.count '\n' = (textLines text).length := by
    rw [← count_lineFeed_flatMap hlines, flatMap_textLines_of_complete h]
  calc
    findings ⟨.ofText text ++ source, [], n, false⟩ =
        lineFindings n (textLines text) ++
          findings ⟨source, [], n + (textLines text).length, false⟩ := by
      rw [← findings_lines_append hlines, flatMap_textLines_of_complete h]
    _ = findings ⟨.ofText text, [], n, false⟩ ++
          findings (later (text.count '\n') ⟨source, [], n, false⟩) := by
      rw [findings_ofText, hcount, later]
    _ = findings ⟨.ofText text, [], n, false⟩ ++
          (findings ⟨source, [], n, false⟩).map (Finding.later (text.count '\n')) := by
      rw [findings_map (next_later _)]

/-- A line feed behind a last line without one changes no finding. -/
theorem findings_text_lineFeed (hne : text ≠ []) (hlast : text.getLast? ≠ some '\n') (n : Nat) :
    findings ⟨.ofText (text ++ ['\n']), [], n, false⟩ =
      findings ⟨.ofText text, [], n, false⟩ := by
  have hterminated : (textLines text).flatMap (· ++ ['\n']) = text ++ ['\n'] := by
    rw [flatMap_textLines hne, Source.terminated, if_neg hlast]
  have hlines : textLines (text ++ ['\n']) = textLines text := by
    rw [← hterminated]
    exact textLines_flatMap fun _ => lineFeed_notMem_of_mem_textLines
  rw [findings_ofText, findings_ofText, hlines]

/-- The findings in two texts one behind the other are those in the first and then those in the
second, with the lines of the first added to their line numbers, if the first text is empty or
ends with a line feed. If it does neither, a line feed behind it changes no finding. -/
theorem findings_of_concatenation (a b : String) :
    (a = "" ∨ a.toList.getLast? = some '\n' →
      findings (ofSource (.ofString (a ++ b))) =
        findings (ofSource (.ofString a)) ++
          (findings (ofSource (.ofString b))).map (Finding.later (a.toList.count '\n'))) ∧
    (a ≠ "" → a.toList.getLast? ≠ some '\n' →
      findings (ofSource (.ofString (a ++ "\n"))) = findings (ofSource (.ofString a))) := by
  simp only [Source.ofString_eq_ofText, String.toList_append, ofSource]
  constructor
  · intro hcomplete
    rw [Source.ofText_append]
    apply findings_text_append
    exact hcomplete.imp_left fun hempty => by rw [hempty]; rfl
  · intro hne hlast
    refine findings_text_lineFeed ?_ hlast 0
    exact mt String.toList_eq_nil_iff.mp hne

/-- Faults on the first line do not change what is found behind it, and the last line needs no
line feed. -/
theorem findings_of_concatenation_behind_fault :
    let a := "9$ NO\n"
    let b := "JUMP 2"
    findings (ofSource (.ofString (a ++ b))) =
        [⟨1, .fault (.invalidNumber ['9'] '$')⟩, ⟨1, .fault (.unknownName ['N', 'O'])⟩,
          ⟨1, .token .newline⟩] ++
          [⟨2, .token (.keyword .jump)⟩, ⟨2, .token (.number 2)⟩, ⟨2, .token .newline⟩] ∧
      findings (ofSource (.ofString (b ++ "\n"))) = findings (ofSource (.ofString b)) := by
  intro a b
  constructor
  · rw [(findings_of_concatenation a b).1 (.inr (by decide))]
    cbv
  · exact (findings_of_concatenation b b).2 (by decide) (by decide)

end Cursor

end RandomAccessMachine
