import RandomAccessMachine.Proofs.Text.Utf8

/-!
# The lines of a text

A text is cut behind each line feed. A last line without a line feed counts,
and nothing behind the last line feed does not. A source that delivers a text
delivers these lines one after the other, each with a line feed at its end.

## Implementation notes

`readLine_line` allows anything to follow a line that ends with a line feed,
so it does not matter what comes after such a line.
-/

namespace RandomAccessMachine

/-- The lines of a text without their line feeds. -/
def textLines : List Char → List (List Char)
  | [] => []
  | c :: rest =>
      if c = '\n' then [] :: textLines rest
      else
        match textLines rest with
        | [] => [[c]]
        | line :: lines => (c :: line) :: lines

@[simp] theorem textLines_nil : textLines [] = [] := rfl

theorem textLines_of_ne {c : Char} (h : c ≠ '\n') (rest : List Char) :
    textLines (c :: rest) =
      (c :: (textLines rest).headD []) :: (textLines rest).tail := by
  rw [textLines, if_neg h]
  cases textLines rest <;> rfl

/-- A line that ends with a line feed is the first line of a text. -/
theorem textLines_line {line : List Char} (h : '\n' ∉ line) (rest : List Char) :
    textLines (line ++ '\n' :: rest) = line :: textLines rest := by
  induction line with
  | nil => simp [textLines]
  | cons c line ih =>
      obtain ⟨hc, hline⟩ := not_or.mp (mt List.mem_cons.mpr h)
      rw [List.cons_append, textLines_of_ne (Ne.symm hc), ih hline]
      rfl

/-- A text that is made of lines with line feeds behind them has these lines. -/
theorem textLines_flatMap {lines : List (List Char)} (h : ∀ line ∈ lines, '\n' ∉ line) :
    textLines (lines.flatMap (· ++ ['\n'])) = lines := by
  induction lines with
  | nil => rfl
  | cons line lines ih =>
      obtain ⟨hline, hlines⟩ := List.forall_mem_cons.mp h
      rw [List.flatMap_cons, List.append_assoc, List.singleton_append, textLines_line hline,
        ih hlines]

/-- The line feeds behind these lines are all there are in the text. -/
theorem count_lineFeed_flatMap {lines : List (List Char)} (h : ∀ line ∈ lines, '\n' ∉ line) :
    (lines.flatMap (· ++ ['\n'])).count '\n' = lines.length := by
  induction lines with
  | nil => rfl
  | cons line lines ih =>
      obtain ⟨hline, hlines⟩ := List.forall_mem_cons.mp h
      rw [List.flatMap_cons, List.count_append, List.count_append, List.count_eq_zero.mpr hline,
        List.count_singleton_self, ih hlines, List.length_cons, Nat.zero_add, Nat.add_comm]

/-- A text without a line feed is a single line. -/
theorem textLines_last {line : List Char} (h : '\n' ∉ line) (hne : line ≠ []) :
    textLines line = [line] := by
  induction line with
  | nil => exact absurd rfl hne
  | cons c line ih =>
      obtain ⟨hc, hline⟩ := not_or.mp (mt List.mem_cons.mpr h)
      rw [textLines_of_ne (Ne.symm hc)]
      cases line with
      | nil => rfl
      | cons d line => simp [ih hline]

/-- A text is empty, a last line, or a line in front of another text. -/
theorem text_cases (text : List Char) :
    text = [] ∨ (text ≠ [] ∧ '\n' ∉ text) ∨
      ∃ line rest, '\n' ∉ line ∧ text = line ++ '\n' :: rest := by
  by_cases h : '\n' ∈ text
  · obtain ⟨line, rest, rfl, hline⟩ := List.eq_append_cons_of_mem h
    exact .inr (.inr ⟨line, rest, hline, rfl⟩)
  · by_cases hne : text = []
    · exact .inl hne
    · exact .inr (.inl ⟨hne, h⟩)

/-- Taking whole lines off a text leads to the empty text. -/
@[elab_as_elim]
theorem text_induction {motive : List Char → Prop} (nil : motive [])
    (last : ∀ line, '\n' ∉ line → line ≠ [] → motive line)
    (line : ∀ line rest, '\n' ∉ line → motive rest → motive (line ++ '\n' :: rest))
    (text : List Char) : motive text := by
  induction hl : text.length using Nat.strongRecOn generalizing text with
  | ind k ih =>
      obtain rfl | ⟨hne, hline⟩ | ⟨first, rest, hfirst, rfl⟩ := text_cases text
      · exact nil
      · exact last text hline hne
      · have hlt : rest.length < k := by
          rw [← hl, List.length_append, List.length_cons]
          omega
        exact line first rest hfirst (ih rest.length hlt rest rfl)

/-- No line holds a line feed. -/
theorem lineFeed_notMem_of_mem_textLines {text line : List Char} (h : line ∈ textLines text) :
    '\n' ∉ line := by
  induction text generalizing line with
  | nil => simp at h
  | cons c rest ih =>
      by_cases hc : c = '\n'
      · rw [textLines, if_pos hc] at h
        obtain rfl | h := List.mem_cons.mp h
        · simp
        · exact ih h
      · rw [textLines_of_ne hc] at h
        cases hl : textLines rest with
        | nil =>
            simp only [hl, List.headD_nil, List.tail_nil, List.mem_singleton] at h
            simpa [h] using Ne.symm hc
        | cons first lines =>
            simp only [hl, List.headD_cons, List.tail_cons, List.mem_cons] at h
            obtain rfl | h := h
            · have hfirst : '\n' ∉ first := ih (by simp [hl])
              simpa [hfirst] using Ne.symm hc
            · exact ih (by simp [hl, h])

/-- The lines of a text with line feeds behind them are the text, with a line feed at its end. -/
theorem flatMap_textLines {text : List Char} (hne : text ≠ []) :
    (textLines text).flatMap (· ++ ['\n']) = Source.terminated text := by
  induction text using text_induction with
  | nil => exact absurd rfl hne
  | last line hline _ =>
      have hlast : line.getLast? ≠ some '\n' := fun hl => hline (List.mem_of_getLast? hl)
      rw [textLines_last hline hne, Source.terminated, if_neg hlast]
      exact List.append_nil _
  | line line rest hline ih =>
      rw [textLines_line hline, List.flatMap_cons]
      cases rest with
      | nil => simp [Source.terminated]
      | cons c rest =>
          have hlast : (line ++ '\n' :: c :: rest).getLast? = (c :: rest).getLast? := by
            rw [List.getLast?_append, List.getLast?_cons_cons, List.getLast?_cons, Option.some_or]
          rw [ih (List.cons_ne_nil c rest), Source.terminated, Source.terminated, hlast]
          split <;> simp

/-- A text of complete lines is made of its lines with line feeds behind them. -/
theorem flatMap_textLines_of_complete {text : List Char}
    (h : text = [] ∨ text.getLast? = some '\n') :
    (textLines text).flatMap (· ++ ['\n']) = text := by
  by_cases hne : text = []
  · rw [hne]
    rfl
  · rw [flatMap_textLines hne, Source.terminated, if_pos (h.resolve_left hne)]

namespace Source

/-- The source that delivers characters in UTF-8. -/
def ofText (text : List Char) : Source := ofBytes (Utf8.bytes text)

theorem ofString_eq_ofText (text : String) : ofString text = ofText text.toList := by
  rw [ofString, ofText, Utf8.toList_toUTF8]

theorem ofText_append (a b : List Char) : ofText (a ++ b) = ofText a ++ ofText b := by
  simp [ofText, ofBytes]

/-- A line is delivered with its line feed, and then the rest of the text. -/
theorem ofText_line (line rest : List Char) :
    ofText (line ++ '\n' :: rest) = ofText (line ++ ['\n']) ++ ofText rest := by
  rw [← ofText_append, List.append_assoc, List.singleton_append]

/-- Bytes other than line feeds belong to the line that is being split off. -/
theorem cut_ofBytes {bytes : List UInt8} (h : 10 ∉ bytes) (seen : List UInt8) (rest : Source) :
    cut seen (ofBytes bytes ++ rest) = cut (bytes.reverse ++ seen) rest := by
  induction bytes generalizing seen with
  | nil => rfl
  | cons b bytes ih =>
      obtain ⟨hb, hbytes⟩ := not_or.mp (mt List.mem_cons.mpr h)
      have hstep : cut seen (ofBytes (b :: bytes) ++ rest) =
          cut (b :: seen) (ofBytes bytes ++ rest) := by
        simp only [ofBytes, List.map_cons, List.cons_append, cut, if_neg (Ne.symm hb)]
      rw [hstep, ih hbytes]
      simp

theorem decoded_bytes (line : List Char) :
    (Cut.bytes (Utf8.bytes line)).decoded = .line (terminated line) := by
  simp only [Cut.decoded, Utf8.decode?_bytes]

/-- A line of text is read up to its line feed, whatever follows. -/
theorem readLine_line {line : List Char} (h : '\n' ∉ line) (rest : Source) :
    readLine (ofText (line ++ ['\n']) ++ rest) = (.line (line ++ ['\n']), rest) := by
  have hcut : cut [] (ofText (line ++ ['\n']) ++ rest) =
      (.bytes (Utf8.bytes (line ++ ['\n'])), rest) := by
    rw [ofText_append, List.append_assoc]
    simp only [ofText]
    rw [cut_ofBytes (Utf8.ten_notMem_bytes h)]
    simp [ofBytes, cut]
  rw [readLine, hcut, decoded_bytes]
  simp [terminated]

/-- The last line of a text is read with a line feed at its end. -/
theorem readLine_last {line : List Char} (h : '\n' ∉ line) (hne : line ≠ []) :
    readLine (ofText line) = (.line (line ++ ['\n']), []) := by
  have hbytes := Utf8.bytes_ne_nil hne
  have hcut : cut [] (ofText line) = (.bytes (Utf8.bytes line), []) := by
    have := cut_ofBytes (Utf8.ten_notMem_bytes h) [] []
    rw [List.append_nil, List.append_nil] at this
    rw [ofText, this]
    simp [cut, Cut.atEnd, hbytes]
  have hlast : line.getLast? ≠ some '\n' := by
    intro hl
    exact h (List.mem_of_getLast? hl)
  rw [readLine, hcut, decoded_bytes, terminated, if_neg hlast]

theorem readLine_nil : readLine [] = (.ended, []) := rfl

end Source

end RandomAccessMachine
