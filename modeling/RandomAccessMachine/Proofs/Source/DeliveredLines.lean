import RandomAccessMachine.Proofs.Source.TextLines

/-!
# The lines that a source delivers

A source is cut behind each line feed, behind each failure, and behind an end
that is reported within a line. An end that is reported at the beginning of a
line is the end of the last line. Reading takes the first of these lines off a
source and leaves the others.

## Implementation notes

`FirstLine` describes a line together with what follows it. Only a last line
without a line feed needs what follows to be empty, so any other line stays
the first line when something else follows it.
-/

namespace RandomAccessMachine.Source

/-- Put a piece in front of the first line, if there is one. -/
def intoFirst (piece : Piece) : List Source → List Source
  | [] => []
  | line :: lines => (piece :: line) :: lines

/-- The lines of a source, the first of which may have begun before. -/
def linesFrom (begun : Bool) : Source → List Source
  | [] => if begun then [[]] else []
  | .pause :: rest => if begun then [.pause] :: linesFrom false rest else []
  | .interruption :: rest => intoFirst .interruption (linesFrom begun rest)
  | .failure reason :: rest => [.failure reason] :: linesFrom false rest
  | .byte b :: rest =>
      if b = 10 then [.byte b] :: linesFrom false rest
      else intoFirst (.byte b) (linesFrom true rest)

/-- The lines of a source with the pieces that end them. -/
def lines (s : Source) : List Source := linesFrom false s

/-- The first lines of a source, as many as asked for. -/
def firstLines (s : Source) (n : Nat) : Source := (s.lines.take n).flatten

/-- A line, or the rest of one that has begun before, and what can follow it. -/
inductive FirstLine : Bool → Source → Source → Prop
  | lastEnd : FirstLine true [] []
  | pause (rest : Source) : FirstLine true [.pause] rest
  | failure (begun : Bool) (reason : String) (rest : Source) :
      FirstLine begun [.failure reason] rest
  | lineFeed (begun : Bool) (rest : Source) : FirstLine begun [.byte 10] rest
  | interruption {begun : Bool} {line rest : Source} (h : FirstLine begun line rest) :
      FirstLine begun (.interruption :: line) rest
  | byte {line rest : Source} {b : UInt8} (hb : b ≠ 10) (begun : Bool)
      (h : FirstLine true line rest) : FirstLine begun (.byte b :: line) rest

namespace FirstLine

variable {begun : Bool} {line rest : Source}

theorem linesFrom (h : FirstLine begun line rest) :
    Source.linesFrom begun (line ++ rest) = line :: rest.lines := by
  induction h with
  | lastEnd => rfl
  | pause rest => rfl
  | failure begun reason rest => rfl
  | lineFeed begun rest => rfl
  | interruption _ ih => simp only [List.cons_append, Source.linesFrom, ih, intoFirst]
  | byte hb begun _ ih => simp only [List.cons_append, Source.linesFrom, hb, if_false, ih, intoFirst]

theorem lines (h : FirstLine false line rest) : (line ++ rest).lines = line :: rest.lines :=
  h.linesFrom

theorem firstLines_succ (h : FirstLine false line rest) (n : Nat) :
    Source.firstLines (line ++ rest) (n + 1) = line ++ rest.firstLines n := by
  rw [Source.firstLines, h.lines]
  rfl

/-- A line may be the last one. -/
theorem alone (h : FirstLine begun line rest) : FirstLine begun line [] := by
  induction h with
  | lastEnd => exact .lastEnd
  | pause rest => exact .pause []
  | failure begun reason rest => exact .failure begun reason []
  | lineFeed begun rest => exact .lineFeed begun []
  | interruption _ ih => exact .interruption ih
  | byte hb begun _ ih => exact .byte hb begun ih

/-- A line that something follows, or that ends with a line feed, may be followed by anything. -/
theorem followed (h : FirstLine begun line rest)
    (hend : rest ≠ [] ∨ line.getLast? = some (.byte 10)) (other : Source) :
    FirstLine begun line other := by
  induction h with
  | lastEnd => simp at hend
  | pause rest => exact .pause other
  | failure begun reason rest => exact .failure begun reason other
  | lineFeed begun rest => exact .lineFeed begun other
  | @interruption begun line rest h ih =>
      refine .interruption (ih (hend.imp_right fun hlast => ?_))
      cases line with
      | nil => simp at hlast
      | cons piece line => simpa using hlast
  | @byte line rest b hb begun h ih =>
      refine .byte hb begun (ih (hend.imp_right fun hlast => ?_))
      cases line with
      | nil => simp [hb] at hlast
      | cons piece line => simpa using hlast

/-- A line is split off whole, and what follows it is left. -/
theorem cut (h : FirstLine begun line rest) {seen : List UInt8} (hseen : seen.isEmpty = !begun) :
    Source.cut seen (line ++ rest) = ((Source.cut seen line).1, rest) ∧
      (Source.cut seen line).1 ≠ .ended := by
  induction h generalizing seen with
  | lastEnd =>
      have hne : seen.isEmpty = false := hseen
      simp [Source.cut, Cut.atEnd, hne]
  | pause rest =>
      have hne : seen.isEmpty = false := hseen
      simp [Source.cut, Cut.atEnd, hne]
  | failure begun reason rest => simp [Source.cut]
  | lineFeed begun rest => simp [Source.cut]
  | interruption _ ih => exact ih hseen
  | byte hb begun _ ih =>
      simp only [List.cons_append, Source.cut, hb, if_false]
      exact ih rfl

/-- Reading takes the line and leaves what follows it. -/
theorem readLine (h : FirstLine false line rest) :
    Source.readLine (line ++ rest) = ((Source.readLine line).1, rest) := by
  rw [Source.readLine, (h.cut rfl).1, Source.readLine]

theorem readLine_ne_ended (h : FirstLine false line rest) :
    (Source.readLine line).1 ≠ .ended := by
  have hcut : (Source.cut [] line).1 ≠ .ended := (h.cut rfl).2
  simp only [Source.readLine]
  cases hc : (Source.cut [] line).1 with
  | bytes bytes =>
      simp only [Cut.decoded]
      split <;> simp
  | failed reason => simp [Cut.decoded]
  | ended => exact absurd hc hcut

/-- What follows a line is shorter than the source. -/
theorem length_lt (h : FirstLine false line rest) : rest.length < (line ++ rest).length := by
  cases line with
  | nil => cases h
  | cons piece line => simp only [List.cons_append, List.length_cons, List.length_append]; omega

/-- Bytes in front of a line feed are a line with it. -/
theorem ofBytes {bytes : List UInt8} (h : 10 ∉ bytes) (begun : Bool) (rest : Source) :
    FirstLine begun (Source.ofBytes bytes ++ [.byte 10]) rest := by
  induction bytes generalizing begun with
  | nil => exact .lineFeed begun rest
  | cons b bytes ih =>
      obtain ⟨hb, hbytes⟩ := not_or.mp (mt List.mem_cons.mpr h)
      exact .byte (Ne.symm hb) begun (ih hbytes true)

/-- Bytes without a line feed are the rest of a last line. -/
theorem ofLastBytes {bytes : List UInt8} (h : 10 ∉ bytes) :
    FirstLine true (Source.ofBytes bytes) [] := by
  induction bytes with
  | nil => exact .lastEnd
  | cons b bytes ih =>
      obtain ⟨hb, hbytes⟩ := not_or.mp (mt List.mem_cons.mpr h)
      exact .byte (Ne.symm hb) true (ih hbytes)

end FirstLine

/-- A source has a first line, or its end is found in place of one. -/
theorem linesFrom_cases (begun : Bool) (s : Source) :
    (begun = false ∧ linesFrom begun s = [] ∧ (cut [] s).1 = .ended) ∨
      ∃ line rest, s = line ++ rest ∧ FirstLine begun line rest := by
  induction s generalizing begun with
  | nil =>
      cases begun with
      | false => exact .inl ⟨rfl, rfl, rfl⟩
      | true => exact .inr ⟨[], [], rfl, .lastEnd⟩
  | cons piece rest ih =>
      cases piece with
      | byte b =>
          by_cases hb : b = 10
          · subst hb
            exact .inr ⟨_, rest, rfl, .lineFeed begun rest⟩
          · obtain ⟨hfalse, _⟩ | ⟨line, rest, rfl, h⟩ := ih true
            · cases hfalse
            · exact .inr ⟨_, rest, rfl, .byte hb begun h⟩
      | failure reason => exact .inr ⟨_, rest, rfl, .failure begun reason rest⟩
      | interruption =>
          obtain ⟨rfl, hnil, hended⟩ | ⟨line, rest, rfl, h⟩ := ih begun
          · exact .inl ⟨rfl, by rw [linesFrom, hnil]; rfl, hended⟩
          · exact .inr ⟨_, rest, rfl, .interruption h⟩
      | pause =>
          cases begun with
          | false => exact .inl ⟨rfl, rfl, rfl⟩
          | true => exact .inr ⟨_, rest, rfl, .pause rest⟩

/-- A source has no lines and reports its end, or it has a first line. -/
theorem lines_cases (s : Source) :
    (s.lines = [] ∧ s.readLine.1 = .ended) ∨
      ∃ line rest, s = line ++ rest ∧ FirstLine false line rest := by
  obtain ⟨_, hnil, hended⟩ | h := linesFrom_cases false s
  · exact .inl ⟨hnil, by simp [readLine, hended, Cut.decoded]⟩
  · exact .inr h

/-- Unless the end is met, a first line is taken off a source. -/
theorem exists_firstLine_of_readLine {s rest : Source} {read : LineRead}
    (h : s.readLine = (read, rest)) (hread : read ≠ .ended) :
    ∃ line, s = line ++ rest ∧ FirstLine false line rest ∧ line.readLine.1 = read := by
  obtain ⟨_, hended⟩ | ⟨line, rest', rfl, hfirst⟩ := s.lines_cases
  · rw [h] at hended
    exact absurd hended hread
  · cases hfirst.readLine.symm.trans h
    exact ⟨line, rfl, hfirst, rfl⟩

/-- Taking first lines off a source leads to one that reports its end. -/
@[elab_as_elim]
theorem lines_induction {motive : Source → Prop}
    (ended : ∀ s : Source, s.lines = [] → s.readLine.1 = .ended → motive s)
    (line : ∀ line rest, FirstLine false line rest → motive rest → motive (line ++ rest))
    (s : Source) : motive s := by
  induction hl : s.length using Nat.strongRecOn generalizing s with
  | ind k ih =>
      obtain ⟨hnil, hended⟩ | ⟨first, rest, rfl, hfirst⟩ := s.lines_cases
      · exact ended s hnil hended
      · apply line first rest hfirst
        exact ih rest.length (hl ▸ hfirst.length_lt) rest rfl

/-- The bytes of a line hold a line feed at most at their end. -/
theorem bytes_of_cut {seen bytes : List UInt8} {s : Source} (hseen : 10 ∉ seen)
    (h : (cut seen s).1 = .bytes bytes) :
    10 ∉ bytes ∨ ∃ body, 10 ∉ body ∧ bytes = body ++ [10] := by
  have hend {seen : List UInt8} (hseen : 10 ∉ seen) (h : Cut.atEnd seen = .bytes bytes) :
      10 ∉ bytes := by
    unfold Cut.atEnd at h
    split at h
    · cases h
    · cases h
      simpa using hseen
  induction s generalizing seen with
  | nil => exact .inl (hend hseen h)
  | cons piece rest ih =>
      cases piece with
      | pause => exact .inl (hend hseen h)
      | interruption => exact ih hseen h
      | failure reason => cases h
      | byte b =>
          simp only [cut] at h
          split at h
          · rename_i hb
            cases h
            exact .inr ⟨seen.reverse, by simpa using hseen, by simp [hb]⟩
          · rename_i hb
            refine ih ?_ h
            simp [hseen, Ne.symm hb]

/-- Characters whose bytes end with the only line feed among them do so too. -/
theorem exists_body_of_bytes {chars : List Char} {body : List UInt8} (hbody : 10 ∉ body)
    (h : Utf8.bytes chars = body ++ [10]) :
    ∃ text, '\n' ∉ text ∧ chars = text ++ ['\n'] := by
  obtain rfl | ⟨text, c, rfl⟩ := List.eq_nil_or_concat chars
  · simp at h
  · rw [List.concat_eq_append] at h ⊢
    obtain rfl := Utf8.eq_lineFeed_of_bytes h
    rw [Utf8.bytes_append, Utf8.bytes_lineFeed] at h
    have htext := List.append_cancel_right h
    exact ⟨text, Utf8.lineFeed_notMem_of_bytes (htext ▸ hbody), rfl⟩

/-- The characters of a line that is read end with the only line feed among them. -/
theorem exists_body_of_readLine {s : Source} {chars : List Char}
    (h : s.readLine.1 = .line chars) : ∃ body, '\n' ∉ body ∧ chars = body ++ ['\n'] := by
  simp only [readLine] at h
  cases hc : (cut [] s).1 with
  | failed reason => simp [hc, Cut.decoded] at h
  | ended => simp [hc, Cut.decoded] at h
  | bytes bytes =>
      simp only [hc, Cut.decoded] at h
      split at h
      · rename_i read hread
        injection h with h
        subst h
        have hbytes := Utf8.bytes_of_decode? hread
        obtain hnone | ⟨body, hbody, rfl⟩ := bytes_of_cut (by simp) hc
        · have hmem : '\n' ∉ read := Utf8.lineFeed_notMem_of_bytes (hbytes ▸ hnone)
          refine ⟨read, hmem, ?_⟩
          rw [terminated, if_neg fun hlast => hmem (List.mem_of_getLast? hlast)]
        · obtain ⟨text, htext, rfl⟩ := exists_body_of_bytes hbody hbytes
          exact ⟨text, htext, by simp [terminated]⟩
      · cases h

/-- A line of text with its line feed is a line, whatever follows. -/
theorem FirstLine.ofText {line : List Char} (h : '\n' ∉ line) (rest : Source) :
    FirstLine false (Source.ofText (line ++ ['\n'])) rest := by
  rw [ofText_append]
  exact .ofBytes (Utf8.ten_notMem_bytes h) false rest

/-- A last line of text needs no line feed. -/
theorem FirstLine.ofLastText {line : List Char} (h : '\n' ∉ line) (hne : line ≠ []) :
    FirstLine false (Source.ofText line) [] := by
  have hbytes := Utf8.ten_notMem_bytes h
  rw [Source.ofText]
  cases hb : Utf8.bytes line with
  | nil => exact absurd hb (Utf8.bytes_ne_nil hne)
  | cons b bytes =>
      rw [hb] at hbytes
      obtain ⟨hten, hrest⟩ := not_or.mp (mt List.mem_cons.mpr hbytes)
      exact .byte (Ne.symm hten) false (.ofLastBytes hrest)

/-- A text has as many lines as a source as it is cut into. -/
theorem length_lines_ofText (text : List Char) :
    (ofText text).lines.length = (textLines text).length := by
  induction text using text_induction with
  | nil => rfl
  | last line hline hne =>
      have hlines := (FirstLine.ofLastText hline hne).lines
      rw [List.append_nil] at hlines
      rw [hlines, textLines_last hline hne]
      rfl
  | line line rest hline ih =>
      rw [ofText_line, (FirstLine.ofText hline _).lines, textLines_line hline, List.length_cons,
        List.length_cons, ih]

end RandomAccessMachine.Source
