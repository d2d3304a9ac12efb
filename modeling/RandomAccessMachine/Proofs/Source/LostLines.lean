import Mathlib.Data.List.SplitBy
import RandomAccessMachine.Proofs.Source.DeliveredLines

/-!
# Lines that are lost

A line is lost if a failure cuts it off or if its bytes are not in UTF-8.
Reading fails for these lines and for no others. A source is mended by taking
them out, and the other lines follow one another then as they did before.

## Implementation notes

`mended` cuts a source wherever a piece ends a line, and does not ask which
lines are read. So it also takes out what is lost behind a reported end.
-/

namespace RandomAccessMachine

namespace Piece

/-- The byte that a piece delivers, if it delivers one. -/
def byte? : Piece → Option UInt8
  | .byte b => some b
  | _ => none

def isFailure : Piece → Bool
  | .failure _ => true
  | _ => false

/-- Whether what follows a piece belongs to another line. -/
def endsLine : Piece → Bool
  | .byte b => b == 10
  | .failure _ => true
  | .interruption => false
  | .pause => true

/-- Whether a piece delivers nothing and does not fail. -/
def isIdle (piece : Piece) : Bool := !piece.isFailure && piece.byte?.isNone

theorem endsLine_byte_eq_false_iff {b : UInt8} : (byte b).endsLine = false ↔ b ≠ 10 := by
  simp [endsLine]

theorem isFailure_of_endsLine_eq_false {piece : Piece} (h : piece.endsLine = false) :
    piece.isFailure = false := by
  cases piece with
  | failure => cases h
  | byte | interruption | pause => rfl

end Piece

namespace Source

/-- Whether a line is cut off by a failure, or its bytes are not in UTF-8. -/
def isLost (line : Source) : Bool :=
  line.any Piece.isFailure || (decode? (line.filterMap Piece.byte?)).isNone

/-- What is left of a source without the lines that are lost. -/
def mended (s : Source) : Source :=
  ((s.splitBy fun piece _ => !piece.endsLine).filter fun line : Source => !line.isLost).flatten

/-- What is left of a source without interruptions. -/
def uninterrupted (s : Source) : Source := s.filter (· ≠ .interruption)

variable {begun : Bool} {line rest s : Source}

theorem intoFirst_eq_nil_iff {piece : Piece} {lines : List Source} :
    intoFirst piece lines = [] ↔ lines = [] := by
  cases lines <;> simp [intoFirst]

theorem isLost_of_idle (h : ∀ piece ∈ line, piece.isIdle = true) : line.isLost = false := by
  simp only [Piece.isIdle, Bool.and_eq_true, Bool.not_eq_true', Option.isNone_iff_eq_none] at h
  have hnone : line.any Piece.isFailure = false :=
    List.any_eq_false.mpr fun piece hpiece => by simp [(h piece hpiece).1]
  have hbytes : line.filterMap Piece.byte? = [] :=
    List.filterMap_eq_nil_iff.mpr fun piece hpiece => (h piece hpiece).2
  rw [isLost, hnone, hbytes, ← Utf8.bytes_nil, Utf8.decode?_bytes]
  rfl

/-- Pieces up to one that ends a line are left out whole if they are lost, and kept else. -/
theorem mended_append (hne : line ≠ []) (hline : line.IsChain fun piece _ => !piece.endsLine)
    (hend : ∀ last ∈ line.getLast?, ∀ piece ∈ rest.head?, last.endsLine = true) :
    (line ++ rest).mended = (if line.isLost then [] else line) ++ rest.mended := by
  have hcut : (line ++ rest).splitBy (fun piece _ => !piece.endsLine) =
      [line] ++ rest.splitBy fun piece _ => !piece.endsLine := by
    rw [List.splitBy_append, List.splitBy_of_isChain hne hline]
    intro last hlast piece hpiece
    rw [hend last hlast piece hpiece]
    rfl
  rw [mended, hcut, List.filter_append, List.flatten_append]
  cases hlost : line.isLost <;> simp [mended, hlost]

namespace FirstLine

theorem ne_nil (h : FirstLine false line rest) : line ≠ [] := by
  rintro rfl
  cases h

/-- Only the last piece of a line can end it. -/
theorem isChain (h : FirstLine begun line rest) : line.IsChain fun piece _ => !piece.endsLine := by
  induction h with
  | lastEnd => exact .nil
  | pause | failure | lineFeed => exact .singleton _
  | interruption _ ih => exact List.isChain_cons.mpr ⟨fun _ _ => rfl, ih⟩
  | @byte _ _ b hb _ _ ih =>
      have hinner : (!(Piece.byte b).endsLine) = true := by simpa [Piece.endsLine] using hb
      exact List.isChain_cons.mpr ⟨fun _ _ => hinner, ih⟩

/-- If anything follows a line, its last piece ends it. -/
theorem endsLine_getLast (h : FirstLine begun line rest) :
    ∀ last ∈ line.getLast?, ∀ piece ∈ rest.head?, last.endsLine = true := by
  induction h with
  | lastEnd => simp
  | pause | failure | lineFeed => simp [Piece.endsLine]
  | @interruption begun line rest h ih =>
      cases line with
      | nil =>
          cases h
          simp
      | cons piece line => simpa using ih
  | @byte line rest b hb begun h ih =>
      cases line with
      | nil =>
          cases h
          simp
      | cons piece line => simpa using ih

/-- Mending keeps the first line of a source or leaves it out, and mends what follows. -/
theorem mended (h : FirstLine false line rest) :
    (line ++ rest).mended = (if line.isLost then [] else line) ++ rest.mended :=
  mended_append h.ne_nil h.isChain h.endsLine_getLast

/-- A line stays one when what follows it is mended. -/
theorem followed_by_mended (h : FirstLine begun line rest) : FirstLine begun line rest.mended := by
  by_cases hrest : rest = []
  · rw [hrest]
    exact h.alone
  · exact h.followed (.inl hrest) rest.mended

/-- Where there is no line, nothing comes before the end but interruptions. -/
theorem idle_of_lines_eq_nil (h : FirstLine begun line rest)
    (hnil : Source.lines (line ++ rest) = []) : ∀ piece ∈ line, piece.isIdle = true := by
  induction h with
  | lastEnd => simp
  | pause rest => exact List.forall_mem_singleton.mpr rfl
  | failure | lineFeed => cases hnil
  | interruption _ ih => exact List.forall_mem_cons.mpr ⟨rfl, ih (intoFirst_eq_nil_iff.mp hnil)⟩
  | byte hb begun h _ =>
      simp only [Source.lines, List.cons_append, Source.linesFrom, if_neg hb, h.linesFrom] at hnil
      cases hnil

/-- Nothing but interruptions before an end is no line. -/
theorem cut_of_idle (h : FirstLine begun line rest) (hidle : ∀ piece ∈ line, piece.isIdle = true) :
    (Source.cut [] (line ++ rest)).1 = .ended := by
  induction h with
  | lastEnd => rfl
  | pause rest => rfl
  | failure | lineFeed | byte => cases hidle _ List.mem_cons_self
  | interruption _ ih => exact ih (List.forall_mem_cons.mp hidle).2

/-- A line is cut off by a failure, or it is split off with its bytes. -/
theorem cut_cases (h : FirstLine begun line rest) {seen : List UInt8}
    (hseen : seen.isEmpty = !begun) :
    (line.any Piece.isFailure = true ∧ ∃ reason, (Source.cut seen line).1 = .failed reason) ∨
      (line.any Piece.isFailure = false ∧
        (Source.cut seen line).1 = .bytes (seen.reverse ++ line.filterMap Piece.byte?)) := by
  induction h generalizing seen with
  | lastEnd =>
      have hne : seen.isEmpty = false := hseen
      exact .inr ⟨rfl, by simp [Source.cut, Cut.atEnd, hne]⟩
  | pause rest =>
      have hne : seen.isEmpty = false := hseen
      exact .inr ⟨rfl, by simp [Source.cut, Cut.atEnd, hne, Piece.byte?]⟩
  | failure begun reason rest => exact .inl ⟨rfl, reason, rfl⟩
  | lineFeed begun rest => exact .inr ⟨rfl, by simp [Source.cut, Piece.byte?]⟩
  | interruption _ ih => exact ih hseen
  | @byte line rest b hb begun _ ih =>
      have hcut : Source.cut seen (.byte b :: line) = Source.cut (b :: seen) line := by
        rw [Source.cut, if_neg hb]
      have hbegun : (b :: seen).isEmpty = !true := rfl
      rw [hcut]
      obtain ⟨hany, hfailed⟩ | ⟨hnone, hbytes⟩ := ih hbegun
      · exact .inl ⟨hany, hfailed⟩
      · refine .inr ⟨hnone, hbytes.trans ?_⟩
        simp [Piece.byte?]

/-- A line without a failure is read as its bytes. -/
theorem readLine_of_bytes (h : FirstLine false line rest)
    (hnone : line.any Piece.isFailure = false) :
    (Source.readLine line).1 = (Cut.bytes (line.filterMap Piece.byte?)).decoded := by
  have hseen : ([] : List UInt8).isEmpty = !false := rfl
  obtain ⟨hany, _⟩ | ⟨_, hcut⟩ := h.cut_cases hseen
  · simp [hnone] at hany
  · rw [Source.readLine, hcut]
    rfl

/-- Reading fails for a line that is lost, and reads any other line. -/
theorem readLine_cases (h : FirstLine false line rest) :
    (line.isLost = true ∧ ∃ reason, (Source.readLine line).1 = .failed reason) ∨
      (line.isLost = false ∧ ∃ chars, (Source.readLine line).1 = .line chars) := by
  have hseen : ([] : List UInt8).isEmpty = !false := rfl
  rw [isLost, Source.readLine]
  obtain ⟨hany, reason, hcut⟩ | ⟨hnone, hcut⟩ := h.cut_cases hseen
  · rw [hany, hcut]
    exact .inl ⟨rfl, reason, rfl⟩
  · rw [hnone, hcut]
    simp only [List.reverse_nil, List.nil_append, Cut.decoded]
    cases decode? (line.filterMap Piece.byte?) with
    | none => exact .inl ⟨rfl, undecodable, rfl⟩
    | some chars => exact .inr ⟨rfl, terminated chars, rfl⟩

end FirstLine

/-- A source that reports its end does so after it has been mended. -/
theorem readLine_mended_of_lines_eq_nil (h : s.lines = []) : s.mended.readLine.1 = .ended := by
  -- the pieces up to the end are cut off like the rest of a line that has begun
  obtain ⟨hfalse, _⟩ | ⟨line, rest, rfl, hfirst⟩ := linesFrom_cases true s
  · cases hfalse
  · have hidle := hfirst.idle_of_lines_eq_nil h
    cases line with
    | nil =>
        cases hfirst
        rfl
    | cons piece line =>
        have hmended : mended (piece :: line ++ rest) = piece :: line ++ rest.mended := by
          rw [mended_append (by simp) hfirst.isChain hfirst.endsLine_getLast,
            isLost_of_idle hidle]
          rfl
        rw [hmended, readLine, hfirst.followed_by_mended.cut_of_idle hidle]
        rfl

/-- Interruptions do not change how a line is split off. -/
theorem cut_uninterrupted (seen : List UInt8) (s : Source) :
    cut seen s.uninterrupted = ((cut seen s).1, (cut seen s).2.uninterrupted) := by
  induction s generalizing seen with
  | nil => rfl
  | cons piece rest ih =>
      cases piece with
      | pause => rfl
      | failure reason => rfl
      | interruption => exact ih seen
      | byte b =>
          have hkeep : uninterrupted (.byte b :: rest) = .byte b :: uninterrupted rest := rfl
          rw [hkeep, cut, cut]
          split
          · rfl
          · exact ih (b :: seen)

/-- Interruptions do not change what is read. -/
theorem readLine_uninterrupted (s : Source) :
    s.uninterrupted.readLine = (s.readLine.1, s.readLine.2.uninterrupted) := by
  rw [readLine, cut_uninterrupted]
  rfl

end Source

end RandomAccessMachine
