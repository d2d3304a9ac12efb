/-!
# Sources and their lines

A source delivers bytes one after the other. In between it may fail, be
interrupted, or report its end although more follows. A line reaches up to
and including the next line feed, or up to a reported end.

## Implementation notes

`cut` splits the bytes of a line off a source, and `readLine` decodes them.
A failure loses the bytes of the unfinished line, and so does an encoding
error with the whole line. What is left of a source is always a suffix of it.
-/

namespace RandomAccessMachine

/-- One thing that a source delivers. -/
inductive Piece
  | byte (b : UInt8)
  /-- Reading fails once with this reason. -/
  | failure (reason : String)
  /-- Reading is interrupted and can be taken up again at once. -/
  | interruption
  /-- The source reports its end once. -/
  | pause
  deriving DecidableEq

/-- The things that a source still has to deliver. -/
abbrev Source := List Piece

namespace Source

/-- The source that delivers these bytes. -/
def ofBytes (bytes : List UInt8) : Source := bytes.map .byte

/-- The source that delivers a text in UTF-8. -/
def ofString (text : String) : Source := ofBytes text.toUTF8.data.toList

/-- The bytes of a line, or why there are none. -/
inductive Cut
  | bytes (line : List UInt8)
  | failed (reason : String)
  | ended
  deriving DecidableEq

/-- The line that a reported end leaves of the bytes seen so far, the last one first. -/
def Cut.atEnd (seen : List UInt8) : Cut :=
  if seen.isEmpty then .ended else .bytes seen.reverse

/-- Split off a line that begins with the bytes seen so far, the last one first. -/
def cut (seen : List UInt8) : Source → Cut × Source
  | [] => (.atEnd seen, [])
  | .pause :: rest => (.atEnd seen, rest)
  | .interruption :: rest => cut seen rest
  | .failure reason :: rest => (.failed reason, rest)
  | .byte b :: rest =>
      if b = 10 then (.bytes (b :: seen).reverse, rest) else cut (b :: seen) rest

/-- The characters of a line, with a line feed at its end in any case. -/
def terminated (chars : List Char) : List Char :=
  if chars.getLast? = some '\n' then chars else chars ++ ['\n']

/-- The characters that the bytes of a line encode. -/
def decode? (bytes : List UInt8) : Option (List Char) :=
  (String.fromUTF8? bytes.toByteArray).map String.toList

/-- What an attempt to read a line gives. -/
inductive LineRead
  | line (chars : List Char)
  | failed (reason : String)
  | ended
  deriving DecidableEq

/-- The reason given for a line that is not in UTF-8. -/
def undecodable : String := "stream did not contain valid UTF-8"

/-- The characters of a line, or why there are none. -/
def Cut.decoded : Cut → LineRead
  | .bytes line =>
      match decode? line with
      | some chars => .line (terminated chars)
      | none => .failed undecodable
  | .failed reason => .failed reason
  | .ended => .ended

/-- Read a line and give what is left of the source. -/
def readLine (s : Source) : LineRead × Source :=
  ((cut [] s).1.decoded, (cut [] s).2)

theorem terminated_ne_nil (chars : List Char) : terminated chars ≠ [] := by
  unfold terminated
  split
  · rintro rfl
    simp_all
  · simp

/-- Unless the end is reported, something was taken from the source. -/
theorem cut_length_lt (seen : List UInt8) (s : Source) (h : (cut seen s).1 ≠ .ended) :
    (cut seen s).2.length < s.length + seen.length := by
  induction s generalizing seen with
  | nil =>
      cases seen with
      | nil => exact absurd rfl h
      | cons b seen => simp [cut]
  | cons piece rest ih =>
      cases piece with
      | pause => simp [cut]; omega
      | interruption =>
          have := ih seen h
          simp only [cut, List.length_cons]
          omega
      | failure reason => simp [cut]; omega
      | byte b =>
          simp only [cut] at h ⊢
          split
          · simp; omega
          · rename_i hb
            rw [if_neg hb] at h
            have := ih (b :: seen) h
            simp only [List.length_cons] at this ⊢
            omega

theorem readLine_length_lt {s : Source} (h : (readLine s).1 ≠ .ended) :
    (readLine s).2.length < s.length := by
  have := cut_length_lt [] s fun hc => h (by simp [readLine, hc, Cut.decoded])
  simpa [readLine] using this

theorem ne_nil_of_readLine {s : Source} {chars : List Char}
    (h : (readLine s).1 = .line chars) : chars ≠ [] := by
  simp only [readLine] at h
  cases hc : (cut [] s).1 with
  | ended => simp [hc, Cut.decoded] at h
  | failed reason => simp [hc, Cut.decoded] at h
  | bytes line =>
      simp only [hc, Cut.decoded] at h
      split at h
      · injection h with h
        exact h ▸ terminated_ne_nil _
      · simp at h

end Source

end RandomAccessMachine
