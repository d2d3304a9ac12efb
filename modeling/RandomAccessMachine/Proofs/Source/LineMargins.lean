import RandomAccessMachine.Proofs.Source.LostLines

/-!
# Characters put around a line

Characters can be put in front of a line and others behind it, before the
piece that ends it. A line that is read is then read with these characters
around it, and a line that is lost is lost for the same reason.

## Implementation notes

A line consists of pieces that do not end it and of at most one that does
(`FirstLine.exists_terminator`). Only a failure at its end loses the pieces in
front of it, and any other line is read as its bytes.
-/

namespace RandomAccessMachine.Source

/-- The line with characters in front of it and behind it, before the piece that ends it. -/
def between (front back : List Char) (line : Source) : Source :=
  ofText front ++ line.takeWhile (!·.endsLine) ++ ofText back ++ line.dropWhile (!·.endsLine)

/-- Nothing, or a piece that ends a line. -/
def IsTerminator (stop : Source) : Prop :=
  stop = [] ∨ ∃ piece : Piece, piece.endsLine = true ∧ stop = [piece]

variable {begun : Bool} {line rest body stop : Source} {bytes : List UInt8}
  {front back : List Char}

/-- Characters other than line feeds do not end a line. -/
theorem not_endsLine_of_mem_ofText {chars : List Char} (h : '\n' ∉ chars) :
    ∀ piece ∈ ofText chars, piece.endsLine = false := by
  intro piece hpiece
  obtain ⟨b, hb, rfl⟩ := List.mem_map.mp hpiece
  apply Piece.endsLine_byte_eq_false_iff.mpr
  rintro rfl
  exact Utf8.ten_notMem_bytes h hb

theorem filterMap_byte?_ofBytes (bytes : List UInt8) :
    (ofBytes bytes).filterMap Piece.byte? = bytes := by
  have hbyte : Piece.byte? ∘ Piece.byte = some := rfl
  rw [ofBytes, List.filterMap_map, hbyte, List.filterMap_some]

/-- Pieces that do not end a line deliver no line feed. -/
theorem ten_notMem_filterMap (h : ∀ piece ∈ body, piece.endsLine = false) :
    10 ∉ body.filterMap Piece.byte? := by
  intro hmem
  obtain ⟨piece, hpiece, hbyte⟩ := List.mem_filterMap.mp hmem
  have hends := h piece hpiece
  cases piece with
  | byte b =>
      obtain rfl : b = 10 := Option.some.inj hbyte
      cases hends
  | failure | interruption | pause => cases hbyte

/-- Pieces that do not end a line are seen as the bytes that they deliver. -/
theorem cut_append (h : ∀ piece ∈ body, piece.endsLine = false) (seen : List UInt8) (s : Source) :
    cut seen (body ++ s) = cut ((body.filterMap Piece.byte?).reverse ++ seen) s := by
  induction body generalizing seen with
  | nil => rfl
  | cons piece body ih =>
      obtain ⟨hpiece, hbody⟩ := List.forall_mem_cons.mp h
      cases piece with
      | byte b =>
          have hb : b ≠ 10 := Piece.endsLine_byte_eq_false_iff.mp hpiece
          rw [List.cons_append, cut, if_neg hb, ih hbody]
          simp [Piece.byte?]
      | interruption => exact ih hbody seen
      | failure | pause => cases hpiece

/-- Characters around pieces that do not end a line. -/
theorem not_endsLine_around (hfront : '\n' ∉ front) (hback : '\n' ∉ back)
    (h : ∀ piece ∈ body, piece.endsLine = false) :
    ∀ piece ∈ ofText front ++ body ++ ofText back, piece.endsLine = false := by
  intro piece hpiece
  rw [List.mem_append, List.mem_append] at hpiece
  obtain (hpiece | hpiece) | hpiece := hpiece
  · exact not_endsLine_of_mem_ofText hfront piece hpiece
  · exact h piece hpiece
  · exact not_endsLine_of_mem_ofText hback piece hpiece

theorem filterMap_byte?_around (front back : List Char) (body : Source) :
    (ofText front ++ body ++ ofText back).filterMap Piece.byte? =
      Utf8.bytes front ++ body.filterMap Piece.byte? ++ Utf8.bytes back := by
  simp only [ofText, List.filterMap_append, filterMap_byte?_ofBytes]

theorem between_append (h : ∀ piece ∈ body, piece.endsLine = false) (hterm : IsTerminator stop) :
    (body ++ stop).between front back = ofText front ++ body ++ ofText back ++ stop := by
  have hpos : ∀ piece ∈ body, (!piece.endsLine) = true := by simpa using h
  have htake : stop.takeWhile (!·.endsLine) = [] ∧ stop.dropWhile (!·.endsLine) = stop := by
    obtain rfl | ⟨piece, hpiece, rfl⟩ := hterm
    · exact ⟨rfl, rfl⟩
    · simp [hpiece]
  rw [between, List.takeWhile_append_of_pos hpos, List.dropWhile_append_of_pos hpos, htake.1,
    htake.2, List.append_nil]

/-- Around a line of a text the characters are part of the text. -/
theorem between_ofText {chars : List Char} (h : '\n' ∉ chars) (hterm : IsTerminator stop) :
    (ofText chars ++ stop).between front back = ofText (front ++ chars ++ back) ++ stop := by
  rw [between_append (not_endsLine_of_mem_ofText h) hterm, ofText_append, ofText_append]

/-- A line ends with a failure, or with a line feed or without one. -/
theorem IsTerminator.failure_or_feed (h : IsTerminator stop) :
    (∃ reason, stop = [.failure reason]) ∨
      stop.any Piece.isFailure = false ∧
        ∃ feed, (feed = [] ∨ feed = ['\n']) ∧ stop.filterMap Piece.byte? = Utf8.bytes feed := by
  obtain rfl | ⟨piece, hpiece, rfl⟩ := h
  · exact .inr ⟨rfl, [], .inl rfl, rfl⟩
  · cases piece with
    | byte b =>
        obtain rfl : b = 10 := by simpa [Piece.endsLine] using hpiece
        exact .inr ⟨rfl, ['\n'], .inr rfl, rfl⟩
    | failure reason => exact .inl ⟨reason, rfl⟩
    | pause => exact .inr ⟨rfl, [], .inl rfl, rfl⟩
    | interruption => cases hpiece

/-- A failure at the end of a line is what is read. -/
theorem readLine_failure (h : ∀ piece ∈ body, piece.endsLine = false) (reason : String) :
    (readLine (body ++ [.failure reason])).1 = .failed reason := by
  rw [readLine, cut_append h]
  rfl

theorem any_isFailure_append (h : ∀ piece ∈ body, piece.endsLine = false)
    (hstop : stop.any Piece.isFailure = false) : (body ++ stop).any Piece.isFailure = false := by
  rw [List.any_append, hstop, Bool.or_false, List.any_eq_false]
  intro piece hpiece
  simp [Piece.isFailure_of_endsLine_eq_false (h piece hpiece)]

/-- Bytes are decoded as a line with what stands around them, or they are not decoded. -/
theorem decoded_between {feed : List Char} (hfeed : feed = [] ∨ feed = ['\n'])
    (hfront : '\n' ∉ front) (hback : '\n' ∉ back) (h : 10 ∉ bytes) :
    (Cut.bytes (Utf8.bytes front ++ bytes ++ Utf8.bytes back ++ Utf8.bytes feed)).decoded =
      match decode? bytes with
      | some body => .line (front ++ body ++ back ++ ['\n'])
      | none => .failed undecodable := by
  rw [Cut.decoded, List.append_assoc, ← Utf8.bytes_append, Utf8.decode?_around]
  cases hbody : decode? bytes with
  | none => rfl
  | some body =>
      have hmem : '\n' ∉ body := Utf8.lineFeed_notMem_of_decode? hbody h
      have hlast : (front ++ body ++ back).getLast? ≠ some '\n' := by
        intro hlast
        have hall : '\n' ∈ front ++ body ++ back := List.mem_of_getLast? hlast
        simp [hfront, hmem, hback] at hall
      obtain rfl | rfl := hfeed
      · simp only [Option.map_some, List.append_nil, terminated, if_neg hlast]
      · simp [terminated]

namespace FirstLine

/-- A line consists of pieces that do not end it and of what ends it. -/
theorem exists_terminator (h : FirstLine begun line rest) :
    ∃ body stop, line = body ++ stop ∧ (∀ piece ∈ body, piece.endsLine = false) ∧
      IsTerminator stop := by
  induction h with
  | lastEnd => exact ⟨[], [], rfl, by simp, .inl rfl⟩
  | pause rest => exact ⟨[], _, rfl, by simp, .inr ⟨_, rfl, rfl⟩⟩
  | failure begun reason rest => exact ⟨[], _, rfl, by simp, .inr ⟨_, rfl, rfl⟩⟩
  | lineFeed begun rest => exact ⟨[], _, rfl, by simp, .inr ⟨_, rfl, rfl⟩⟩
  | interruption _ ih =>
      obtain ⟨body, stop, rfl, hbody, hterm⟩ := ih
      exact ⟨_, stop, rfl, List.forall_mem_cons.mpr ⟨rfl, hbody⟩, hterm⟩
  | @byte _ _ b hb _ _ ih =>
      obtain ⟨body, stop, rfl, hbody, hterm⟩ := ih
      have hends := Piece.endsLine_byte_eq_false_iff.mpr hb
      exact ⟨_, stop, rfl, List.forall_mem_cons.mpr ⟨hends, hbody⟩, hterm⟩

/-- What is a line is the rest of one that has begun before as well. -/
theorem continues (h : FirstLine begun line rest) : FirstLine true line rest := by
  induction h with
  | lastEnd => exact .lastEnd
  | pause rest => exact .pause rest
  | failure begun reason rest => exact .failure true reason rest
  | lineFeed begun rest => exact .lineFeed true rest
  | interruption _ ih => exact .interruption ih
  | byte hb begun h _ => exact .byte hb true h

/-- Pieces that do not end a line belong to the line that they stand in front of. -/
theorem append (h : FirstLine begun line rest) (hbody : ∀ piece ∈ body, piece.endsLine = false) :
    FirstLine begun (body ++ line) rest := by
  induction body generalizing begun with
  | nil => exact h
  | cons piece body ih =>
      obtain ⟨hpiece, hrest⟩ := List.forall_mem_cons.mp hbody
      cases piece with
      | byte b =>
          have hb : b ≠ 10 := Piece.endsLine_byte_eq_false_iff.mp hpiece
          exact .byte hb begun (ih h.continues hrest)
      | interruption => exact .interruption (ih h hrest)
      | failure | pause => cases hpiece

/-- Pieces that do not end a line belong to the line that they are put into. -/
theorem insert {inner : Source} (hbody : ∀ piece ∈ body, piece.endsLine = false)
    (h : FirstLine begun (body ++ stop) rest) (hinner : ∀ piece ∈ inner, piece.endsLine = false) :
    FirstLine begun (body ++ (inner ++ stop)) rest := by
  induction body generalizing begun with
  | nil => exact h.append hinner
  | cons piece body ih =>
      obtain ⟨hpiece, hrest⟩ := List.forall_mem_cons.mp hbody
      rw [List.cons_append] at h
      -- only what begins the line decides which case it is
      generalize htail : body ++ stop = tail at h
      cases h with
      | interruption h => exact .interruption (ih hrest (htail ▸ h))
      | byte hb _ h => exact .byte hb begun (ih hrest (htail ▸ h))
      | pause | failure | lineFeed => cases hpiece

/-- A line with characters around it is a line. -/
theorem between (h : FirstLine begun line rest) (hfront : '\n' ∉ front) (hback : '\n' ∉ back) :
    FirstLine begun (line.between front back) rest := by
  obtain ⟨body, stop, rfl, hbody, hterm⟩ := h.exists_terminator
  rw [between_append hbody hterm, List.append_assoc, List.append_assoc]
  have hinserted := insert hbody h (not_endsLine_of_mem_ofText hback)
  exact hinserted.append (not_endsLine_of_mem_ofText hfront)

/-- A line is lost with characters around it as it is without them, or it is read with them around
it. -/
theorem readLine_between_cases (h : FirstLine false line rest) (hfront : '\n' ∉ front)
    (hback : '\n' ∉ back) :
    (∃ reason, line.readLine.1 = .failed reason ∧
      (line.between front back).readLine.1 = .failed reason) ∨
    ∃ body, line.readLine.1 = .line (body ++ ['\n']) ∧
      (line.between front back).readLine.1 = .line (front ++ body ++ back ++ ['\n']) := by
  have hbetween := h.between hfront hback
  obtain ⟨body, stop, rfl, hbody, hterm⟩ := h.exists_terminator
  have haround := not_endsLine_around hfront hback hbody
  rw [between_append hbody hterm] at hbetween ⊢
  obtain ⟨reason, rfl⟩ | ⟨hstop, feed, hfeed, hbytes⟩ := hterm.failure_or_feed
  · exact .inl ⟨reason, readLine_failure hbody reason, readLine_failure haround reason⟩
  · have hnone : '\n' ∉ ([] : List Char) := List.not_mem_nil
    have hten : 10 ∉ body.filterMap Piece.byte? := ten_notMem_filterMap hbody
    have hline := decoded_between hfeed hnone hnone hten
    have hline' := decoded_between hfeed hfront hback hten
    simp only [Utf8.bytes_nil, List.nil_append, List.append_nil] at hline
    rw [h.readLine_of_bytes (any_isFailure_append hbody hstop),
      hbetween.readLine_of_bytes (any_isFailure_append haround hstop), List.filterMap_append,
      List.filterMap_append, filterMap_byte?_around, hbytes, hline, hline']
    cases hbody : decode? (body.filterMap Piece.byte?) with
    | none => exact .inl ⟨undecodable, rfl, rfl⟩
    | some chars => exact .inr ⟨chars, rfl, rfl⟩

end FirstLine

end RandomAccessMachine.Source
