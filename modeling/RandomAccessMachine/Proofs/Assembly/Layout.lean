import RandomAccessMachine.Proofs.Assembly.LineGrammar
import RandomAccessMachine.Proofs.Assembly.LongestLexeme
import RandomAccessMachine.Proofs.Source.LineMargins

/-!
# Layout and comments mean nothing

Blanks in front of a line change nothing of what is found in it, and neither
do blanks behind it, or blanks and a comment. The line may be one that is not
read, or hold faults. So the program of a source, or the error in it, does not
depend on how its lines are laid out.

## Implementation notes

Two lines that differ in their endings are split into lexemes side by side,
and they do not always keep in step: where one leaves its line feed behind a
number, the other loses the first blank of its ending. `Trailed` says how what
is left of the two can differ. Every lexeme leaves it so (`parallel_first`), and
lines that differ in this way have the same lexemes (`ofLine_trailed`).
-/

namespace RandomAccessMachine

/-- Blanks for the front of a line and an ending for its back. -/
structure Margins where
  front : List Char
  back : List Char
  isGap_front : IsGap front
  isEnding_back : IsEnding back
  lineFeed_notMem_back : '\n' ∉ back

/-- The source with margins around each of its lines. What is behind its lines is left as it is. -/
def Source.relaid (s : Source) (margins : Nat → Margins) : Source :=
  (s.lines.mapIdx fun k line => line.between (margins k).front (margins k).back).flatten ++
    s.drop s.lines.flatten.length

/-- What is left of a line, and what is left of it with an ending behind it. -/
inductive Trailed : List Char → List Char → Prop
  | used : Trailed [] []
  | ending (body : List Char) {ending : List Char} (h : IsEnding ending)
      (hline : '\n' ∉ ending) : Trailed (body ++ ['\n']) (body ++ ending ++ ['\n'])
  | remark {remark : List Char} (h : IsRemark remark) (hline : '\n' ∉ remark) :
      Trailed ['\n'] (remark ++ ['\n'])

theorem Trailed.eq_nil_iff {x y : List Char} (h : Trailed x y) : x = [] ↔ y = [] := by
  cases h <;> simp

/-- The same lexeme is taken off two lines and leaves them so that they differ in their endings. -/
structure Parallel (a b : Lexeme × List Char) : Prop where
  lexeme : a.1 = b.1
  rest : Trailed a.2 b.2

variable {ending x y : List Char}

theorem IsEnding.isRemark (h : IsEnding ending) : IsRemark ending := by
  obtain rfl | ⟨gap, comment, _, hgap, hcomment, rfl⟩ := h
  · exact isRemark_nil
  · exact ⟨gap, comment, hgap, hcomment, rfl⟩

theorem IsGap.lineFeed_notMem {gap : List Char} (h : IsGap gap) : '\n' ∉ gap :=
  fun hmem => (h _ hmem).2 rfl

theorem IsEnding.stopsRun_isDigit (h : IsEnding ending) : StopsRun Char.isDigit ending := by
  obtain ⟨remark, hafter, _⟩ := isEnding_iff_afterName.mp h
  exact Lexeme.stopsRun_of_afterNumber hafter.afterNumber

theorem IsEnding.stopsRun_isAlpha (h : IsEnding ending) : StopsRun Char.isAlpha ending := by
  obtain ⟨remark, hafter, _⟩ := isEnding_iff_afterName.mp h
  exact Lexeme.stopsRun_of_afterName hafter

/-- An ending behind a run leaves a remark, as a line feed is left. -/
theorem IsEnding.closes {kept : List Char} (h : IsEnding ending) (hline : '\n' ∉ ending)
    (hkept : '\n' ∈ kept) :
    ∃ remark, IsRemark remark ∧ '\n' ∉ remark ∧
      Closes kept (ending ++ ['\n']) (remark ++ ['\n']) := by
  obtain ⟨remark, hafter, hremark⟩ := isEnding_iff_afterName.mp h
  cases hafter with
  | lineEnd => exact ⟨[], isRemark_nil, hline, .kept hkept []⟩
  | blank hblank hne =>
      have hnone : '\n' ∉ remark := List.not_mem_of_not_mem_cons hline
      exact ⟨remark, hremark, hnone, .blank hblank hne _⟩

namespace Lexeme

/-- Whether a run is closed or spoiled does not depend on the ending behind it. -/
theorem parallel_of_run {kept : List Char} {take : List Char → Lexeme × List Char} {l : Lexeme}
    {fault : Char → Lexeme} (h : IsEnding ending) (hline : '\n' ∉ ending) (hkept : '\n' ∈ kept)
    (hcloses : ∀ {tail left}, Closes kept tail left → take tail = (l, left))
    (hspoils : ∀ {c rest}, Spoils kept c → take (c :: rest) = (fault c, rest))
    (tail : List Char) : Parallel (take (tail ++ ['\n'])) (take (tail ++ ending ++ ['\n'])) := by
  cases tail with
  | nil =>
      obtain ⟨remark, hremark, hnone, hleft⟩ := h.closes hline hkept
      rw [List.nil_append, List.nil_append, hcloses (.kept hkept []), hcloses hleft]
      exact ⟨rfl, .remark hremark hnone⟩
  | cons c rest =>
      simp only [List.cons_append]
      by_cases hc : c ∈ kept
      · rw [hcloses (.kept hc _), hcloses (.kept hc _)]
        exact ⟨rfl, .ending (c :: rest) h hline⟩
      · cases hblank : isBlank c with
        | true =>
            have hne : c ≠ '\n' := fun heq => hc (heq ▸ hkept)
            rw [hcloses (.blank hblank hne _), hcloses (.blank hblank hne _)]
            exact ⟨rfl, .ending rest h hline⟩
        | false =>
            rw [hspoils ⟨hc, hblank⟩, hspoils ⟨hc, hblank⟩]
            exact ⟨rfl, .ending rest h hline⟩

/-- An ending does not change the first lexeme of a line. -/
theorem parallel_first_ending (h : IsEnding ending) (hline : '\n' ∉ ending) (body : List Char) :
    Parallel (first (body ++ ['\n'])) (first (body ++ ending ++ ['\n'])) := by
  induction body with
  | nil =>
      rw [List.nil_append, List.nil_append, first_symbol rfl,
        (first_eq_newline_iff hline).mpr h.isRemark]
      exact ⟨rfl, .used⟩
  | cons c rest ih =>
      cases hs : Token.ofSymbol? c with
      | some t =>
          simp only [List.cons_append]
          rw [first_symbol hs, first_symbol hs]
          exact ⟨rfl, .ending rest h hline⟩
      | none =>
          by_cases hcomment : c = '#'
          · simp only [hcomment, List.cons_append]
            rw [first_comment, first_comment]
            exact ⟨rfl, .used⟩
          cases hb : isBlank c with
          | true =>
              have hgap : IsGap [c] :=
                isGap_cons_iff.mpr ⟨⟨hb, (Token.ofSymbol?_eq_none_iff.mp hs).1⟩, isGap_nil⟩
              change Parallel (first ([c] ++ (rest ++ ['\n'])))
                (first ([c] ++ (rest ++ ending ++ ['\n'])))
              rw [first_gap hgap, first_gap hgap]
              exact ih
          | false =>
              cases hd : c.isDigit with
              | true =>
                  obtain ⟨run, tail, hrun, heq⟩ := exists_isRun hd rest
                  have hrun' := (hrun.append h.stopsRun_isDigit).terminated (by decide)
                  rw [heq, List.append_assoc, List.append_assoc run, List.append_assoc run,
                    first_digits (hrun.terminated (by decide)), first_digits hrun']
                  exact parallel_of_run h hline (by simp) number_of_closes number_of_spoils tail
              | false =>
                  cases ha : c.isAlpha with
                  | true =>
                      obtain ⟨run, tail, hrun, heq⟩ := exists_isRun ha rest
                      have hrun' := (hrun.append h.stopsRun_isAlpha).terminated (by decide)
                      rw [heq, List.append_assoc, List.append_assoc run, List.append_assoc run,
                        first_letters (hrun.terminated (by decide)), first_letters hrun']
                      exact parallel_of_run h hline (by simp) name_of_closes name_of_spoils tail
                  | false =>
                      simp only [List.cons_append]
                      rw [first_other hs hcomment hb hd ha, first_other hs hcomment hb hd ha]
                      exact ⟨rfl, .ending rest h hline⟩

/-- Two lines that differ in their endings have the same first lexeme, and they still differ in
their endings behind it. -/
theorem parallel_first (h : Trailed x y) (hne : x ≠ []) : Parallel (first x) (first y) := by
  cases h with
  | used => exact absurd rfl hne
  | ending body h hline => exact parallel_first_ending h hline body
  | remark h hline =>
      rw [first_symbol rfl, (first_eq_newline_iff hline).mpr h]
      exact ⟨rfl, .used⟩

/-- Two lines that differ in their endings have the same lexemes. -/
theorem ofLine_trailed (h : Trailed x y) : ofLine x = ofLine y := by
  fun_induction ofLine x generalizing y with
  | case1 => rw [h.eq_nil_iff.mp rfl, ofLine_nil]
  | case2 x hx ih =>
      have hy : y ≠ [] := mt h.eq_nil_iff.mpr hx
      have hparallel := parallel_first h hx
      rw [ofLine_of_ne_nil hy, hparallel.lexeme, ih hparallel.rest]

/-- Blanks in front of a line do not change its lexemes. -/
theorem ofLine_gap {gap line : List Char} (h : IsGap gap) (hne : line ≠ []) :
    ofLine (gap ++ line) = ofLine line := by
  rw [ofLine_of_ne_nil (List.append_ne_nil_of_right_ne_nil gap hne), ofLine_of_ne_nil hne,
    first_gap h]

/-- Margins do not change the lexemes of a line. -/
theorem ofLine_within (m : Margins) (body : List Char) :
    ofLine (m.front ++ body ++ m.back ++ ['\n']) = ofLine (body ++ ['\n']) := by
  have hback : Trailed (body ++ ['\n']) (body ++ m.back ++ ['\n']) :=
    .ending body m.isEnding_back m.lineFeed_notMem_back
  calc ofLine (m.front ++ body ++ m.back ++ ['\n'])
      = ofLine (m.front ++ (body ++ m.back ++ ['\n'])) := by simp only [List.append_assoc]
    _ = ofLine (body ++ m.back ++ ['\n']) := ofLine_gap m.isGap_front (by simp)
    _ = ofLine (body ++ ['\n']) := (ofLine_trailed hback).symm

end Lexeme

namespace Source

variable {s line rest : Source}

@[simp] theorem relaid_nil (margins : Nat → Margins) : relaid [] margins = [] := rfl

theorem relaid_of_lines_eq_nil (h : s.lines = []) (margins : Nat → Margins) :
    s.relaid margins = s := by
  rw [relaid, h]
  rfl

/-- Margins are put around the first line, and around the lines that follow it. -/
theorem FirstLine.relaid (h : FirstLine false line rest) (margins : Nat → Margins) :
    Source.relaid (line ++ rest) margins =
      line.between (margins 0).front (margins 0).back ++ rest.relaid fun k => margins (k + 1) := by
  rw [Source.relaid, h.lines, List.mapIdx_cons, List.flatten_cons, List.flatten_cons,
    List.length_append, List.drop_length_add_append, List.append_assoc]
  rfl

/-- A line with margins around it is a line in front of others with margins around them. -/
theorem FirstLine.between_margins (h : FirstLine false line rest) (m : Margins)
    (margins : Nat → Margins) :
    FirstLine false (line.between m.front m.back) (rest.relaid margins) := by
  have hline := h.between m.isGap_front.lineFeed_notMem m.lineFeed_notMem_back
  by_cases hrest : rest = []
  · rw [hrest, relaid_nil]
    exact hline.alone
  · exact hline.followed (.inl hrest) _

/-- Around a line of a text margins are part of the text, in front of its line feed. -/
theorem relaid_ofText_line {chars : List Char} (h : '\n' ∉ chars) (text : List Char)
    (margins : Nat → Margins) :
    (ofText (chars ++ '\n' :: text)).relaid margins =
      ofText ((margins 0).front ++ chars ++ (margins 0).back ++ ['\n']) ++
        (ofText text).relaid fun k => margins (k + 1) := by
  have hterm : IsTerminator (ofText ['\n']) := .inr ⟨.byte 10, rfl, rfl⟩
  rw [ofText_line, (FirstLine.ofText h _).relaid, ofText_append, between_ofText h hterm,
    ← ofText_append]

/-- A last line needs no line feed for that. -/
theorem relaid_ofText_last {chars : List Char} (h : '\n' ∉ chars) (hne : chars ≠ [])
    (margins : Nat → Margins) :
    (ofText chars).relaid margins = ofText ((margins 0).front ++ chars ++ (margins 0).back) := by
  have hrelaid := (FirstLine.ofLastText h hne).relaid margins
  have hterm : IsTerminator [] := .inl rfl
  have hbetween : (ofText chars).between (margins 0).front (margins 0).back =
      ofText ((margins 0).front ++ chars ++ (margins 0).back) := by
    simpa using between_ofText h hterm
  rwa [List.append_nil, hbetween, relaid_nil, List.append_nil] at hrelaid

end Source

/-- Margins around the lines of a source do not change what is found in it. -/
theorem Cursor.findings_relaid (s : Source) (margins : Nat → Margins) (n : Nat) :
    findings ⟨s.relaid margins, [], n, false⟩ = findings ⟨s, [], n, false⟩ := by
  induction s using Source.lines_induction generalizing margins n with
  | ended s hnil _ => rw [Source.relaid_of_lines_eq_nil hnil]
  | line line rest h ih =>
      let m := margins 0
      have hread := h.readLine
      have hread' := (h.between_margins m fun k => margins (k + 1)).readLine
      rw [h.relaid]
      obtain ⟨reason, hfailed, hfailed'⟩ | ⟨body, hline, hline'⟩ :=
        h.readLine_between_cases m.isGap_front.lineFeed_notMem m.lineFeed_notMem_back
      · rw [hfailed] at hread
        rw [hfailed'] at hread'
        rw [findings_of_failed hread, findings_of_failed hread', ih]
      · rw [hline] at hread
        rw [hline'] at hread'
        rw [findings_of_lineRead hread, findings_of_lineRead hread', ih, Lexeme.ofLine_within]

/-- What is found in a source, and the program in it or the error, are the same when each line has
blanks put in front of it, and behind it blanks or blanks and a comment. -/
theorem Program.layout_means_nothing (s : Source) (margins : Nat → Margins) :
    (Cursor.ofSource (s.relaid margins)).findings = (Cursor.ofSource s).findings ∧
      Program.ofSource (s.relaid margins) = Program.ofSource s := by
  have hfindings : (Cursor.ofSource (s.relaid margins)).findings = (Cursor.ofSource s).findings :=
    Cursor.findings_relaid s margins 0
  refine ⟨hfindings, ?_⟩
  rw [ofSource, ofCursor, hfindings, ofSource, ofCursor]

end RandomAccessMachine
