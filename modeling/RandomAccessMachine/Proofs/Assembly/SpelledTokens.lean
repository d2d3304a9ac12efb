import Mathlib
import RandomAccessMachine.Proofs.Assembly.LineNumbers
import RandomAccessMachine.Proofs.Assembly.Rendering

/-!
# Spelling tokens

Any tokens that end with the end of a line, and whose numbers have no sign,
can be spelled: a line feed for each end of a line, and the text of every
other token with a space behind it. The text is found to be these tokens, on
the lines that the line feeds make. Main statement: `Cursor.finds_spelled_tokens`.
-/

namespace RandomAccessMachine

/-- The token as it is spelled in front of others. -/
def Token.spelled : Token → List Char
  | .newline => ['\n']
  | t => t.text.toList ++ [' ']

/-- The text that spells the tokens. -/
def spelled (ts : List Token) : List Char := ts.flatMap Token.spelled

theorem isGap_space : IsGap [' '] := isGap_cons_iff.mpr ⟨by decide, isGap_nil⟩

namespace Token

variable {t : Token} {gap : List Char}

theorem spelled_of_ne (h : t ≠ .newline) : t.spelled = t.text.toList ++ [' '] := by
  cases t with
  | newline => exact absurd rfl h
  | leftParen | rightParen | equals | number | keyword => rfl

/-- A line that begins with a token as it is spelled begins with this token, and at most a blank is
left in front of what follows. -/
theorem exists_tokenLead_spelled (hgap : IsGap gap) (h : t ≠ .newline) (hunsigned : t.IsUnsigned)
    (rest : List Char) :
    ∃ gap', IsGap gap' ∧ TokenLead (gap ++ (t.spelled ++ rest)) t (gap' ++ rest) := by
  cases t with
  | newline => exact absurd rfl h
  | leftParen | rightParen | equals => exact ⟨[' '], isGap_space, .symbol hgap rfl _⟩
  | number x =>
      have hx : Numeral (Word.text x).toList x := numeral_text (hunsigned x rfl)
      have hafter : AfterNumber (' ' :: rest) rest := .blank (by decide) (by decide) rest
      refine ⟨[], isGap_nil, ?_⟩
      rw [spelled_of_ne h, List.append_assoc]
      exact .number hgap hx hafter
  | keyword m =>
      have hafter : AfterName (' ' :: rest) rest := .blank (by decide) (by decide) rest
      refine ⟨[], isGap_nil, ?_⟩
      rw [spelled_of_ne h, List.append_assoc]
      exact .keyword hgap m hafter

theorem lineFeed_notMem_spelled (h : t ≠ .newline) : '\n' ∉ t.spelled := by
  have htext : '\n' ∉ t.text.toList := by
    cases t with
    | newline => exact absurd rfl h
    | leftParen | rightParen | equals => decide
    | number x => exact lineFeed_notMem_word x
    | keyword m => cases m <;> decide
  rw [spelled_of_ne h, List.mem_append, not_or]
  exact ⟨htext, by decide⟩

end Token

variable {ts : List Token}

theorem lineFeed_notMem_spelled (h : .newline ∉ ts) : '\n' ∉ spelled ts := by
  rw [spelled, List.mem_flatMap]
  rintro ⟨t, ht, hmem⟩
  have hne : t ≠ .newline := fun heq => h (heq ▸ ht)
  exact Token.lineFeed_notMem_spelled hne hmem

/-- The lexemes of a line on which tokens are spelled are these tokens and the end of the line. -/
theorem Lexeme.ofLine_spelled {gap : List Char} (hgap : IsGap gap) (h : .newline ∉ ts)
    (hunsigned : ∀ t ∈ ts, t.IsUnsigned) :
    ofLine (gap ++ spelled ts ++ ['\n']) = (ts ++ [Token.newline]).map .token := by
  induction ts generalizing gap with
  | nil =>
      have hend : first (gap ++ spelled [] ++ ['\n']) = (.token .newline, []) := by
        rw [List.append_assoc, first_gap hgap]
        rfl
      rw [ofLine_of_ne_nil (by simp), hend, ofLine_nil]
      rfl
  | cons t ts ih =>
      obtain ⟨ht, hts⟩ := not_or.mp (mt List.mem_cons.mpr h)
      obtain ⟨htoken, htokens⟩ := List.forall_mem_cons.mp hunsigned
      obtain ⟨gap', hgap', hlead⟩ :=
        t.exists_tokenLead_spelled hgap (Ne.symm ht) htoken (spelled ts)
      have hfirst : first (gap ++ spelled (t :: ts) ++ ['\n']) =
          (.token t, gap' ++ spelled ts ++ ['\n']) := first_of_tokenLead hlead
      rw [ofLine_of_ne_nil (by simp), hfirst, ih hgap' hts htokens]
      rfl

/-- A cursor finds the tokens that are spelled in a text, on the lines that their line feeds
make. -/
theorem Cursor.findings_spelled (hunsigned : ∀ t ∈ ts, t.IsUnsigned)
    (hend : ∀ h : ts ≠ [], ts.getLast h = .newline) (n : Nat) :
    findings ⟨.ofText (spelled ts), [], n, false⟩ = Lexeme.numbered (n + 1) (ts.map .token) := by
  induction hl : ts.length using Nat.strongRecOn generalizing ts n with
  | ind k ih =>
      by_cases hnil : ts = []
      · subst hnil
        exact findings_of_ended Source.readLine_nil
      -- the first line is spelled in front of the others
      obtain ⟨line, rest, rfl, hline⟩ :=
        List.eq_append_cons_of_mem (hend hnil ▸ List.getLast_mem hnil)
      have hrest : ∀ h : rest ≠ [], rest.getLast h = .newline := by
        intro h
        rw [← hend hnil, List.getLast_append_of_ne_nil _ (by simp), List.getLast_cons h]
      have hlt : rest.length < k := by
        rw [← hl, List.length_append, List.length_cons]
        omega
      have htext : spelled (line ++ .newline :: rest) = spelled line ++ '\n' :: spelled rest := by
        simp [spelled, Token.spelled]
      have hsplit : (line ++ .newline :: rest).map Lexeme.token =
          (line ++ [Token.newline]).map .token ++ rest.map .token := by simp
      have hlexemes := Lexeme.ofLine_spelled isGap_nil hline fun t ht =>
        hunsigned t (List.mem_append_left _ ht)
      have hisLine := Lexeme.isLine_ofLine (lineFeed_notMem_spelled hline)
      rw [List.nil_append] at hlexemes
      rw [hlexemes] at hisLine
      have htail : ∀ t ∈ rest, t.IsUnsigned := fun t ht =>
        hunsigned t (List.mem_append_right _ (List.mem_cons_of_mem _ ht))
      calc
        findings ⟨.ofText (spelled (line ++ .newline :: rest)), [], n, false⟩ =
            (Lexeme.ofLine (spelled line ++ ['\n'])).map (Finding.mk (n + 1)) ++
              findings ⟨.ofText (spelled rest), [], n + 1, false⟩ := by
          rw [htext, Source.ofText_line, findings_line_append (lineFeed_notMem_spelled hline)]
        _ = Lexeme.numbered (n + 1) ((line ++ [Token.newline]).map .token) ++
              Lexeme.numbered (n + 1 + 1) (rest.map .token) := by
          rw [hlexemes, hisLine.map_mk, ih rest.length hlt htail hrest (n + 1) rfl]
        _ = Lexeme.numbered (n + 1) ((line ++ .newline :: rest).map .token) := by
          rw [hsplit, hisLine.numbered_append]

/-- Tokens that are none or end with the end of a line, and whose numbers are not negative, are
found where they are spelled, and nothing else is. Each is on the line after the ends of lines in
front of it. -/
theorem Cursor.finds_spelled_tokens (hend : ts = [] ∨ ts.getLast? = some .newline)
    (hunsigned : ∀ x, .number x ∈ ts → 0 ≤ x.toInt) :
    (Cursor.ofSource (.ofString (.ofList (spelled ts)))).findings =
      ts.mapIdx fun k t => ⟨1 + (ts.take k).count .newline, .token t⟩ := by
  have hlast : ∀ h : ts ≠ [], ts.getLast h = .newline := by
    intro hne
    have hlast := hend.resolve_left hne
    rwa [List.getLast?_eq_some_getLast hne, Option.some.injEq] at hlast
  have hall : ∀ t ∈ ts, t.IsUnsigned := by
    rintro t ht x rfl
    exact hunsigned x ht
  rw [Source.ofString_eq_ofText, String.toList_ofList, Cursor.ofSource,
    findings_spelled hall hlast, Lexeme.numbered_map_token]

/-- The greatest number between tokens that no statement has next to each other. -/
theorem Cursor.finds_spelled_tokens_of_greatest_number :
    let ts : List Token := [.newline, .number 9223372036854775807, .equals, .keyword .half,
      .rightParen, .newline, .leftParen, .newline]
    spelled ts = "\n9223372036854775807 = HALF ) \n( \n".toList ∧
      (∀ x, .number x ∈ ts → 0 ≤ x.toInt) ∧
      (Cursor.ofSource (.ofString (.ofList (spelled ts)))).findings =
        [⟨1, .token .newline⟩, ⟨2, .token (.number 9223372036854775807)⟩, ⟨2, .token .equals⟩,
          ⟨2, .token (.keyword .half)⟩, ⟨2, .token .rightParen⟩, ⟨2, .token .newline⟩,
          ⟨3, .token .leftParen⟩, ⟨3, .token .newline⟩] := by
  intro ts
  have hunsigned : ∀ x, .number x ∈ ts → 0 ≤ x.toInt := by
    intro x hx
    obtain rfl : x = 9223372036854775807 := by simpa [ts] using hx
    decide
  refine ⟨by decide, hunsigned, ?_⟩
  rw [finds_spelled_tokens (.inr rfl) hunsigned]
  rfl

end RandomAccessMachine
