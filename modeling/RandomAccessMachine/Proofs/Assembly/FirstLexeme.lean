import RandomAccessMachine.Assembly.Lexeme

/-!
# The first lexeme of a line

What a line begins with behind its leading blanks decides its first lexeme:
nothing or a comment, a symbol, a run of digits, a run of letters, or anything
else. There is an equation for each of these, and `exists_lead` says that
a line with its line feed has no others.

## Implementation notes

The statements about tokens are about lines with their line feed, and they
name the characters in front of it. Runs of digits and letters are as long as
possible, so what follows a run must not continue it.
-/

namespace RandomAccessMachine

/-- Blank characters within a line. -/
def IsGap (chars : List Char) : Prop := ∀ c ∈ chars, isBlank c = true ∧ c ≠ '\n'

theorem isGap_nil : IsGap [] := by simp [IsGap]

theorem isGap_cons_iff {c : Char} {rest : List Char} :
    IsGap (c :: rest) ↔ (isBlank c = true ∧ c ≠ '\n') ∧ IsGap rest := by
  simp [IsGap]

/-- Nothing, or a comment. -/
def IsComment (chars : List Char) : Prop := chars = [] ∨ ∃ text, chars = '#' :: text

/-- The characters do not continue a run of characters of this class. -/
def StopsRun (p : Char → Bool) (rest : List Char) : Prop := ∀ c ∈ rest.head?, p c = false

/-- A longest run of characters of a class, without the characters that follow it. -/
structure IsRun (p : Char → Bool) (run rest : List Char) : Prop where
  ne_nil : run ≠ []
  all : ∀ c ∈ run, p c = true
  stops : StopsRun p rest

theorem IsRun.takeWhile {p : Char → Bool} {run rest : List Char} (h : IsRun p run rest) :
    (run ++ rest).takeWhile p = run := by
  rw [List.takeWhile_append_of_pos h.all]
  cases rest with
  | nil => simp
  | cons c rest => simp [h.stops c rfl]

theorem IsRun.dropWhile {p : Char → Bool} {run rest : List Char} (h : IsRun p run rest) :
    (run ++ rest).dropWhile p = rest := by
  rw [List.dropWhile_append_of_pos h.all]
  cases rest with
  | nil => rfl
  | cons c rest => simp [h.stops c rfl]

/-- Characters that do not continue a run can stand at its end and behind what follows it. -/
theorem IsRun.append {p : Char → Bool} {run rest other : List Char} (h : IsRun p run rest)
    (hother : StopsRun p other) : IsRun p run (rest ++ other) := by
  refine ⟨h.ne_nil, h.all, ?_⟩
  cases rest with
  | nil => exact hother
  | cons c rest => exact h.stops

/-- The line feed at the end of a line does not continue a run. -/
theorem IsRun.terminated {p : Char → Bool} {run rest : List Char} (h : IsRun p run rest)
    (hp : p '\n' = false) : IsRun p run (rest ++ ['\n']) :=
  h.append (by simpa [StopsRun] using hp)

/-- The longest run at the beginning of characters whose first one belongs to a class. -/
theorem exists_isRun {p : Char → Bool} {c : Char} (h : p c = true) (rest : List Char) :
    ∃ run tail, IsRun p run tail ∧ c :: rest = run ++ tail := by
  refine ⟨(c :: rest).takeWhile p, (c :: rest).dropWhile p, ⟨?_, ?_, ?_⟩,
    List.takeWhile_append_dropWhile.symm⟩
  · simp [h]
  · intro d hd
    exact List.all_eq_true.mp List.all_takeWhile d hd
  · intro d hd
    have := List.head?_dropWhile_not p (c :: rest)
    rwa [Option.mem_def.mp hd] at this

namespace Token

theorem ofSymbol?_eq_none_iff {c : Char} :
    ofSymbol? c = none ↔ c ≠ '\n' ∧ c ≠ '(' ∧ c ≠ ')' ∧ c ≠ '=' := by
  unfold ofSymbol?
  split <;> simp_all

/-- Each symbol is written with a character of its own. -/
theorem ofSymbol?_eq_some_iff {c : Char} {t : Token} :
    ofSymbol? c = some t ↔ (c = '\n' ∧ t = .newline) ∨ (c = '(' ∧ t = .leftParen) ∨
      (c = ')' ∧ t = .rightParen) ∨ (c = '=' ∧ t = .equals) := by
  unfold ofSymbol?
  split <;> simp_all [eq_comm]

theorem eq_of_ofSymbol? {c d : Char} {t : Token} (hc : ofSymbol? c = some t)
    (hd : ofSymbol? d = some t) : c = d := by
  rw [ofSymbol?_eq_some_iff] at hc hd
  grind

theorem ofSymbol?_of_isDigit {c : Char} (h : c.isDigit = true) : ofSymbol? c = none := by
  rw [ofSymbol?_eq_none_iff]
  refine ⟨?_, ?_, ?_, ?_⟩ <;> (rintro rfl; exact absurd h (by decide))

theorem ofSymbol?_of_isAlpha {c : Char} (h : c.isAlpha = true) : ofSymbol? c = none := by
  rw [ofSymbol?_eq_none_iff]
  refine ⟨?_, ?_, ?_, ?_⟩ <;> (rintro rfl; exact absurd h (by decide))

theorem ofSymbol?_of_isBlank {c : Char} (h : isBlank c = true) (hne : c ≠ '\n') :
    ofSymbol? c = none := by
  rw [ofSymbol?_eq_none_iff]
  refine ⟨hne, ?_, ?_, ?_⟩ <;> (rintro rfl; exact absurd h (by decide))

end Token

/-- The code points of letters. -/
theorem toNat_of_isAlpha {c : Char} (h : c.isAlpha = true) :
    (65 ≤ c.toNat ∧ c.toNat ≤ 90) ∨ (97 ≤ c.toNat ∧ c.toNat ≤ 122) := by
  change (decide ((65 : UInt32) ≤ c.val ∧ c.val ≤ 90) ||
    (decide ((97 : UInt32) ≤ c.val) && decide (c.val ≤ 122))) = true at h
  simp only [Bool.or_eq_true, Bool.and_eq_true, decide_eq_true_eq, UInt32.le_iff_toNat_le] at h
  exact h

/-- A letter is not blank. -/
theorem isBlank_of_isAlpha {c : Char} (h : c.isAlpha = true) : isBlank c = false := by
  have hc := toNat_of_isAlpha h
  simp [isBlank, blankRanges]
  omega

/-- A letter is not a digit. -/
theorem isDigit_of_isAlpha {c : Char} (h : c.isAlpha = true) : c.isDigit = false := by
  cases hd : c.isDigit with
  | false => rfl
  | true =>
      have hc := toNat_of_isAlpha h
      have hd' : 48 ≤ c.toNat ∧ c.toNat ≤ 57 := Char.isDigit_iff_toNat.mp hd
      omega

namespace Lexeme

variable {gap rest : List Char} {c : Char}

/-- A symbol is a token of its own. -/
theorem first_symbol {t : Token} (h : Token.ofSymbol? c = some t) (rest : List Char) :
    first (c :: rest) = (.token t, rest) := by
  rw [first, h]

/-- A comment ends its line and takes everything along. -/
theorem first_comment (text : List Char) : first ('#' :: text) = (.token .newline, []) := by
  rw [first, Token.ofSymbol?_eq_none_iff.mpr (by decide)]
  rfl

/-- Blanks in front of a lexeme mean nothing. -/
theorem first_gap (h : IsGap gap) (rest : List Char) : first (gap ++ rest) = first rest := by
  induction gap with
  | nil => rfl
  | cons c gap ih =>
      obtain ⟨⟨hblank, hne⟩, hgap⟩ := isGap_cons_iff.mp h
      have hcomment : c ≠ '#' := by
        rintro rfl
        exact absurd hblank (by decide)
      rw [List.cons_append, first, Token.ofSymbol?_of_isBlank hblank hne]
      simp only [hcomment, hblank, if_false, if_true]
      exact ih hgap

/-- A run of digits is a number, if it is well formed. -/
theorem first_digits {digits : List Char} (h : IsRun Char.isDigit digits rest) :
    first (digits ++ rest) = number digits rest := by
  cases digits with
  | nil => exact absurd rfl h.ne_nil
  | cons c digits =>
      have hc : c.isDigit = true := h.all c (by simp)
      have hcomment : c ≠ '#' := by
        rintro rfl
        exact absurd hc (by decide)
      have htake := h.takeWhile
      have hdrop := h.dropWhile
      rw [List.cons_append, List.takeWhile_cons_of_pos hc] at htake
      rw [List.cons_append, List.dropWhile_cons_of_pos hc] at hdrop
      rw [List.cons_append, first, Token.ofSymbol?_of_isDigit hc]
      simp only [hcomment, isBlank_of_isDigit hc, hc, if_false, if_true, Bool.false_eq_true,
        htake, hdrop]

/-- A run of letters is a name, if it is well formed. -/
theorem first_letters {letters : List Char} (h : IsRun Char.isAlpha letters rest) :
    first (letters ++ rest) = name letters rest := by
  cases letters with
  | nil => exact absurd rfl h.ne_nil
  | cons c letters =>
      have hc : c.isAlpha = true := h.all c (by simp)
      have hcomment : c ≠ '#' := by
        rintro rfl
        exact absurd hc (by decide)
      have htake := h.takeWhile
      have hdrop := h.dropWhile
      rw [List.cons_append, List.takeWhile_cons_of_pos hc] at htake
      rw [List.cons_append, List.dropWhile_cons_of_pos hc] at hdrop
      rw [List.cons_append, first, Token.ofSymbol?_of_isAlpha hc]
      simp only [hcomment, isBlank_of_isAlpha hc, isDigit_of_isAlpha hc, hc, if_false, if_true,
        Bool.false_eq_true, htake, hdrop]

/-- No lexeme starts with any other character. -/
theorem first_other (hs : Token.ofSymbol? c = none) (hc : c ≠ '#') (hb : isBlank c = false)
    (hd : c.isDigit = false) (ha : c.isAlpha = false) (rest : List Char) :
    first (c :: rest) = (.fault (.invalidSymbol c), rest) := by
  rw [first, hs]
  simp only [hc, hb, hd, ha, if_false, Bool.false_eq_true]

/-- What a line can begin with behind its leading blanks, and its first lexeme with the
characters after it. The line feed at the end of the line is not part of the former. -/
inductive Lead : List Char → Lexeme × List Char → Prop
  | lineEnd {comment : List Char} (h : IsComment comment) : Lead comment (.token .newline, [])
  | symbol {c : Char} {t : Token} (h : Token.ofSymbol? c = some t) (rest : List Char) :
      Lead (c :: rest) (.token t, rest ++ ['\n'])
  | digits {run rest : List Char} (h : IsRun Char.isDigit run rest) :
      Lead (run ++ rest) (number run (rest ++ ['\n']))
  | letters {run rest : List Char} (h : IsRun Char.isAlpha run rest) :
      Lead (run ++ rest) (name run (rest ++ ['\n']))
  | other (c : Char) (rest : List Char) :
      Lead (c :: rest) (.fault (.invalidSymbol c), rest ++ ['\n'])

theorem Lead.of_isRun_digits {run rest : List Char} (h : IsRun Char.isDigit run rest) :
    Lead (run ++ rest) (first (run ++ rest ++ ['\n'])) := by
  rw [List.append_assoc, first_digits (h.terminated (by decide))]
  apply Lead.digits h

theorem Lead.of_isRun_letters {run rest : List Char} (h : IsRun Char.isAlpha run rest) :
    Lead (run ++ rest) (first (run ++ rest ++ ['\n'])) := by
  rw [List.append_assoc, first_letters (h.terminated (by decide))]
  apply Lead.letters h

/-- Every line begins with blanks and one of the leads. -/
theorem exists_lead {body : List Char} (h : '\n' ∉ body) :
    ∃ gap tail, IsGap gap ∧ body = gap ++ tail ∧ Lead tail (first (body ++ ['\n'])) := by
  induction body with
  | nil => exact ⟨[], [], isGap_nil, rfl, .lineEnd (.inl rfl)⟩
  | cons c rest ih =>
      obtain ⟨hc, hrest⟩ := not_or.mp (mt List.mem_cons.mpr h)
      cases hs : Token.ofSymbol? c with
      | some t =>
          refine ⟨[], _, isGap_nil, rfl, ?_⟩
          rw [List.cons_append, first_symbol hs]
          apply Lead.symbol hs
      | none =>
          by_cases hcomment : c = '#'
          · refine ⟨[], _, isGap_nil, rfl, ?_⟩
            rw [hcomment, List.cons_append, first_comment]
            exact .lineEnd (.inr ⟨rest, rfl⟩)
          cases hb : isBlank c with
          | true =>
              obtain ⟨gap, tail, hgap, rfl, hlead⟩ := ih hrest
              have hcons : IsGap [c] := isGap_cons_iff.mpr ⟨⟨hb, Ne.symm hc⟩, isGap_nil⟩
              refine ⟨c :: gap, tail, isGap_cons_iff.mpr ⟨⟨hb, Ne.symm hc⟩, hgap⟩, rfl, ?_⟩
              change Lead tail (first ([c] ++ (gap ++ tail ++ ['\n'])))
              rwa [first_gap hcons]
          | false =>
              cases hd : c.isDigit with
              | true =>
                  obtain ⟨run, tail, hrun, heq⟩ := exists_isRun hd rest
                  exact ⟨[], _, isGap_nil, rfl, heq ▸ .of_isRun_digits hrun⟩
              | false =>
                  cases ha : c.isAlpha with
                  | true =>
                      obtain ⟨run, tail, hrun, heq⟩ := exists_isRun ha rest
                      exact ⟨[], _, isGap_nil, rfl, heq ▸ .of_isRun_letters hrun⟩
                  | false =>
                      refine ⟨[], _, isGap_nil, rfl, ?_⟩
                      rw [List.cons_append, first_other hs hcomment hb hd ha]
                      apply Lead.other

end Lexeme

end RandomAccessMachine
