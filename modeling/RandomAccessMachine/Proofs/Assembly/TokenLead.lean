import RandomAccessMachine.Proofs.Assembly.FirstLexeme

/-!
# The first token of a line

`TokenLead` says how a line is written that begins with a token, and what is
left of the line behind it. `first_eq_token_iff` says that the first lexeme of
a line is such a token exactly then, and `first_eq_newline_iff` when it is the
end of the line.
-/

namespace RandomAccessMachine

/-- The end of a line that means nothing: blanks and perhaps a comment. -/
def IsRemark (chars : List Char) : Prop :=
  ∃ gap comment, IsGap gap ∧ IsComment comment ∧ chars = gap ++ comment

/-- One or more digits that denote a word. There may be leading zeros. -/
structure Numeral (digits : List Char) (x : Word) : Prop where
  ne_nil : digits ≠ []
  isDigit : ∀ c ∈ digits, c.isDigit = true
  le : Decimal.value digits ≤ 9223372036854775807
  value : x.toInt = Decimal.value digits

theorem Word.ofNat?_eq_some_iff {n : Nat} {x : Word} :
    ofNat? n = some x ↔ n ≤ 9223372036854775807 ∧ x.toInt = n := by
  constructor
  · intro h
    refine ⟨?_, toInt_of_ofNat? h⟩
    have hne : ofNat? n ≠ none := by simp [h]
    rw [Ne, ofNat?_eq_none_iff, span] at hne
    omega
  · intro hgiven
    obtain ⟨hle, hx⟩ := hgiven
    have hlt : n < span := by
      unfold span
      omega
    rw [ofNat?, if_pos hlt]
    exact congrArg some (Int64.toInt_inj.mp ((Int64.toInt_ofNat_of_lt hlt).trans hx.symm))

/-- What follows a number on its line, and what is left of it for the next token. -/
inductive AfterNumber : List Char → List Char → Prop
  | lineEnd : AfterNumber [] []
  | closeParen (rest : List Char) : AfterNumber (')' :: rest) (')' :: rest)
  | blank {c : Char} (h : isBlank c = true) (hne : c ≠ '\n') (rest : List Char) :
      AfterNumber (c :: rest) rest

/-- What follows a name on its line, and what is left of it for the next token. -/
inductive AfterName : List Char → List Char → Prop
  | lineEnd : AfterName [] []
  | blank {c : Char} (h : isBlank c = true) (hne : c ≠ '\n') (rest : List Char) :
      AfterName (c :: rest) rest

theorem AfterNumber.suffix {tail rest : List Char} (h : AfterNumber tail rest) :
    rest <:+ tail := by
  cases h with
  | lineEnd => exact List.suffix_rfl
  | closeParen rest => exact List.suffix_rfl
  | blank _ _ rest => exact List.suffix_cons _ rest

theorem AfterName.suffix {tail rest : List Char} (h : AfterName tail rest) :
    rest <:+ tail := by
  cases h with
  | lineEnd => exact List.suffix_rfl
  | blank _ _ rest => exact List.suffix_cons _ rest

/-- A line that begins with a token other than a line feed, and what is left of it. -/
inductive TokenLead : List Char → Token → List Char → Prop
  | symbol {gap : List Char} {c : Char} {t : Token} (hgap : IsGap gap)
      (h : Token.ofSymbol? c = some t) (rest : List Char) : TokenLead (gap ++ c :: rest) t rest
  | number {gap digits tail rest : List Char} {x : Word} (hgap : IsGap gap)
      (h : Numeral digits x) (hafter : AfterNumber tail rest) :
      TokenLead (gap ++ (digits ++ tail)) (.number x) rest
  | keyword {gap tail rest : List Char} (hgap : IsGap gap) (m : Mnemonic)
      (hafter : AfterName tail rest) :
      TokenLead (gap ++ (m.name.toList ++ tail)) (.keyword m) rest

namespace Lexeme

variable {body tail rest : List Char}

/-- Digits are a number exactly if they denote a word. -/
theorem ofDigits_eq_number_iff {digits : List Char} {x : Word} :
    ofDigits digits = .token (.number x) ↔
      Decimal.value digits ≤ 9223372036854775807 ∧ x.toInt = Decimal.value digits := by
  rw [← Word.ofNat?_eq_some_iff, ofDigits]
  cases Word.ofNat? (Decimal.value digits) <;> simp

/-- Letters are a mnemonic exactly if they are its name. -/
theorem ofLetters_eq_keyword_iff {letters : List Char} {m : Mnemonic} :
    ofLetters letters = .token (.keyword m) ↔ letters = m.name.toList := by
  have hname : Mnemonic.ofName? (String.ofList letters) = some m ↔ letters = m.name.toList := by
    rw [Mnemonic.ofName?_eq_some_iff]
    constructor
    · intro h
      rw [h, String.toList_ofList]
    · rintro rfl
      rw [String.ofList_toList]
  rw [← hname, ofLetters]
  cases Mnemonic.ofName? (String.ofList letters) <;> simp

theorem exists_number_of_ofDigits {digits : List Char} {t : Token}
    (h : ofDigits digits = .token t) : ∃ x, t = .number x := by
  unfold ofDigits at h
  split at h
  · exact ⟨_, (Lexeme.token.inj h).symm⟩
  · cases h

theorem exists_keyword_of_ofLetters {letters : List Char} {t : Token}
    (h : ofLetters letters = .token t) : ∃ m, t = .keyword m := by
  unfold ofLetters at h
  split at h
  · exact ⟨_, (Lexeme.token.inj h).symm⟩
  · cases h

theorem not_closeParen_of_isBlank {c : Char} (h : isBlank c = true) : c ≠ ')' := by
  rintro rfl
  exact absurd h (by decide)

section AfterRun

variable {tail rest : List Char}

theorem number_of_after (h : AfterNumber tail rest) (digits : List Char) :
    number digits (tail ++ ['\n']) = (ofDigits digits, rest ++ ['\n']) := by
  cases h with
  | lineEnd => rfl
  | closeParen rest => rfl
  | @blank c hb hne rest =>
      have hnot : ¬ (c = '\n' ∨ c = ')') := not_or.mpr ⟨hne, not_closeParen_of_isBlank hb⟩
      rw [List.cons_append, number, if_neg hnot, if_pos hb]

theorem name_of_after (h : AfterName tail rest) (letters : List Char) :
    name letters (tail ++ ['\n']) = (ofLetters letters, rest ++ ['\n']) := by
  cases h with
  | lineEnd => rfl
  | blank hb hne rest => rw [List.cons_append, name, if_neg hne, if_pos hb]

/-- What follows a number ends it, or the number is faulty. -/
theorem number_cases (digits : List Char) (h : '\n' ∉ tail) :
    (∃ rest, AfterNumber tail rest) ∨
      ∃ c rest, tail = c :: rest ∧
        number digits (tail ++ ['\n']) = (.fault (.invalidNumber digits c), rest ++ ['\n']) := by
  cases tail with
  | nil => exact .inl ⟨[], .lineEnd⟩
  | cons c rest =>
      have hc : c ≠ '\n' := fun heq => h (by simp [heq])
      by_cases hparen : c = ')'
      · subst hparen
        exact .inl ⟨_, .closeParen rest⟩
      · cases hb : isBlank c with
        | true => exact .inl ⟨rest, .blank hb hc rest⟩
        | false =>
            refine .inr ⟨c, rest, rfl, ?_⟩
            rw [List.cons_append, number, if_neg (not_or.mpr ⟨hc, hparen⟩), hb]
            rfl

/-- What follows a name ends it, or the name is faulty. -/
theorem name_cases (letters : List Char) (h : '\n' ∉ tail) :
    (∃ rest, AfterName tail rest) ∨
      ∃ c rest, tail = c :: rest ∧
        name letters (tail ++ ['\n']) = (.fault (.invalidName letters c), rest ++ ['\n']) := by
  cases tail with
  | nil => exact .inl ⟨[], .lineEnd⟩
  | cons c rest =>
      have hc : c ≠ '\n' := fun heq => h (by simp [heq])
      cases hb : isBlank c with
      | true => exact .inl ⟨rest, .blank hb hc rest⟩
      | false =>
          refine .inr ⟨c, rest, rfl, ?_⟩
          rw [List.cons_append, name, if_neg hc, hb]
          rfl

theorem stopsRun_of_afterNumber (h : AfterNumber tail rest) : StopsRun Char.isDigit tail := by
  intro c hc
  cases h with
  | lineEnd => simp at hc
  | closeParen rest =>
      obtain rfl : ')' = c := Option.some.inj hc
      decide
  | blank hb _ _ =>
      obtain rfl := Option.some.inj hc
      cases hd : Char.isDigit _ with
      | false => rfl
      | true => simp [isBlank_of_isDigit hd] at hb

theorem stopsRun_of_afterName (h : AfterName tail rest) : StopsRun Char.isAlpha tail := by
  intro c hc
  cases h with
  | lineEnd => simp at hc
  | blank hb _ _ =>
      obtain rfl := Option.some.inj hc
      cases ha : Char.isAlpha _ with
      | false => rfl
      | true => simp [isBlank_of_isAlpha ha] at hb

end AfterRun

/-- The name of a mnemonic consists of letters. -/
theorem isRun_name {tail rest : List Char} (m : Mnemonic) (h : AfterName tail rest) :
    IsRun Char.isAlpha m.name.toList tail := by
  refine ⟨?_, List.all_eq_true.mp ?_, stopsRun_of_afterName h⟩
  · cases m <;> decide
  · cases m <;> decide

/-- A line that is written as one beginning with a token does begin with it. -/
theorem first_of_tokenLead {t : Token} (h : TokenLead body t rest) :
    first (body ++ ['\n']) = (.token t, rest ++ ['\n']) := by
  cases h with
  | symbol hgap hs rest =>
      rw [List.append_assoc, first_gap hgap, List.cons_append, first_symbol hs]
  | @number gap digits tail rest x hgap hx hafter =>
      have hrun : IsRun Char.isDigit digits tail :=
        ⟨hx.ne_nil, hx.isDigit, stopsRun_of_afterNumber hafter⟩
      rw [List.append_assoc, first_gap hgap, List.append_assoc,
        first_digits (hrun.terminated (by decide)), number_of_after hafter,
        ofDigits_eq_number_iff.mpr ⟨hx.le, hx.value⟩]
  | @keyword gap tail rest hgap m hafter =>
      rw [List.append_assoc, first_gap hgap, List.append_assoc,
        first_letters ((isRun_name m hafter).terminated (by decide)), name_of_after hafter,
        ofLetters_eq_keyword_iff.mpr rfl]

/-- A line whose first lexeme is a token is at its end or written as one beginning with it. -/
theorem tokenLead_of_first {t : Token} {left : List Char} (h : '\n' ∉ body)
    (hfirst : first (body ++ ['\n']) = (.token t, left)) :
    (t = .newline ∧ IsRemark body ∧ left = []) ∨
      ∃ rest, TokenLead body t rest ∧ left = rest ++ ['\n'] := by
  obtain ⟨gap, tail, hgap, rfl, hlead⟩ := exists_lead h
  have htail : '\n' ∉ tail := fun hmem => h (List.mem_append_right gap hmem)
  generalize hr : first (gap ++ tail ++ ['\n']) = result at hlead hfirst
  cases hlead with
  | lineEnd hcomment =>
      cases hfirst
      exact .inl ⟨rfl, ⟨gap, tail, hgap, hcomment, rfl⟩, rfl⟩
  | symbol hs rest =>
      cases hfirst
      exact .inr ⟨rest, .symbol hgap hs rest, rfl⟩
  | @digits run rest hrun =>
      have hrest : '\n' ∉ rest := fun hmem => htail (List.mem_append_right run hmem)
      obtain ⟨rest', hafter⟩ | ⟨c, rest', _, hfault⟩ := number_cases run hrest
      · rw [number_of_after hafter, Prod.mk.injEq] at hfirst
        obtain ⟨hdigits, rfl⟩ := hfirst
        obtain ⟨x, rfl⟩ := exists_number_of_ofDigits hdigits
        obtain ⟨hle, hvalue⟩ := ofDigits_eq_number_iff.mp hdigits
        exact .inr ⟨rest', .number hgap ⟨hrun.ne_nil, hrun.all, hle, hvalue⟩ hafter, rfl⟩
      · rw [hfault] at hfirst
        cases hfirst
  | @letters run rest hrun =>
      have hrest : '\n' ∉ rest := fun hmem => htail (List.mem_append_right run hmem)
      obtain ⟨rest', hafter⟩ | ⟨c, rest', _, hfault⟩ := name_cases run hrest
      · rw [name_of_after hafter, Prod.mk.injEq] at hfirst
        obtain ⟨hletters, rfl⟩ := hfirst
        obtain ⟨m, rfl⟩ := exists_keyword_of_ofLetters hletters
        obtain rfl := ofLetters_eq_keyword_iff.mp hletters
        exact .inr ⟨rest', .keyword hgap m hafter, rfl⟩
      · rw [hfault] at hfirst
        cases hfirst
  | other c rest => cases hfirst

/-- The first lexeme of a line is a token other than a line feed exactly if the line is written
as one beginning with this token. -/
theorem first_eq_token_iff {t : Token} (h : '\n' ∉ body) (ht : t ≠ .newline) :
    first (body ++ ['\n']) = (.token t, rest ++ ['\n']) ↔ TokenLead body t rest := by
  constructor
  · intro hfirst
    obtain ⟨hnewline, _⟩ | ⟨rest', hlead, hrest⟩ := tokenLead_of_first h hfirst
    · exact absurd hnewline ht
    · rwa [List.append_cancel_right hrest]
  · exact first_of_tokenLead

/-- The first lexeme of a line is its line feed exactly if the line means nothing. -/
theorem first_eq_newline_iff (h : '\n' ∉ body) :
    first (body ++ ['\n']) = (.token .newline, []) ↔ IsRemark body := by
  constructor
  · intro hfirst
    obtain ⟨_, hremark, _⟩ | ⟨rest, _, hrest⟩ := tokenLead_of_first h hfirst
    · exact hremark
    · simp at hrest
  · intro hgiven
    obtain ⟨gap, comment, hgap, hcomment, rfl⟩ := hgiven
    rw [List.append_assoc, first_gap hgap]
    obtain rfl | ⟨text, rfl⟩ := hcomment
    · rfl
    · exact first_comment _

end Lexeme

end RandomAccessMachine
