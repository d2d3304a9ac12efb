import RandomAccessMachine.Proofs.Assembly.LineLexemes

/-!
# The first lexeme of a line is the longest one

`Munch` gives the rules for the first lexeme of a line: what it is, which
characters it takes, and which ones it leaves. Runs of digits and letters are
as long as possible, and the character behind a run is taken along, left, or
blamed. `next_takes_longest_lexeme` says that a cursor follows these rules.

## Implementation notes

The rules are about lines with their line feed, so something follows every
run. `Begins` leaves out the leading blanks, and the rules of numbers and
names share `Closes` and `Spoils`, which differ only in the characters that
are kept for the next lexeme.
-/

namespace RandomAccessMachine

/-- The characters that are tokens on their own. -/
def symbols : List (Char × Token) :=
  [('\n', .newline), ('(', .leftParen), (')', .rightParen), ('=', .equals)]

/-- The characters begin with one that ends a run before them, and these are left of them: one to
be kept is left, and a blank is taken along. -/
inductive Closes (kept : List Char) : List Char → List Char → Prop
  | kept {c : Char} (h : c ∈ kept) (rest : List Char) : Closes kept (c :: rest) (c :: rest)
  | blank {c : Char} (h : isBlank c = true) (hne : c ≠ '\n') (rest : List Char) :
      Closes kept (c :: rest) rest

/-- The character cannot follow a run. -/
def Spoils (kept : List Char) (c : Char) : Prop := c ∉ kept ∧ isBlank c = false

/-- The first lexeme of characters that do not begin with a blank, and what it leaves of them. -/
inductive Begins : List Char → Lexeme → List Char → Prop
  | comment (text : List Char) : Begins ('#' :: text) (.token .newline) []
  | symbol {c : Char} {t : Token} (h : (c, t) ∈ symbols) (rest : List Char) :
      Begins (c :: rest) (.token t) rest
  | number {digits tail rest : List Char} {x : Word} (hrun : IsRun Char.isDigit digits tail)
      (hclose : Closes ['\n', ')'] tail rest) (hle : Decimal.value digits ≤ 9223372036854775807)
      (hx : x.toInt = Decimal.value digits) :
      Begins (digits ++ tail) (.token (.number x)) rest
  | numberOutOfRange {digits tail rest : List Char} (hrun : IsRun Char.isDigit digits tail)
      (hclose : Closes ['\n', ')'] tail rest) (hlt : 9223372036854775807 < Decimal.value digits) :
      Begins (digits ++ tail) (.fault (.numberOutOfRange digits)) rest
  | invalidNumber {digits rest : List Char} {c : Char}
      (hrun : IsRun Char.isDigit digits (c :: rest)) (hspoil : Spoils ['\n', ')'] c) :
      Begins (digits ++ c :: rest) (.fault (.invalidNumber digits c)) rest
  | keyword {letters tail rest : List Char} {m : Mnemonic} (hrun : IsRun Char.isAlpha letters tail)
      (hclose : Closes ['\n'] tail rest) (hname : m.name.toList = letters) :
      Begins (letters ++ tail) (.token (.keyword m)) rest
  | unknownName {letters tail rest : List Char} (hrun : IsRun Char.isAlpha letters tail)
      (hclose : Closes ['\n'] tail rest) (hname : ∀ m : Mnemonic, m.name.toList ≠ letters) :
      Begins (letters ++ tail) (.fault (.unknownName letters)) rest
  | invalidName {letters rest : List Char} {c : Char}
      (hrun : IsRun Char.isAlpha letters (c :: rest)) (hspoil : Spoils ['\n'] c) :
      Begins (letters ++ c :: rest) (.fault (.invalidName letters c)) rest
  | invalidSymbol {c : Char} (hsymbol : ∀ t, (c, t) ∉ symbols) (hcomment : c ≠ '#')
      (hblank : isBlank c = false) (hdigit : c.isDigit = false) (hletter : c.isAlpha = false)
      (rest : List Char) : Begins (c :: rest) (.fault (.invalidSymbol c)) rest

/-- The first lexeme of a line behind its leading blanks, and what it leaves of the line. -/
def Munch (line : List Char) (l : Lexeme) (rest : List Char) : Prop :=
  ∃ gap tail, IsGap gap ∧ line = gap ++ tail ∧ Begins tail l rest

theorem mem_symbols_iff {c : Char} {t : Token} :
    (c, t) ∈ symbols ↔ Token.ofSymbol? c = some t := by
  rw [Token.ofSymbol?_eq_some_iff]
  simp [symbols]

theorem ofSymbol?_eq_none_of_notMem {c : Char} (h : ∀ t, (c, t) ∉ symbols) :
    Token.ofSymbol? c = none := by
  cases hs : Token.ofSymbol? c with
  | none => rfl
  | some t => exact absurd (mem_symbols_iff.mpr hs) (h t)

/-- A character that follows a run ends it or spoils it. -/
theorem closes_or_spoils (kept : List Char) (hkept : '\n' ∈ kept) (c : Char) (rest : List Char) :
    (∃ left, Closes kept (c :: rest) left) ∨ Spoils kept c := by
  by_cases hc : c ∈ kept
  · exact .inl ⟨_, .kept hc rest⟩
  · cases hb : isBlank c with
    | false => exact .inr ⟨hc, hb⟩
    | true =>
        have hne : c ≠ '\n' := by
          rintro rfl
          exact hc hkept
        exact .inl ⟨rest, .blank hb hne rest⟩

/-- Something follows every run before a line feed. -/
theorem exists_isRun_of_mem {p : Char → Bool} {c : Char} {tail : List Char} (hp : p '\n' = false)
    (hc : p c = true) (h : '\n' ∈ tail) :
    ∃ run d rest, IsRun p run (d :: rest) ∧ c :: tail = run ++ d :: rest := by
  obtain ⟨run, rest, hrun, heq⟩ := exists_isRun hc tail
  cases rest with
  | nil =>
      have hmem : '\n' ∈ run := by
        rw [List.append_nil] at heq
        exact heq ▸ List.mem_cons_of_mem c h
      exact absurd (hrun.all _ hmem) (by simp [hp])
  | cons d rest => exact ⟨run, d, rest, hrun, heq⟩

namespace Lexeme

variable {digits letters tail rest : List Char} {c : Char}

theorem number_of_closes (h : Closes ['\n', ')'] tail rest) :
    number digits tail = (ofDigits digits, rest) := by
  cases h with
  | @kept c hc rest =>
      have hc' : c = '\n' ∨ c = ')' := by simpa using hc
      rw [number, if_pos hc']
  | @blank c hb hne =>
      have hc' : ¬ (c = '\n' ∨ c = ')') := not_or.mpr ⟨hne, not_closeParen_of_isBlank hb⟩
      rw [number, if_neg hc', if_pos hb]

theorem number_of_spoils (h : Spoils ['\n', ')'] c) :
    number digits (c :: rest) = (.fault (.invalidNumber digits c), rest) := by
  obtain ⟨hc, hb⟩ := h
  have hc' : ¬ (c = '\n' ∨ c = ')') := by simpa using hc
  simp [number, hc', hb]

theorem name_of_closes (h : Closes ['\n'] tail rest) :
    name letters tail = (ofLetters letters, rest) := by
  cases h with
  | @kept c hc rest =>
      have hc' : c = '\n' := by simpa using hc
      rw [name, if_pos hc']
  | @blank c hb hne => rw [name, if_neg hne, if_pos hb]

theorem name_of_spoils (h : Spoils ['\n'] c) :
    name letters (c :: rest) = (.fault (.invalidName letters c), rest) := by
  obtain ⟨hc, hb⟩ := h
  have hc' : c ≠ '\n' := by simpa using hc
  simp [name, hc', hb]

/-- Digits are out of range exactly if they denote more than the greatest word. -/
theorem ofDigits_of_lt (h : 9223372036854775807 < Decimal.value digits) :
    ofDigits digits = .fault (.numberOutOfRange digits) := by
  have hnone : Word.ofNat? (Decimal.value digits) = none := by
    rw [Word.ofNat?_eq_none_iff, Word.span]
    omega
  rw [ofDigits, hnone]

/-- Letters are unknown if no mnemonic has them for its name. -/
theorem ofLetters_of_ne (h : ∀ m : Mnemonic, m.name.toList ≠ letters) :
    ofLetters letters = .fault (.unknownName letters) := by
  rw [ofLetters]
  split
  · rename_i m hm
    have hname := Mnemonic.ofName?_eq_some_iff.mp hm
    exact absurd (by rw [hname, String.toList_ofList]) (h m)
  · rfl

end Lexeme

/-- What ends a run stays, or it is a blank that is taken along. -/
theorem Closes.eq_or_blank {kept tail rest : List Char} (h : Closes kept tail rest) :
    tail = rest ∨ ∃ b, isBlank b = true ∧ b ≠ '\n' ∧ tail = b :: rest := by
  cases h with
  | kept hc rest => exact .inl rfl
  | @blank b hb hne rest => exact .inr ⟨b, hb, hne, rfl⟩

namespace Begins

variable {line tail rest : List Char} {l : Lexeme} {c : Char}

/-- The first lexeme is the one that the rules give. -/
theorem first (h : Begins line l rest) : Lexeme.first line = (l, rest) := by
  cases h with
  | comment text => exact Lexeme.first_comment text
  | symbol h rest => exact Lexeme.first_symbol (mem_symbols_iff.mp h) rest
  | number hrun hclose hle hx =>
      rw [Lexeme.first_digits hrun, Lexeme.number_of_closes hclose,
        Lexeme.ofDigits_eq_number_iff.mpr ⟨hle, hx⟩]
  | numberOutOfRange hrun hclose hlt =>
      rw [Lexeme.first_digits hrun, Lexeme.number_of_closes hclose, Lexeme.ofDigits_of_lt hlt]
  | invalidNumber hrun hspoil => rw [Lexeme.first_digits hrun, Lexeme.number_of_spoils hspoil]
  | keyword hrun hclose hname =>
      rw [Lexeme.first_letters hrun, Lexeme.name_of_closes hclose,
        Lexeme.ofLetters_eq_keyword_iff.mpr hname.symm]
  | unknownName hrun hclose hname =>
      rw [Lexeme.first_letters hrun, Lexeme.name_of_closes hclose, Lexeme.ofLetters_of_ne hname]
  | invalidName hrun hspoil => rw [Lexeme.first_letters hrun, Lexeme.name_of_spoils hspoil]
  | invalidSymbol hsymbol hcomment hblank hdigit hletter rest =>
      exact Lexeme.first_other (ofSymbol?_eq_none_of_notMem hsymbol) hcomment hblank hdigit
        hletter rest

/-- There is a rule for every run of digits. -/
theorem exists_of_digits {digits : List Char} (h : IsRun Char.isDigit digits (c :: rest)) :
    ∃ l left, Begins (digits ++ c :: rest) l left := by
  obtain ⟨left, hclose⟩ | hspoil := closes_or_spoils ['\n', ')'] (by simp) c rest
  · by_cases hle : Decimal.value digits ≤ 9223372036854775807
    · have hlt : Decimal.value digits < Word.span := by
        unfold Word.span
        omega
      have hx : (Int64.ofNat (Decimal.value digits)).toInt = Decimal.value digits :=
        Int64.toInt_ofNat_of_lt hlt
      exact ⟨_, left, .number h hclose hle hx⟩
    · exact ⟨_, left, .numberOutOfRange h hclose (Nat.lt_of_not_le hle)⟩
  · exact ⟨_, rest, .invalidNumber h hspoil⟩

/-- There is a rule for every run of letters. -/
theorem exists_of_letters {letters : List Char} (h : IsRun Char.isAlpha letters (c :: rest)) :
    ∃ l left, Begins (letters ++ c :: rest) l left := by
  obtain ⟨left, hclose⟩ | hspoil := closes_or_spoils ['\n'] (by simp) c rest
  · by_cases hname : ∃ m : Mnemonic, m.name.toList = letters
    · obtain ⟨m, hm⟩ := hname
      exact ⟨_, left, .keyword h hclose hm⟩
    · exact ⟨_, left, .unknownName h hclose (not_exists.mp hname)⟩
  · exact ⟨_, rest, .invalidName h hspoil⟩

/-- The context of a fault is what the characters begin with, and all of it is taken. -/
theorem exists_context {fault : LexicalFault} (h : Begins line (.fault fault) rest) :
    ∃ tail, line = fault.context.toList ++ tail ∧
      (tail = rest ∨ ∃ b, isBlank b = true ∧ b ≠ '\n' ∧ tail = b :: rest) := by
  cases h with
  | @numberOutOfRange digits tail _ hrun hclose hlt =>
      exact ⟨tail, by simp [LexicalFault.context], hclose.eq_or_blank⟩
  | @unknownName letters tail _ hrun hclose hname =>
      exact ⟨tail, by simp [LexicalFault.context], hclose.eq_or_blank⟩
  | invalidNumber | invalidName | invalidSymbol =>
      exact ⟨rest, by simp [LexicalFault.context], .inl rfl⟩

end Begins

namespace Munch

variable {line rest : List Char} {l : Lexeme}

theorem first (h : Munch line l rest) : Lexeme.first line = (l, rest) := by
  obtain ⟨gap, tail, hgap, rfl, hbegins⟩ := h
  rw [Lexeme.first_gap hgap, hbegins.first]

theorem of_begins (h : Begins line l rest) : Munch line l rest := ⟨[], line, isGap_nil, rfl, h⟩

/-- There is a rule for every line with a line feed. -/
theorem exists_munch (h : '\n' ∈ line) : ∃ l rest, Munch line l rest := by
  induction line with
  | nil => simp at h
  | cons c tail ih =>
      by_cases hs : ∃ t, (c, t) ∈ symbols
      · obtain ⟨t, ht⟩ := hs
        exact ⟨_, _, .of_begins (.symbol ht tail)⟩
      have hsymbol : ∀ t, (c, t) ∉ symbols := not_exists.mp hs
      have hne : c ≠ '\n' := by
        rintro rfl
        exact hsymbol .newline (by simp [symbols])
      have htail : '\n' ∈ tail := by simpa [Ne.symm hne] using h
      by_cases hcomment : c = '#'
      · subst hcomment
        exact ⟨_, _, .of_begins (.comment tail)⟩
      cases hblank : isBlank c with
      | true =>
          obtain ⟨l, rest, gap, tail', hgap, rfl, hbegins⟩ := ih htail
          exact ⟨l, rest, c :: gap, tail', isGap_cons_iff.mpr ⟨⟨hblank, hne⟩, hgap⟩, rfl, hbegins⟩
      | false =>
          cases hdigit : c.isDigit with
          | true =>
              obtain ⟨run, d, rest, hrun, heq⟩ := exists_isRun_of_mem (by decide) hdigit htail
              obtain ⟨l, left, hbegins⟩ := Begins.exists_of_digits hrun
              exact ⟨l, left, .of_begins (heq ▸ hbegins)⟩
          | false =>
              cases hletter : c.isAlpha with
              | true =>
                  obtain ⟨run, d, rest, hrun, heq⟩ := exists_isRun_of_mem (by decide) hletter htail
                  obtain ⟨l, left, hbegins⟩ := Begins.exists_of_letters hrun
                  exact ⟨l, left, .of_begins (heq ▸ hbegins)⟩
              | false =>
                  exact ⟨_, _, .of_begins
                    (.invalidSymbol hsymbol hcomment hblank hdigit hletter tail)⟩

end Munch

namespace Cursor

/-- A cursor in a line takes the lexeme that the rules give for what is left of the line, and
leaves what they leave. A fault has the text that it lies in for its context. -/
theorem next_takes_longest_lexeme {c : Cursor} (hended : c.ended = false) (hline : '\n' ∈ c.line) :
    (∀ result, c.next = result ↔ ∃ l rest, Munch c.line l rest ∧
      result = (some ⟨c.lineNr, l⟩, { c with line := rest })) ∧
    ∀ fault rest, Munch c.line (.fault fault) rest →
      ∃ gap tail, IsGap gap ∧ c.line = gap ++ (fault.context.toList ++ tail) ∧
        (tail = rest ∨ ∃ b, isBlank b = true ∧ b ≠ '\n' ∧ tail = b :: rest) := by
  obtain ⟨source, line, n, ended⟩ := c
  obtain rfl : ended = false := hended
  have hnext : ∀ {l rest}, Munch line l rest →
      next ⟨source, line, n, false⟩ = (some ⟨n, l⟩, ⟨source, rest, n, false⟩) := by
    intro l rest hmunch
    rw [next_of_line (List.ne_nil_of_mem hline), hmunch.first]
  constructor
  · intro result
    constructor
    · rintro rfl
      obtain ⟨l, rest, hmunch⟩ := Munch.exists_munch hline
      exact ⟨l, rest, hmunch, hnext hmunch⟩
    · intro hgiven
      obtain ⟨l, rest, hmunch, rfl⟩ := hgiven
      exact hnext hmunch
  · intro fault rest hmunch
    obtain ⟨gap, tail, hgap, hsplit, hbegins⟩ := hmunch
    obtain ⟨left, rfl, hleft⟩ := hbegins.exists_context
    exact ⟨gap, left, hgap, hsplit, hleft⟩

/-- The number one above the greatest word is out of range behind leading zeros, too, and the
parenthesis behind it is left. -/
theorem next_takes_longest_lexeme_of_number_too_great :
    let digits := "009223372036854775808".toList
    let c : Cursor := ⟨.ofText [], [' ', '\u3000'] ++ (digits ++ [')', '\n']), 4, false⟩
    c.ended = false ∧ '\n' ∈ c.line ∧
      c.next = (some ⟨4, .fault (.numberOutOfRange digits)⟩, { c with line := [')', '\n'] }) := by
  intro digits c
  have hline : '\n' ∈ c.line := by decide
  have hdigits : ∀ c ∈ digits, c.isDigit = true := List.all_eq_true.mp (by decide)
  have hrun : IsRun Char.isDigit digits [')', '\n'] := ⟨by decide, hdigits, by simp [StopsRun]⟩
  have hgap : IsGap [' ', '\u3000'] :=
    isGap_cons_iff.mpr ⟨by decide, isGap_cons_iff.mpr ⟨by decide, isGap_nil⟩⟩
  have hmunch : Munch c.line (.fault (.numberOutOfRange digits)) [')', '\n'] :=
    ⟨_, _, hgap, rfl, .numberOutOfRange hrun (.kept (by simp) _) (by decide)⟩
  exact ⟨rfl, hline, ((next_takes_longest_lexeme rfl hline).1 _).mpr ⟨_, _, hmunch, rfl⟩⟩

end Cursor

end RandomAccessMachine
