import RandomAccessMachine.Proofs.Assembly.LineStatement

/-!
# The grammar of program texts

`LineForm` says how a line is written that stands for an instruction. A text
is read as a program exactly if each of its lines is written in one of these
forms, and the instructions of the program are those of its lines.

## Implementation notes

The proof follows the expectations backwards: what may stand where the line
has to end, then where a closing parenthesis is missing, and so on up to the
beginning of the line.
-/

namespace RandomAccessMachine

/-- The end of a line behind a word: nothing, or blanks and perhaps a comment. -/
def IsEnding (chars : List Char) : Prop :=
  chars = [] ∨ ∃ gap comment, gap ≠ [] ∧ IsGap gap ∧ IsComment comment ∧ chars = gap ++ comment

/-- The ways to write an argument, up to the end of its line. -/
inductive ArgumentForm (form : ArgumentClass) : List Char → Operand → Prop
  | direct {digits ending : List Char} {x : Word} (hx : Numeral digits x)
      (hend : IsEnding ending) : ArgumentForm form (digits ++ ending) (.direct x)
  | indirect {inner digits outer remark : List Char} {x : Word}
      (hform : form = .register ∨ form = .value) (hinner : IsGap inner) (hx : Numeral digits x)
      (houter : IsGap outer) (hremark : IsRemark remark) :
      ArgumentForm form ('(' :: (inner ++ (digits ++ (outer ++ ')' :: remark)))) (.indirect x)
  | constant {inner digits ending : List Char} {x : Word}
      (hform : form = .line ∨ form = .value) (hinner : IsGap inner) (hx : Numeral digits x)
      (hend : IsEnding ending) :
      ArgumentForm form ('=' :: (inner ++ (digits ++ ending))) (.constant x)

/-- The ways to write a line that stands for an instruction. -/
inductive LineForm : List Char → Mnemonic → Operand → Prop
  | blank {remark : List Char} (h : IsRemark remark) : LineForm remark .pass .absent
  | bare {gap ending : List Char} {m : Mnemonic} (hclass : m.argumentClass = .noArgument)
      (hgap : IsGap gap) (hend : IsEnding ending) :
      LineForm (gap ++ (m.name.toList ++ ending)) m .absent
  | argument {gap space argument : List Char} {m : Mnemonic} {o : Operand}
      (hclass : m.argumentClass ≠ .noArgument) (hgap : IsGap gap) (hspace : IsGap space)
      (hne : space ≠ []) (harg : ArgumentForm m.argumentClass argument o) :
      LineForm (gap ++ (m.name.toList ++ (space ++ argument))) m o

theorem ArgumentForm.ne_nil {form : ArgumentClass} {text : List Char} {o : Operand}
    (h : ArgumentForm form text o) : text ≠ [] := by
  cases h with
  | direct hx _ => exact List.append_ne_nil_of_left_ne_nil hx.ne_nil _
  | indirect => exact List.cons_ne_nil _ _
  | constant => exact List.cons_ne_nil _ _

/-- Anything left behind a name stands behind a blank. -/
theorem AfterName.exists_blank {tail rest : List Char} (h : AfterName tail rest)
    (hne : rest ≠ []) : ∃ c, isBlank c = true ∧ c ≠ '\n' ∧ tail = c :: rest := by
  cases h with
  | lineEnd => exact absurd rfl hne
  | blank hblank hc rest => exact ⟨_, hblank, hc, rfl⟩

section Endings

variable {tail rest : List Char}

theorem isRemark_nil : IsRemark [] := ⟨[], [], isGap_nil, .inl rfl, rfl⟩

/-- A blank in front of the end of a line belongs to it. -/
theorem isRemark_cons {c : Char} (h : isBlank c = true) (hne : c ≠ '\n') (hremark : IsRemark rest) :
    ∃ gap comment, gap ≠ [] ∧ IsGap gap ∧ IsComment comment ∧ c :: rest = gap ++ comment := by
  obtain ⟨gap, comment, hgap, hcomment, rfl⟩ := hremark
  exact ⟨c :: gap, comment, by simp, isGap_cons_iff.mpr ⟨⟨h, hne⟩, hgap⟩, hcomment, rfl⟩

theorem not_isRemark_closeParen (rest : List Char) : ¬ IsRemark (')' :: rest) := by
  intro hgiven
  obtain ⟨gap, comment, hgap, hcomment, heq⟩ := hgiven
  cases gap with
  | nil =>
      rcases hcomment with rfl | ⟨text, rfl⟩ <;> simp at heq
  | cons c gap =>
      obtain ⟨⟨hblank, _⟩, _⟩ := isGap_cons_iff.mp hgap
      rw [List.cons_append, List.cons.injEq] at heq
      exact Lexeme.not_closeParen_of_isBlank hblank heq.1.symm

/-- A line ends behind a name exactly if nothing that matters is left behind it. -/
theorem isEnding_iff_afterName :
    IsEnding tail ↔ ∃ rest, AfterName tail rest ∧ IsRemark rest := by
  constructor
  · rintro (rfl | ⟨gap, comment, hne, hgap, hcomment, rfl⟩)
    · exact ⟨[], .lineEnd, isRemark_nil⟩
    · cases gap with
      | nil => exact absurd rfl hne
      | cons c gap =>
          obtain ⟨⟨hblank, hc⟩, hgap⟩ := isGap_cons_iff.mp hgap
          exact ⟨_, .blank hblank hc _, gap, comment, hgap, hcomment, rfl⟩
  · intro hgiven
    obtain ⟨rest, hafter, hremark⟩ := hgiven
    cases hafter with
    | lineEnd => exact .inl rfl
    | blank hblank hc rest => exact .inr (isRemark_cons hblank hc hremark)

theorem AfterName.afterNumber (h : AfterName tail rest) : AfterNumber tail rest := by
  cases h with
  | lineEnd => exact .lineEnd
  | blank hblank hne rest => exact .blank hblank hne rest

/-- A line ends behind a number exactly if nothing that matters is left behind it. -/
theorem isEnding_iff_afterNumber :
    IsEnding tail ↔ ∃ rest, AfterNumber tail rest ∧ IsRemark rest := by
  rw [isEnding_iff_afterName]
  constructor
  · intro hgiven
    obtain ⟨rest, hafter, hremark⟩ := hgiven
    exact ⟨rest, hafter.afterNumber, hremark⟩
  · intro hgiven
    obtain ⟨rest, hafter, hremark⟩ := hgiven
    cases hafter with
    | lineEnd => exact ⟨_, .lineEnd, hremark⟩
    | closeParen rest => exact absurd hremark (not_isRemark_closeParen rest)
    | blank hblank hne rest => exact ⟨rest, .blank hblank hne rest, hremark⟩

/-- What is left behind a number begins with a gap and a closing parenthesis exactly if what
follows the number does. -/
theorem gap_closeParen_iff_afterNumber {remark : List Char} :
    (∃ outer, IsGap outer ∧ tail = outer ++ ')' :: remark) ↔
      ∃ rest, AfterNumber tail rest ∧ ∃ gap, IsGap gap ∧ rest = gap ++ ')' :: remark := by
  constructor
  · intro hgiven
    obtain ⟨outer, houter, rfl⟩ := hgiven
    cases outer with
    | nil => exact ⟨_, .closeParen remark, [], isGap_nil, rfl⟩
    | cons c outer =>
        obtain ⟨⟨hblank, hne⟩, houter⟩ := isGap_cons_iff.mp houter
        exact ⟨_, .blank hblank hne _, outer, houter, rfl⟩
  · intro hgiven
    obtain ⟨rest, hafter, gap, hgap, rfl⟩ := hgiven
    generalize hrest : gap ++ ')' :: remark = rest at hafter
    cases hafter with
    | lineEnd => simp at hrest
    | closeParen rest => exact ⟨gap, hgap, hrest.symm⟩
    | @blank c hblank hne rest =>
        exact ⟨c :: gap, isGap_cons_iff.mpr ⟨⟨hblank, hne⟩, hgap⟩, by rw [← hrest]; rfl⟩

end Endings

namespace TokenLead

variable {body rest : List Char}

/-- A line begins with a symbol if there are only blanks in front of it. -/
theorem symbol_iff {c : Char} {t : Token} (h : Token.ofSymbol? c = some t) :
    TokenLead body t rest ↔ ∃ gap, IsGap gap ∧ body = gap ++ c :: rest := by
  constructor
  · intro hlead
    cases hlead with
    | @symbol gap d _ hgap hd rest =>
        obtain rfl := Token.eq_of_ofSymbol? h hd
        exact ⟨gap, hgap, rfl⟩
    | number => simp [Token.ofSymbol?_eq_some_iff] at h
    | keyword => simp [Token.ofSymbol?_eq_some_iff] at h
  · intro hgiven
    obtain ⟨gap, hgap, rfl⟩ := hgiven
    exact .symbol hgap h rest

theorem number_iff {x : Word} :
    TokenLead body (.number x) rest ↔ ∃ gap digits tail, IsGap gap ∧ Numeral digits x ∧
      AfterNumber tail rest ∧ body = gap ++ (digits ++ tail) := by
  constructor
  · intro hlead
    cases hlead with
    | symbol _ h _ => simp [Token.ofSymbol?_eq_some_iff] at h
    | number hgap hx hafter => exact ⟨_, _, _, hgap, hx, hafter, rfl⟩
  · intro hgiven
    obtain ⟨gap, digits, tail, hgap, hx, hafter, rfl⟩ := hgiven
    exact .number hgap hx hafter

theorem keyword_iff {m : Mnemonic} :
    TokenLead body (.keyword m) rest ↔ ∃ gap tail, IsGap gap ∧ AfterName tail rest ∧
      body = gap ++ (m.name.toList ++ tail) := by
  constructor
  · intro hlead
    cases hlead with
    | symbol _ h _ => simp [Token.ofSymbol?_eq_some_iff] at h
    | keyword hgap _ hafter => exact ⟨_, _, hgap, hafter, rfl⟩
  · intro hgiven
    obtain ⟨gap, tail, hgap, hafter, rfl⟩ := hgiven
    exact .keyword hgap m hafter

end TokenLead

namespace Expectation

variable {n : Nat} {m : Mnemonic} {x : Word} {o : Operand} {body : List Char}
  {is : List Instruction}

/-- What may stand where a statement is complete. -/
theorem onLine_lineEnd_iff (h : '\n' ∉ body) :
    (lineEnd m o).onLine n body = .ok is ↔ IsRemark body ∧ is = [⟨m, o, n⟩] := by
  rw [onLine_eq_ok_iff h]
  constructor
  · rintro (⟨hremark, _, _, hc, his⟩ | ⟨t, _, _, _, _, hnext, _⟩)
    · cases hc
      exact ⟨hremark, his⟩
    · cases t <;> cases hnext
  · intro hgiven
    obtain ⟨hremark, his⟩ := hgiven
    exact .inl ⟨hremark, m, o, rfl, his⟩

/-- What may stand where a closing parenthesis is missing. -/
theorem onLine_closeParen_iff (h : '\n' ∉ body) :
    (closeParen m x).onLine n body = .ok is ↔
      ∃ gap remark, IsGap gap ∧ IsRemark remark ∧ body = gap ++ ')' :: remark ∧
        is = [⟨m, .indirect x, n⟩] := by
  rw [onLine_eq_ok_iff h]
  constructor
  · rintro (⟨_, _, _, hc, _⟩ | ⟨t, rest, next, hrest, hlead, hnext, hok⟩)
    · cases hc
    · cases t <;> cases hnext
      obtain ⟨gap, hgap, rfl⟩ := (TokenLead.symbol_iff (c := ')') rfl).mp hlead
      obtain ⟨hremark, his⟩ := (onLine_lineEnd_iff hrest).mp hok
      exact ⟨gap, rest, hgap, hremark, rfl, his⟩
  · intro hgiven
    obtain ⟨gap, remark, hgap, hremark, rfl, his⟩ := hgiven
    have hrest : '\n' ∉ remark := fun hmem => h (by simp [hmem])
    refine .inr ⟨.rightParen, remark, _, hrest, .symbol hgap rfl remark, rfl, ?_⟩
    apply (onLine_lineEnd_iff hrest).mpr
    exact ⟨hremark, his⟩

/-- What may stand behind an opening parenthesis. -/
theorem onLine_address_iff (h : '\n' ∉ body) :
    (address m).onLine n body = .ok is ↔
      ∃ inner digits outer remark x, IsGap inner ∧ Numeral digits x ∧ IsGap outer ∧
        IsRemark remark ∧ body = inner ++ (digits ++ (outer ++ ')' :: remark)) ∧
        is = [⟨m, .indirect x, n⟩] := by
  rw [onLine_eq_ok_iff h]
  constructor
  · rintro (⟨_, _, _, hc, _⟩ | ⟨t, rest, next, hrest, hlead, hnext, hok⟩)
    · cases hc
    · cases t <;> cases hnext
      rename_i x
      obtain ⟨inner, digits, tail, hinner, hx, hafter, rfl⟩ := TokenLead.number_iff.mp hlead
      obtain ⟨gap, remark, hgap, hremark, hrest', his⟩ := (onLine_closeParen_iff hrest).mp hok
      obtain ⟨outer, houter, rfl⟩ :=
        gap_closeParen_iff_afterNumber.mpr ⟨rest, hafter, gap, hgap, hrest'⟩
      exact ⟨inner, digits, outer, remark, x, hinner, hx, houter, hremark, rfl, his⟩
  · intro hgiven
    obtain ⟨inner, digits, outer, remark, x, hinner, hx, houter, hremark, rfl, his⟩ := hgiven
    obtain ⟨rest, hafter, gap, hgap, hrest'⟩ :=
      gap_closeParen_iff_afterNumber.mp ⟨outer, houter, rfl⟩
    have hrest : '\n' ∉ rest := fun hmem =>
      h (List.mem_append_right _ (List.mem_append_right _ (hafter.suffix.mem hmem)))
    refine .inr ⟨.number x, rest, _, hrest, .number hinner hx hafter, rfl, ?_⟩
    apply (onLine_closeParen_iff hrest).mpr
    exact ⟨gap, remark, hgap, hremark, hrest', his⟩

/-- What may stand behind an equals sign. -/
theorem onLine_constant_iff (h : '\n' ∉ body) :
    (constant m).onLine n body = .ok is ↔
      ∃ inner digits ending x, IsGap inner ∧ Numeral digits x ∧ IsEnding ending ∧
        body = inner ++ (digits ++ ending) ∧ is = [⟨m, .constant x, n⟩] := by
  rw [onLine_eq_ok_iff h]
  constructor
  · rintro (⟨_, _, _, hc, _⟩ | ⟨t, rest, next, hrest, hlead, hnext, hok⟩)
    · cases hc
    · cases t <;> cases hnext
      rename_i x
      obtain ⟨inner, digits, tail, hinner, hx, hafter, rfl⟩ := TokenLead.number_iff.mp hlead
      obtain ⟨hremark, his⟩ := (onLine_lineEnd_iff hrest).mp hok
      have hend := isEnding_iff_afterNumber.mpr ⟨rest, hafter, hremark⟩
      exact ⟨inner, digits, tail, x, hinner, hx, hend, rfl, his⟩
  · intro hgiven
    obtain ⟨inner, digits, ending, x, hinner, hx, hend, rfl, his⟩ := hgiven
    obtain ⟨rest, hafter, hremark⟩ := isEnding_iff_afterNumber.mp hend
    have hrest : '\n' ∉ rest := fun hmem =>
      h (List.mem_append_right _ (List.mem_append_right _ (hafter.suffix.mem hmem)))
    refine .inr ⟨.number x, rest, _, hrest, .number hinner hx hafter, rfl, ?_⟩
    apply (onLine_lineEnd_iff hrest).mpr
    exact ⟨hremark, his⟩

theorem takesPointer_iff {form : ArgumentClass} :
    form.takesPointer = true ↔ form = .register ∨ form = .value := by
  cases form <;> simp [ArgumentClass.takesPointer]

theorem takesConstant_iff {form : ArgumentClass} :
    form.takesConstant = true ↔ form = .line ∨ form = .value := by
  cases form <;> simp [ArgumentClass.takesConstant]

theorem next?_argument_leftParen {next : Expectation} :
    (argument m).next? .leftParen = some next ↔
      (m.argumentClass = .register ∨ m.argumentClass = .value) ∧ next = .address m := by
  rw [← takesPointer_iff]
  cases hform : m.argumentClass.takesPointer <;> simp [next?, hform, eq_comm]

theorem next?_argument_equals {next : Expectation} :
    (argument m).next? .equals = some next ↔
      (m.argumentClass = .line ∨ m.argumentClass = .value) ∧ next = .constant m := by
  rw [← takesConstant_iff]
  cases hform : m.argumentClass.takesConstant <;> simp [next?, hform, eq_comm]

/-- What may stand behind a mnemonic that takes an argument. -/
theorem onLine_argument_iff (h : '\n' ∉ body) :
    (argument m).onLine n body = .ok is ↔
      ∃ gap text o, IsGap gap ∧ ArgumentForm m.argumentClass text o ∧ body = gap ++ text ∧
        is = [⟨m, o, n⟩] := by
  rw [onLine_eq_ok_iff h]
  constructor
  · rintro (⟨_, _, _, hc, _⟩ | ⟨t, rest, next, hrest, hlead, hnext, hok⟩)
    · cases hc
    · cases t with
      | rightParen | newline | keyword => cases hnext
      | number x =>
          cases hnext
          obtain ⟨gap, digits, tail, hgap, hx, hafter, rfl⟩ := TokenLead.number_iff.mp hlead
          obtain ⟨hremark, his⟩ := (onLine_lineEnd_iff hrest).mp hok
          have hend := isEnding_iff_afterNumber.mpr ⟨rest, hafter, hremark⟩
          exact ⟨gap, _, _, hgap, .direct hx hend, rfl, his⟩
      | leftParen =>
          obtain ⟨gap, hgap, rfl⟩ := (TokenLead.symbol_iff (c := '(') rfl).mp hlead
          obtain ⟨hform, rfl⟩ := next?_argument_leftParen.mp hnext
          obtain ⟨inner, digits, outer, remark, x, hinner, hx, houter, hremark, rfl, his⟩ :=
            (onLine_address_iff hrest).mp hok
          exact ⟨gap, _, _, hgap, .indirect hform hinner hx houter hremark, rfl, his⟩
      | equals =>
          obtain ⟨gap, hgap, rfl⟩ := (TokenLead.symbol_iff (c := '=') rfl).mp hlead
          obtain ⟨hform, rfl⟩ := next?_argument_equals.mp hnext
          obtain ⟨inner, digits, ending, x, hinner, hx, hend, rfl, his⟩ :=
            (onLine_constant_iff hrest).mp hok
          exact ⟨gap, _, _, hgap, .constant hform hinner hx hend, rfl, his⟩
  · intro hgiven
    obtain ⟨gap, text, o, hgap, harg, rfl, his⟩ := hgiven
    have htext : '\n' ∉ text := fun hmem => h (List.mem_append_right gap hmem)
    cases harg with
    | @direct digits ending x hx hend =>
        obtain ⟨rest, hafter, hremark⟩ := isEnding_iff_afterNumber.mp hend
        have hrest : '\n' ∉ rest := fun hmem =>
          htext (List.mem_append_right _ (hafter.suffix.mem hmem))
        refine .inr ⟨.number x, rest, _, hrest, .number hgap hx hafter, rfl, ?_⟩
        apply (onLine_lineEnd_iff hrest).mpr
        exact ⟨hremark, his⟩
    | indirect hform hinner hx houter hremark =>
        obtain ⟨_, hrest⟩ := not_or.mp (mt List.mem_cons.mpr htext)
        have hnext := next?_argument_leftParen.mpr ⟨hform, rfl⟩
        refine .inr ⟨.leftParen, _, .address m, hrest, .symbol hgap rfl _, hnext, ?_⟩
        apply (onLine_address_iff hrest).mpr
        exact ⟨_, _, _, _, _, hinner, hx, houter, hremark, rfl, his⟩
    | constant hform hinner hx hend =>
        obtain ⟨_, hrest⟩ := not_or.mp (mt List.mem_cons.mpr htext)
        have hnext := next?_argument_equals.mpr ⟨hform, rfl⟩
        refine .inr ⟨.equals, _, .constant m, hrest, .symbol hgap rfl _, hnext, ?_⟩
        apply (onLine_constant_iff hrest).mpr
        exact ⟨_, _, _, _, hinner, hx, hend, rfl, his⟩

theorem afterName_of_noArgument (h : m.argumentClass = .noArgument) :
    afterName m = .lineEnd m .absent := by
  rw [afterName, if_pos h]

theorem afterName_of_argument (h : m.argumentClass ≠ .noArgument) :
    afterName m = .argument m := by
  rw [afterName, if_neg h]

/-- What may stand on a line. -/
theorem onLine_name_iff (h : '\n' ∉ body) :
    Expectation.name.onLine n body = .ok is ↔
      ∃ m o, LineForm body m o ∧ is = [⟨m, o, n⟩] := by
  rw [onLine_eq_ok_iff h]
  constructor
  · rintro (⟨hremark, _, _, hc, his⟩ | ⟨t, rest, next, hrest, hlead, hnext, hok⟩)
    · cases hc
      exact ⟨_, _, .blank hremark, his⟩
    · cases t with
      | rightParen | newline | leftParen | equals | number => cases hnext
      | keyword m =>
          obtain rfl : afterName m = next := Option.some.inj hnext
          obtain ⟨gap, tail, hgap, hafter, rfl⟩ := TokenLead.keyword_iff.mp hlead
          by_cases hclass : m.argumentClass = .noArgument
          · rw [afterName_of_noArgument hclass] at hok
            obtain ⟨hremark, his⟩ := (onLine_lineEnd_iff hrest).mp hok
            have hend := isEnding_iff_afterName.mpr ⟨rest, hafter, hremark⟩
            exact ⟨m, .absent, .bare hclass hgap hend, his⟩
          · rw [afterName_of_argument hclass] at hok
            obtain ⟨space, text, o, hspace, harg, rfl, his⟩ := (onLine_argument_iff hrest).mp hok
            obtain ⟨c, hblank, hne, rfl⟩ := hafter.exists_blank
              (List.append_ne_nil_of_right_ne_nil space harg.ne_nil)
            have hcons := isGap_cons_iff.mpr ⟨⟨hblank, hne⟩, hspace⟩
            exact ⟨m, o, .argument hclass hgap hcons (List.cons_ne_nil c space) harg, his⟩
  · intro hgiven
    obtain ⟨m, o, hform, his⟩ := hgiven
    cases hform with
    | blank hremark => exact .inl ⟨hremark, _, _, rfl, his⟩
    | bare hclass hgap hend =>
        obtain ⟨rest, hafter, hremark⟩ := isEnding_iff_afterName.mp hend
        have hrest : '\n' ∉ rest := fun hmem =>
          h (List.mem_append_right _ (List.mem_append_right _ (hafter.suffix.mem hmem)))
        refine .inr ⟨.keyword m, rest, _, hrest, .keyword hgap m hafter, rfl, ?_⟩
        rw [afterName_of_noArgument hclass]
        apply (onLine_lineEnd_iff hrest).mpr
        exact ⟨hremark, his⟩
    | @argument gap space text m o hclass hgap hspace hne harg =>
        cases space with
        | nil => exact absurd rfl hne
        | cons c space =>
            obtain ⟨⟨hblank, hc⟩, hspace⟩ := isGap_cons_iff.mp hspace
            have hafter : AfterName (c :: (space ++ text)) (space ++ text) := .blank hblank hc _
            have hrest : '\n' ∉ space ++ text := fun hmem =>
              h (List.mem_append_right _ (List.mem_append_right _ (hafter.suffix.mem hmem)))
            refine .inr ⟨.keyword m, _, _, hrest, .keyword hgap m hafter, rfl, ?_⟩
            rw [afterName_of_argument hclass]
            apply (onLine_argument_iff hrest).mpr
            exact ⟨space, text, o, hspace, harg, rfl, his⟩

end Expectation

/-- A text is read as a program exactly if each of its lines is written in the form of an
instruction, and the program holds the instructions of its lines with the numbers of these. -/
theorem Program.ofSource_ofString_iff_lineForm (text : String) :
    ((∃ p, Program.ofSource (.ofString text) = .ok p) ↔
      ∀ line ∈ textLines text.toList, ∃ m o, LineForm line m o) ∧
    ∀ p, Program.ofSource (.ofString text) = .ok p ↔
      p.lineCount = (textLines text.toList).length ∧
        ∀ k line, (textLines text.toList)[k]? = some line →
          ∃ m o, LineForm line m o ∧ p.get? (k + 1) = some ⟨m, o, k + 1⟩ := by
  have hline (line : List Char) (hmem : line ∈ textLines text.toList) : '\n' ∉ line :=
    lineFeed_notMem_of_mem_textLines hmem
  have hprogram (p : Program) : Program.ofSource (.ofString text) = .ok p ↔
      p.lineCount = (textLines text.toList).length ∧
        ∀ k line, (textLines text.toList)[k]? = some line →
          ∃ m o, LineForm line m o ∧ p.get? (k + 1) = some ⟨m, o, k + 1⟩ := by
    rw [Program.ofSource_ofString_eq_ok_iff]
    refine and_congr_right fun _ => forall₃_congr fun k line hk => ?_
    have hform (i : Instruction) : Expectation.name.onLine (k + 1) line = .ok [i] ↔
        ∃ m o, LineForm line m o ∧ [i] = [⟨m, o, k + 1⟩] :=
      Expectation.onLine_name_iff (hline line (List.mem_of_getElem? hk))
    constructor
    · intro hgiven
      obtain ⟨i, hok, hget⟩ := hgiven
      obtain ⟨m, o, hlf, hi⟩ := (hform i).mp hok
      exact ⟨m, o, hlf, hget.trans (congrArg some (List.singleton_inj.mp hi))⟩
    · intro hgiven
      obtain ⟨m, o, hlf, hget⟩ := hgiven
      exact ⟨_, (hform _).mpr ⟨m, o, hlf, rfl⟩, hget⟩
  refine ⟨?_, hprogram⟩
  constructor
  · intro hgiven line hmem
    obtain ⟨p, hp⟩ := hgiven
    obtain ⟨k, hk⟩ := List.getElem?_of_mem hmem
    obtain ⟨m, o, hlf, _⟩ := ((hprogram p).mp hp).2 k line hk
    exact ⟨m, o, hlf⟩
  · intro hall
    apply Program.exists_ofSource_ofString
    intro line hmem k
    obtain ⟨m, o, hlf⟩ := hall line hmem
    refine ⟨[⟨m, o, k⟩], ?_⟩
    apply (Expectation.onLine_name_iff (hline line hmem)).mpr
    exact ⟨m, o, hlf, rfl⟩

end RandomAccessMachine
