import Mathlib
import RandomAccessMachine.Proofs.Assembly.FirstFaultyLine
import RandomAccessMachine.Proofs.Assembly.SpelledTokens
import RandomAccessMachine.Proofs.Assembly.WholeStatements

/-!
# Statements are refused at the earliest token

A token is refused if no program begins with it and the tokens in front of it,
although some program begins with these. Which tokens of its own line stand in
front of it decides what is wrong.

## Implementation notes

`Expectation.after?` judges tokens without their lines. What is open behind
them remembers the tokens of the line that has been begun
(`tokens_of_after?`), and `completion` ends this line, so the text of a
program that goes on with it can be spelled.
-/

namespace RandomAccessMachine

/-- The tokens of an operand as it is written. -/
def Operand.tokens : Operand → List Token
  | .absent => []
  | .direct x => [.number x]
  | .indirect x => [.leftParen, .number x, .rightParen]
  | .constant x => [.equals, .number x]

/-- The tokens are a mnemonic with an operand that can be written. -/
def IsStatement (ts : List Token) : Prop :=
  ∃ m o, Writable m o ∧ ts = .keyword m :: o.tokens

/-- Nothing in front of an element that ends the run at the end of a list matters. -/
theorem rtakeWhile_append_cons {α : Type*} {p : α → Bool} {a : α} (before after : List α)
    (ha : ¬ p a) : (before ++ a :: after).rtakeWhile p = after.rtakeWhile p := by
  induction after using List.reverseRecOn with
  | nil => exact List.rtakeWhile_concat_neg p before a ha
  | append_singleton after b ih =>
      rw [← List.cons_append, ← List.append_assoc]
      by_cases hb : p b
      · rw [List.rtakeWhile_concat_pos p _ b hb, List.rtakeWhile_concat_pos p _ b hb, ih]
      · rw [List.rtakeWhile_concat_neg p _ b hb, List.rtakeWhile_concat_neg p _ b hb]

namespace Expectation

variable {e e' next : Expectation} {t : Token} {ts : List Token} {m : Mnemonic} {o : Operand}

/-- What is open after these tokens, if none of them is refused. -/
def after? (e : Expectation) : List Token → Option Expectation
  | [] => some e
  | t :: rest =>
      match e.feed t with
      | .more next => next.after? rest
      | .complete _ _ => name.after? rest
      | .refused _ => none

/-- The tokens of the line that has been begun. -/
def tokens : Expectation → List Token
  | .name => []
  | .argument m => [.keyword m]
  | .address m => [.keyword m, .leftParen]
  | .closeParen m x => [.keyword m, .leftParen, .number x]
  | .constant m => [.keyword m, .equals]
  | .lineEnd m o => .keyword m :: o.tokens

/-- Tokens that end the line that has been begun. -/
def completion : Expectation → List Token
  | .name => []
  | .argument _ => [.number 0, .newline]
  | .address _ => [.number 0, .rightParen, .newline]
  | .closeParen _ _ => [.rightParen, .newline]
  | .constant _ => [.number 0, .newline]
  | .lineEnd _ _ => [.newline]

theorem after?_append (e : Expectation) (before after : List Token) :
    e.after? (before ++ after) = (e.after? before).bind (·.after? after) := by
  induction before generalizing e with
  | nil => rfl
  | cons t before ih =>
      cases hfeed : e.feed t with
      | more next => simpa [after?, hfeed] using ih next
      | complete m o => simpa [after?, hfeed] using ih name
      | refused fault => simp [after?, hfeed]

/-- No tokens that go on behind a refused one are accepted. -/
theorem after?_append_of_refused {fault : StatementFault} {before : List Token}
    (h : e.after? before = some e') (hfeed : e'.feed t = .refused fault) (after : List Token) :
    e.after? (before ++ t :: after) = none := by
  simp [after?_append, h, after?, hfeed]

/-- The first of accepted tokens goes on with what is open, or it ends the line. -/
theorem after?_cons_cases (h : e.after? (t :: ts) = some e') :
    (∃ next, e.feed t = .more next ∧ next.after? ts = some e') ∨
      ∃ m o, e.feed t = .complete m o ∧ name.after? ts = some e' := by
  rw [after?] at h
  cases hfeed : e.feed t with
  | more next =>
      rw [hfeed] at h
      exact .inl ⟨next, rfl, h⟩
  | complete m o =>
      rw [hfeed] at h
      exact .inr ⟨m, o, rfl, h⟩
  | refused fault =>
      rw [hfeed] at h
      cases h

theorem after?_completion (e : Expectation) : e.after? e.completion = some name := by
  cases e <;> rfl

theorem isUnsigned_of_mem_completion : ∀ t ∈ e.completion, t.IsUnsigned := by
  have hzero : (Token.number 0).IsUnsigned := by
    intro x hx
    rw [← Token.number.inj hx]
    decide
  have hother {t : Token} (h : ∀ x, t ≠ .number x) : t.IsUnsigned := fun x hx => absurd hx (h x)
  cases e <;> simp [completion, hzero, hother]

/-- A token that fits is added to the line that has been begun. -/
theorem tokens_of_next? (h : e.next? t = some next) : next.tokens = e.tokens ++ [t] := by
  cases e with
  | name =>
      cases t <;> simp only [next?, Option.some.injEq, reduceCtorEq] at h
      rw [← h, afterName]
      split <;> rfl
  | argument m =>
      cases t <;> simp only [next?, Option.ite_none_right_eq_some, Option.some.injEq,
        reduceCtorEq] at h
      · rw [← h.2]
        rfl
      · rw [← h.2]
        rfl
      · rw [← h]
        rfl
  | address m | closeParen m x | constant m =>
      cases t <;> simp only [next?, Option.some.injEq, reduceCtorEq] at h
      rw [← h]
      rfl
  | lineEnd m o => cases t <;> cases h

theorem newline_notMem_tokens (e : Expectation) : .newline ∉ e.tokens := by
  cases e with
  | lineEnd m o => cases o <;> simp [tokens, Operand.tokens]
  | name | argument | address | closeParen | constant => simp [tokens]

/-- What is open behind tokens has the tokens behind the last end of a line. -/
theorem tokens_of_after? (h : e.after? ts = some e') :
    e'.tokens = (e.tokens ++ ts).rtakeWhile (· ≠ .newline) := by
  induction ts generalizing e with
  | nil =>
      obtain rfl := Option.some.inj h
      rw [List.append_nil, eq_comm, List.rtakeWhile_eq_self_iff]
      intro t ht
      have hne : t ≠ .newline := fun heq => e.newline_notMem_tokens (heq ▸ ht)
      simpa using hne
  | cons t ts ih =>
      obtain ⟨next, hfeed, hrest⟩ | ⟨m, o, hfeed, hrest⟩ := after?_cons_cases h
      · rw [ih hrest, tokens_of_next? (feed_eq_more_iff.mp hfeed).2, List.append_assoc]
        rfl
      · obtain rfl := (feed_eq_complete_iff.mp hfeed).1
        rw [ih hrest, rtakeWhile_append_cons _ _ (by simp)]
        rfl

/-- What is open behind tokens without a sign is completed by operands that can be written only. -/
theorem IsSound.after? (hsound : e.IsSound) (hunsigned : ∀ t ∈ ts, t.IsUnsigned)
    (h : e.after? ts = some e') : e'.IsSound := by
  induction ts generalizing e with
  | nil => exact Option.some.inj h ▸ hsound
  | cons t ts ih =>
      obtain ⟨ht, hts⟩ := List.forall_mem_cons.mp hunsigned
      obtain ⟨next, hfeed, hrest⟩ | ⟨m, o, _, hrest⟩ := after?_cons_cases h
      · exact ih (hsound.next? ht (feed_eq_more_iff.mp hfeed).2) hts hrest
      · exact ih isSound_name hts hrest

/-- Findings that spell instructions are tokens of which none is refused. -/
theorem exists_after?_of_instructions {fs : List Finding} {is : List Instruction}
    (h : e.instructions fs = .ok is) :
    ∃ ts e', fs.map Finding.lexeme = ts.map .token ∧ e.after? ts = some e' := by
  induction fs generalizing e is with
  | nil => exact ⟨[], e, rfl, rfl⟩
  | cons f fs ih =>
      obtain ⟨line, t | fault⟩ := f
      · rw [instructions] at h
        cases hfeed : e.feed t with
        | more next =>
            rw [hfeed] at h
            obtain ⟨ts, e', hts, hafter⟩ := ih h
            exact ⟨t :: ts, e', by simp [hts], by rw [after?, hfeed]; exact hafter⟩
        | complete m o =>
            rw [hfeed] at h
            obtain ⟨rest, hrest, _⟩ := Except.map_eq_ok_iff.mp h
            obtain ⟨ts, e', hts, hafter⟩ := ih hrest
            exact ⟨t :: ts, e', by simp [hts], by rw [after?, hfeed]; exact hafter⟩
        | refused fault =>
            rw [hfeed] at h
            cases h
      · cases h

/-- Tokens that leave nothing open spell instructions, on any lines. -/
theorem exists_instructions_of_after? {fs : List Finding}
    (hts : fs.map Finding.lexeme = ts.map .token) (h : e.after? ts = some name) :
    ∃ is, e.instructions fs = .ok is := by
  induction ts generalizing e fs with
  | nil =>
      obtain rfl := List.map_eq_nil_iff.mp hts
      obtain rfl := Option.some.inj h
      exact ⟨[], rfl⟩
  | cons t ts ih =>
      obtain ⟨⟨line, l⟩, fs, rfl, rfl, htail⟩ := List.map_eq_cons_iff.mp hts
      obtain ⟨next, hfeed, hrest⟩ | ⟨m, o, hfeed, hrest⟩ := after?_cons_cases h
      · simp only [instructions, hfeed]
        exact ih htail hrest
      · obtain ⟨is, his⟩ := ih htail hrest
        simp only [instructions, hfeed, his]
        exact ⟨_, rfl⟩

/-- A cursor finds tokens that are accepted and behind them one that is refused, and no call is
made behind it. -/
structure RefusedAt (e : Expectation) (c : Cursor) (before : List Finding) (line : Nat) (t : Token)
    (fault : StatementFault) (last : Cursor) : Prop where
  findings : ∃ rest, c.findings = before ++ ⟨line, .token t⟩ :: rest
  refused : ∃ ts e', before.map Finding.lexeme = ts.map .token ∧ e.after? ts = some e' ∧
    e'.feed t = .refused fault
  last_eq : last = c.after (before.length + 1)

variable {c c' last : Cursor} {before : List Finding} {n line : Nat} {fault : StatementFault}

/-- Another token in front is accepted, too. -/
theorem RefusedAt.cons {t' : Token} (h : RefusedAt next c' before line t fault last)
    (hnext : c.next = (some ⟨n, .token t'⟩, c'))
    (hfeed : ∀ ts, e.after? (t' :: ts) = next.after? ts) :
    RefusedAt e c (⟨n, .token t'⟩ :: before) line t fault last := by
  obtain ⟨⟨rest, hrest⟩, ⟨ts, e', hts, hafter, hrefused⟩, rfl⟩ := h
  refine ⟨⟨rest, ?_⟩, ⟨t' :: ts, e', ?_, (hfeed ts).trans hafter, hrefused⟩, ?_⟩
  · rw [Cursor.findings_of_some hnext, hrest, List.cons_append]
  · rw [List.map_cons, hts, List.map_cons]
  · rw [List.length_cons, Cursor.after_of_next hnext]

/-- Where a statement is refused, there is such a token. -/
theorem exists_refusedAt_of_pull (h : (e.pull c).1 = .error (.statement line fault)) :
    ∃ before t, RefusedAt e c before line t fault (e.pull c).2 := by
  fun_induction pull e c with
  | case1 | case2 | case3 => cases h
  | case4 e c n t c' hnext next hfeed ih =>
      obtain ⟨before, t', hrefused⟩ := ih h
      exact ⟨_, t', hrefused.cons hnext fun ts => by rw [after?, hfeed]⟩
  | case5 e c n t c' hnext m o hfeed result last hname ih =>
      rw [hname] at ih
      obtain ⟨before, t', hrefused⟩ := ih (Except.map_eq_error_iff.mp h)
      exact ⟨_, t', hrefused.cons hnext fun ts => by rw [after?, hfeed]⟩
  | case6 e c n t c' hnext fault' hfeed =>
      cases h
      refine ⟨[], t, ⟨c'.findings, Cursor.findings_of_some hnext⟩, ⟨[], e, rfl, rfl, hfeed⟩, ?_⟩
      rw [List.length_nil, Cursor.after_of_next hnext]
      rfl

theorem fault_of_feed (h : e.feed t = .refused fault) : fault = e.fault t := by
  unfold feed at h
  split at h
  · split at h
    · cases h
    · exact (Progress.refused.inj h).symm
  · split at h
    · cases h
    · exact (Progress.refused.inj h).symm

end Expectation

/-- What is wrong with a token is said by the tokens in front of it on its line. -/
structure Blames (front : List Token) (fault : StatementFault) : Prop where
  missingName : (∃ found, fault = .missingName found) ↔ front = []
  extraToken : (∃ found, fault = .extraToken found) ↔ IsStatement front
  missingAddress : (∃ found, fault = .missingAddress found) ↔ [.leftParen] <:+ front
  missingCloseParen : (∃ m, fault = .missingCloseParen m) ↔
    ∃ x, [.leftParen, .number x] <:+ front
  missingConstant : (∃ m, fault = .missingConstant m) ↔ [.equals] <:+ front
  missingArgument : (∃ m, fault = .missingArgument m) ↔
    ∃ m, m.argumentClass ≠ .noArgument ∧ [.keyword m] <:+ front

namespace Expectation

variable {e : Expectation}

/-- The tokens of a begun line are a statement exactly if nothing but its end is open. -/
theorem IsSound.isStatement_iff (h : e.IsSound) :
    IsStatement e.tokens ↔ ∃ m o, e = .lineEnd m o := by
  constructor
  · intro hgiven
    obtain ⟨m', o', hwritable, heq⟩ := hgiven
    cases e with
    | lineEnd m o => exact ⟨m, o, rfl⟩
    | argument m =>
        cases o' <;> simp [tokens, Operand.tokens] at heq
        subst heq
        exact absurd (writable_absent_iff.mp hwritable) h
    | name | address | closeParen | constant =>
        cases o' <;> simp [tokens, Operand.tokens] at heq
  · rintro ⟨m, o, rfl⟩
    exact ⟨m, o, h, rfl⟩

/-- A mnemonic is the last token of a begun line that needs an argument only where this is open. -/
theorem IsSound.keyword_suffix_iff (h : e.IsSound) :
    (∃ m, m.argumentClass ≠ .noArgument ∧ [.keyword m] <:+ e.tokens) ↔ ∃ m, e = .argument m := by
  constructor
  · intro hgiven
    obtain ⟨m', hclass, hsuffix⟩ := hgiven
    cases e with
    | argument m => exact ⟨m, rfl⟩
    | lineEnd m o =>
        cases o <;> simp [tokens, Operand.tokens, List.suffix_cons_iff] at hsuffix
        subst hsuffix
        exact absurd (writable_absent_iff.mp h) hclass
    | name | address | closeParen | constant => simp [tokens, List.suffix_cons_iff] at hsuffix
  · rintro ⟨m, rfl⟩
    exact ⟨m, h, List.suffix_rfl⟩

theorem IsSound.blames (h : e.IsSound) (t : Token) : Blames e.tokens (e.fault t) := by
  constructor
  case extraToken =>
    rw [h.isStatement_iff]
    cases e <;> simp [fault]
  case missingArgument =>
    rw [h.keyword_suffix_iff]
    cases e <;> simp [fault]
  case missingName => cases e <;> simp [fault, tokens]
  all_goals
    cases e with
    | lineEnd m o => cases o <;> simp [fault, tokens, Operand.tokens, List.suffix_cons_iff]
    | name | argument | address | closeParen | constant =>
        simp [fault, tokens, List.suffix_cons_iff]

end Expectation

namespace Program

/-- The tokens of a program are accepted, and nothing is open behind them. -/
theorem exists_after?_of_ofSource {s : Source} {p : Program} (h : ofSource s = .ok p) :
    ∃ ts e, (Cursor.ofSource s).findings.map Finding.lexeme = ts.map .token ∧
      Expectation.name.after? ts = some e :=
  Expectation.exists_after?_of_instructions (ofCursor_eq_ok_iff.mp h)

/-- Tokens that are accepted begin the text of a program. -/
theorem exists_text_of_after? {ts : List Token} {e : Expectation}
    (hunsigned : ∀ t ∈ ts, t.IsUnsigned) (h : Expectation.name.after? ts = some e) :
    ∃ text p, ofSource (.ofText text) = .ok p ∧
      Lexeme.numbered 1 (ts.map .token) <+: (Cursor.ofSource (.ofText text)).findings := by
  have hwhole : Expectation.name.after? (ts ++ e.completion) = some .name := by
    rw [Expectation.after?_append, h]
    exact e.after?_completion
  have hend : ∀ hne : ts ++ e.completion ≠ [], (ts ++ e.completion).getLast hne = .newline := by
    -- nothing of a line is open behind the whole text
    have hopen := Expectation.tokens_of_after? hwhole
    rw [eq_comm, Expectation.tokens, List.rtakeWhile_eq_nil_iff] at hopen
    simpa [Expectation.tokens] using hopen
  have hall : ∀ t ∈ ts ++ e.completion, t.IsUnsigned :=
    List.forall_mem_append.mpr ⟨hunsigned, Expectation.isUnsigned_of_mem_completion⟩
  have hfindings := Cursor.findings_spelled hall hend 0
  have hlexemes := congrArg (List.map Finding.lexeme) hfindings
  rw [Lexeme.map_lexeme_numbered] at hlexemes
  obtain ⟨is, his⟩ := Expectation.exists_instructions_of_after? hlexemes hwhole
  refine ⟨spelled (ts ++ e.completion), ofList is, ?_, ?_⟩
  · exact congrArg (Except.map ofList) his
  · rw [Cursor.ofSource, hfindings, List.map_append, Lexeme.numbered_append]
    exact List.prefix_append _ _

/-- A source is rejected for the first token that no program has behind the tokens in front of it,
and what is wrong is said by the tokens in front of it on its line. -/
structure RejectedEarliest (s : Source) (before : List Finding) (line : Nat) (t : Token)
    (fault : StatementFault) : Prop where
  /-- The token is found on this line behind the tokens in front of it. -/
  found : ∃ rest, (Cursor.ofSource s).findings = before ++ ⟨line, .token t⟩ :: rest
  /-- No call is made behind it. -/
  last_eq : (pull (.ofSource s)).2 = (Cursor.ofSource s).after (before.length + 1)
  /-- Some program begins with the tokens in front of it. -/
  begins : ∃ text p, ofSource (.ofText text) = .ok p ∧
    before <+: (Cursor.ofSource (.ofText text)).findings
  /-- No program goes on with it, wherever the lines of that program begin. -/
  stops : ∀ other p, ofSource other = .ok p →
    ¬ before.map Finding.lexeme ++ [.token t] <+:
      (Cursor.ofSource other).findings.map Finding.lexeme
  blames : Blames (tokensOn line before) fault

/-- A source that is rejected, and not for a lexeme, is rejected at the earliest token, and the
error names the line of this token. -/
theorem refuses_earliest_token {s : Source} {error : AssemblyError} (h : ofSource s = .error error)
    (hlexical : ∀ line fault, error ≠ .lexical line fault) :
    ∃ before line t fault, error = .statement line fault ∧
      RejectedEarliest s before line t fault := by
  obtain ⟨line, f, rfl⟩ := exists_onLine_of_ofSource h
  cases f with
  | lexical fault => exact absurd rfl (hlexical line fault)
  | statement fault =>
      rw [ofSource, ofCursor, Except.map_eq_error_iff, ← Expectation.pull_eq_instructions] at h
      obtain ⟨before, t, ⟨rest, hfindings⟩, ⟨ts, e, hts, hafter, hrefused⟩, hlast⟩ :=
        Expectation.exists_refusedAt_of_pull h
      obtain ⟨hbefore, hline⟩ :=
        Cursor.line_of_findings (Cursor.holdsLine_ofSource s) rfl hfindings
      have hscan : (Cursor.ofSource s).lineToScan = 1 := rfl
      have hcount : line = 1 + ts.count .newline := by
        rw [← Lexeme.count_map_token, ← hts]
        exact hline
      rw [hts, hscan] at hbefore
      have hunsigned : ∀ u ∈ ts, u.IsUnsigned := by
        intro u hu
        have hmem : Lexeme.token u ∈ before.map Finding.lexeme := hts ▸ List.mem_map_of_mem hu
        obtain ⟨f, hf, hlexeme⟩ := List.mem_map.mp hmem
        exact Cursor.isUnsigned_of_mem_findings f (hfindings ▸ List.mem_append_left _ hf) u hlexeme
      refine ⟨before, line, t, fault, rfl, ⟨rest, hfindings⟩, ?_, ?_, ?_, ?_⟩
      · rw [pull, hlast]
      · rw [hbefore]
        exact exists_text_of_after? hunsigned hafter
      · intro other p hok hprefix
        obtain ⟨us, e', hus, haccepted⟩ := exists_after?_of_ofSource hok
        have hinjective : Function.Injective Lexeme.token := fun _ _ => Lexeme.token.inj
        have hmap : ts.map Lexeme.token ++ [.token t] = (ts ++ [t]).map .token := by simp
        rw [hts, hus, hmap, List.prefix_map_iff_of_injective hinjective] at hprefix
        obtain ⟨after, rfl⟩ := hprefix
        rw [List.append_assoc, List.singleton_append,
          Expectation.after?_append_of_refused hafter hrefused] at haccepted
        cases haccepted
      · have hopen := Expectation.tokens_of_after? hafter
        rw [Expectation.tokens, List.nil_append] at hopen
        rw [hbefore, hcount, tokensOn_numbered, ← hopen, Expectation.fault_of_feed hrefused]
        exact (Expectation.isSound_name.after? hunsigned hafter).blames t

/-- A jump takes no pointer, so it is rejected at the parenthesis behind a line that is accepted. -/
theorem refuses_earliest_token_of_pointer :
    let s := Source.ofText ['\n', 'J', 'U', 'M', 'P', ' ', '(']
    let fault := StatementFault.missingArgument .jump
    ofSource s = .error (.statement 2 fault) ∧ ∃ before t, RejectedEarliest s before 2 t fault := by
  intro s fault
  have hs : ofSource s = .error (.statement 2 fault) := by cbv
  have hlexical : ∀ line lexical, AssemblyError.statement 2 fault ≠ .lexical line lexical := by simp
  obtain ⟨before, line, t, fault', herror, hrejected⟩ := refuses_earliest_token hs hlexical
  cases herror
  exact ⟨hs, before, t, hrejected⟩

end Program

end RandomAccessMachine
