import RandomAccessMachine.Assembly.Listing
import RandomAccessMachine.Proofs.Assembly.LineLexemes
import RandomAccessMachine.Proofs.Results

/-!
# One statement on each line

What the lexemes of a line mean depends on this line only: they complete one
instruction, or reading stops at the first of them that does not fit. So a
program is read line by line, and `instructions_lineFindings_eq_ok_iff` says
that its instructions are those of the single lines.
-/

namespace RandomAccessMachine

namespace Expectation

variable {e : Expectation} {n : Nat} {body : List Char} {is : List Instruction}

/-- The instructions that a line spells on its own. -/
def onLine (e : Expectation) (n : Nat) (body : List Char) :
    Except AssemblyError (List Instruction) :=
  e.instructions ((Lexeme.ofLine (body ++ ['\n'])).map (Finding.mk n))

/-- What comes after a line is read only if the line is accepted, and then on its own. -/
theorem instructions_append {lexemes : List Lexeme} (h : Lexeme.IsLine lexemes)
    (e : Expectation) (n : Nat) (rest : List Finding) :
    e.instructions (lexemes.map (Finding.mk n) ++ rest) =
      (e.instructions (lexemes.map (Finding.mk n))).bind fun is =>
        (Expectation.name.instructions rest).map (is ++ ·) := by
  -- only the last lexeme can complete the statement, so nothing behind the line is used before it
  induction h generalizing e with
  | lineEnd =>
      simp only [List.map_cons, List.map_nil, List.cons_append, List.nil_append, instructions]
      cases hc : e.completed? with
      | none => simp [feed, hc, Except.bind]
      | some mo =>
          simp only [feed, hc, if_true]
          cases Expectation.name.instructions rest <;> rfl
  | @cons l tail hne _ ih =>
      cases l with
      | fault fault => rfl
      | token t =>
          have ht : t ≠ .newline := fun heq => hne (heq ▸ rfl)
          simp only [List.map_cons, List.cons_append, instructions]
          cases hnext : e.next? t with
          | none => simp [feed, ht, hnext, Except.bind]
          | some next => simp [feed, ht, hnext, ih next]

theorem onLine_eq (e : Expectation) (n : Nat) (body : List Char) :
    e.onLine n body =
      e.instructions (⟨n, (Lexeme.first (body ++ ['\n'])).1⟩ ::
        (Lexeme.ofLine (Lexeme.first (body ++ ['\n'])).2).map (Finding.mk n)) := by
  rw [onLine, Lexeme.ofLine_of_ne_nil (by simp), List.map_cons]

/-- A line that means nothing ends the statement. -/
theorem onLine_of_isRemark (h : '\n' ∉ body) (hremark : IsRemark body) :
    e.onLine n body =
      match e.completed? with
      | some (m, o) => .ok [⟨m, o, n⟩]
      | none => .error (.statement n (e.fault .newline)) := by
  rw [onLine_eq, (Lexeme.first_eq_newline_iff h).mpr hremark]
  cases hc : e.completed? <;> simp [instructions, feed, hc, mnemonic?, Except.map]

/-- A line that begins with a token goes on behind it if the token fits. -/
theorem onLine_of_tokenLead {t : Token} {rest : List Char} (ht : t ≠ .newline)
    (hlead : TokenLead body t rest) :
    e.onLine n body =
      match e.next? t with
      | some next => next.onLine n rest
      | none => .error (.statement n (e.fault t)) := by
  rw [onLine_eq, Lexeme.first_of_tokenLead hlead]
  cases hnext : e.next? t <;> simp [instructions, feed, ht, hnext, onLine]

/-- A line that begins with a fault is rejected for it. -/
theorem onLine_of_fault {fault : LexicalFault}
    (hfirst : (Lexeme.first (body ++ ['\n'])).1 = .fault fault) :
    e.onLine n body = .error (.lexical n fault) := by
  rw [onLine_eq, hfirst]
  rfl

theorem next?_newline (e : Expectation) : e.next? .newline = none := by
  cases e <;> rfl

/-- How a line can begin: it means nothing, or it begins with a token or with a fault. -/
theorem line_cases (h : '\n' ∉ body) :
    IsRemark body ∨ (∃ t rest, t ≠ .newline ∧ '\n' ∉ rest ∧ TokenLead body t rest) ∨
      ∃ fault, (Lexeme.first (body ++ ['\n'])).1 = .fault fault := by
  obtain hend | ⟨rest, hsuffix, hne, hrest⟩ := Lexeme.first_terminated h
  · exact .inl ((Lexeme.first_eq_newline_iff h).mp hend)
  · rcases hl : (Lexeme.first (body ++ ['\n'])).1 with t | fault
    · have ht : t ≠ .newline := by
        rintro rfl
        exact hne hl
      refine .inr (.inl ⟨t, rest, ht, fun hmem => h (hsuffix.mem hmem), ?_⟩)
      exact (Lexeme.first_eq_token_iff h ht).mp (Prod.ext hl hrest)
    · exact .inr (.inr ⟨fault, rfl⟩)

/-- A line is accepted if it means nothing and the statement is complete, or if its first token
fits and the rest of the line is accepted after this token. -/
theorem onLine_eq_ok_iff (h : '\n' ∉ body) :
    e.onLine n body = .ok is ↔
      (IsRemark body ∧ ∃ m o, e.completed? = some (m, o) ∧ is = [⟨m, o, n⟩]) ∨
      ∃ t rest next, '\n' ∉ rest ∧ TokenLead body t rest ∧ e.next? t = some next ∧
        next.onLine n rest = .ok is := by
  constructor
  · intro hok
    obtain hremark | ⟨t, rest, ht, hrest, hlead⟩ | ⟨fault, hfault⟩ := line_cases h
    · rw [onLine_of_isRemark h hremark] at hok
      split at hok
      · rename_i m o hc
        exact .inl ⟨hremark, m, o, hc, (Except.ok.inj hok).symm⟩
      · cases hok
    · rw [onLine_of_tokenLead ht hlead] at hok
      split at hok
      · rename_i next hnext
        exact .inr ⟨t, rest, next, hrest, hlead, hnext, hok⟩
      · cases hok
    · rw [onLine_of_fault hfault] at hok
      cases hok
  · rintro (⟨hremark, m, o, hc, rfl⟩ | ⟨t, rest, next, _, hlead, hnext, hok⟩)
    · rw [onLine_of_isRemark h hremark, hc]
    · have ht : t ≠ .newline := by
        rintro rfl
        simp [next?_newline] at hnext
      rw [onLine_of_tokenLead ht hlead, hnext, ← hok]

/-- A line that is accepted spells exactly one instruction, which carries its number. -/
theorem exists_of_onLine_eq_ok (h : '\n' ∉ body) (hok : e.onLine n body = .ok is) :
    ∃ m o, is = [⟨m, o, n⟩] := by
  induction hl : body.length using Nat.strongRecOn generalizing e body with
  | ind k ih =>
      obtain ⟨_, m, o, _, his⟩ | ⟨t, rest, next, hrest, hlead, _, hnext⟩ :=
        (onLine_eq_ok_iff h).mp hok
      · exact ⟨m, o, his⟩
      · have hlt := Lexeme.length_lt_of_first (congrArg Prod.snd (Lexeme.first_of_tokenLead hlead))
        exact ih rest.length (hl ▸ hlt) hrest hnext rfl

theorem instructions_lineFindings_cons {line : List Char} (h : '\n' ∉ line)
    (lines : List (List Char)) :
    Expectation.name.instructions (Cursor.lineFindings n (line :: lines)) =
      (Expectation.name.onLine (n + 1) line).bind fun is =>
        (Expectation.name.instructions (Cursor.lineFindings (n + 1) lines)).map (is ++ ·) := by
  rw [Cursor.lineFindings, instructions_append (Lexeme.isLine_ofLine h)]
  rfl

/-- Lines that are accepted on their own are accepted together. -/
theorem exists_instructions_lineFindings {lines : List (List Char)}
    (h : ∀ line ∈ lines, '\n' ∉ line)
    (hall : ∀ line ∈ lines, ∀ k, ∃ is, Expectation.name.onLine k line = .ok is) (n : Nat) :
    ∃ is, Expectation.name.instructions (Cursor.lineFindings n lines) = .ok is := by
  induction lines generalizing n with
  | nil => exact ⟨[], rfl⟩
  | cons line lines ih =>
      obtain ⟨hline, hlines⟩ := List.forall_mem_cons.mp h
      obtain ⟨hfirst, hrest⟩ := List.forall_mem_cons.mp hall
      obtain ⟨first, hfirst⟩ := hfirst (n + 1)
      obtain ⟨rest, hrest⟩ := ih hlines hrest (n + 1)
      exact ⟨first ++ rest, by rw [instructions_lineFindings_cons hline, hfirst, hrest]; rfl⟩

/-- Lines are accepted together exactly if each of them is accepted on its own. -/
theorem instructions_lineFindings_eq_ok_iff {lines : List (List Char)}
    (h : ∀ line ∈ lines, '\n' ∉ line) :
    Expectation.name.instructions (Cursor.lineFindings n lines) = .ok is ↔
      is.length = lines.length ∧ ∀ k line, lines[k]? = some line →
        ∃ i, Expectation.name.onLine (n + k + 1) line = .ok [i] ∧ is[k]? = some i := by
  induction lines generalizing n is with
  | nil => simp [Cursor.lineFindings, instructions, mnemonic?, eq_comm]
  | cons line lines ih =>
      obtain ⟨hline, hlines⟩ := List.forall_mem_cons.mp h
      rw [instructions_lineFindings_cons hline]
      constructor
      · intro hok
        obtain ⟨first, hfirst, hokrest⟩ := Except.bind_eq_ok_iff.mp hok
        obtain ⟨rest, hrest, rfl⟩ := Except.map_eq_ok_iff.mp hokrest
        obtain ⟨m, o, rfl⟩ := exists_of_onLine_eq_ok hline hfirst
        obtain ⟨hlen, hall⟩ := (ih hlines).mp hrest
        refine ⟨by simp [hlen], ?_⟩
        intro k l hk
        cases k with
        | zero =>
            obtain rfl : line = l := by simpa using hk
            exact ⟨_, hfirst, rfl⟩
        | succ k =>
            have hnumber : n + (k + 1) + 1 = n + 1 + k + 1 := by omega
            rw [hnumber]
            exact hall k l hk
      · intro hgiven
        obtain ⟨hlen, hall⟩ := hgiven
        obtain ⟨i, hfirst, hi⟩ := hall 0 line rfl
        cases is with
        | nil => simp at hi
        | cons j rest =>
            obtain rfl : j = i := by simpa using hi
            have hrest : Expectation.name.instructions (Cursor.lineFindings (n + 1) lines) =
                .ok rest := by
              refine (ih hlines).mpr ⟨by simpa using hlen, ?_⟩
              intro k l hk
              have hnumber : n + 1 + k + 1 = n + (k + 1) + 1 := by omega
              rw [hnumber]
              exact hall (k + 1) l hk
            have hfirst' : Expectation.name.onLine (n + 1) line = .ok [j] := hfirst
            rw [hfirst', hrest]
            rfl

end Expectation

/-- The findings in a text are those of its lines. -/
theorem Program.ofSource_ofString (text : String) :
    Program.ofSource (.ofString text) =
      (Expectation.name.instructions (Cursor.lineFindings 0 (textLines text.toList))).map
        Program.ofList := by
  have hfindings : (Cursor.ofSource (.ofString text)).findings =
      Cursor.lineFindings 0 (textLines text.toList) := by
    rw [Source.ofString_eq_ofText]
    apply Cursor.findings_ofText
  rw [Program.ofSource, Program.ofCursor, hfindings]

/-- A text whose lines are accepted on their own is read as a program. -/
theorem Program.exists_ofSource_ofString {text : String}
    (h : ∀ line ∈ textLines text.toList, ∀ k, ∃ is, Expectation.name.onLine k line = .ok is) :
    ∃ p, Program.ofSource (.ofString text) = .ok p := by
  obtain ⟨is, his⟩ := Expectation.exists_instructions_lineFindings
    (fun line hline => lineFeed_notMem_of_mem_textLines hline) h 0
  exact ⟨.ofList is, by rw [Program.ofSource_ofString, his]; rfl⟩

/-- A text is read as a program exactly if each of its lines spells an instruction on its own. -/
theorem Program.ofSource_ofString_eq_ok_iff {text : String} {p : Program} :
    Program.ofSource (.ofString text) = .ok p ↔
      p.lineCount = (textLines text.toList).length ∧
        ∀ k line, (textLines text.toList)[k]? = some line →
          ∃ i, Expectation.name.onLine (k + 1) line = .ok [i] ∧ p.get? (k + 1) = some i := by
  rw [Program.ofSource_ofString, Program.map_ofList_eq_ok_iff,
    Expectation.instructions_lineFindings_eq_ok_iff
    fun line hline => lineFeed_notMem_of_mem_textLines hline]
  simp only [Nat.zero_add, Array.length_toList, Array.getElem?_toList, Program.lineCount,
    Program.get?_succ]

end RandomAccessMachine
