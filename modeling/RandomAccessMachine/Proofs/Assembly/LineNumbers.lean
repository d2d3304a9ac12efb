import Mathlib
import RandomAccessMachine.Proofs.Assembly.LineAlignment

/-!
# The line numbers of findings

A cursor numbers its findings by the ends of lines: what follows the end of
a line is on the next line, and everything else is on the line of the finding
in front of it. So the findings are known from their lexemes.

## Implementation notes

Reading gives an instruction the line of the token that completes it, and
`instructionsByFirst` gives it the line of its first token. Only the end of a
line completes a statement, and no other token of the statement is one, so all
of them are on the same line (`Cursor.instructionsByFirst_findings`).
-/

namespace RandomAccessMachine

namespace Lexeme

/-- Lexemes with the numbers of their lines, the first one on this line. -/
def numbered : Nat → List Lexeme → List Finding
  | _, [] => []
  | n, l :: rest => ⟨n, l⟩ :: numbered (if l = .token .newline then n + 1 else n) rest

variable {n : Nat}

@[simp] theorem map_lexeme_numbered (n : Nat) (lexemes : List Lexeme) :
    (numbered n lexemes).map Finding.lexeme = lexemes := by
  induction lexemes generalizing n with
  | nil => rfl
  | cons l rest ih => simp [numbered, ih]

/-- Behind lexemes the numbers go on after the ends of lines among them. -/
theorem numbered_append (n : Nat) (before after : List Lexeme) :
    numbered n (before ++ after) =
      numbered n before ++ numbered (n + before.count (.token .newline)) after := by
  induction before generalizing n with
  | nil => simp [numbered]
  | cons l before ih =>
      rw [List.cons_append, numbered, numbered, ih, List.cons_append, List.count_cons]
      by_cases hl : l = .token .newline
      · simp [hl, Nat.add_assoc, Nat.add_comm 1]
      · simp [hl]

/-- A token among tokens is on the line after the ends of lines in front of it. -/
theorem numbered_map_token (n : Nat) (ts : List Token) :
    numbered n (ts.map .token) =
      ts.mapIdx fun k t => ⟨n + (ts.take k).count .newline, .token t⟩ := by
  induction ts generalizing n with
  | nil => rfl
  | cons t rest ih =>
      rw [List.map_cons, numbered, ih, List.mapIdx_cons]
      congr 1
      apply List.mapIdx_eq_mapIdx_iff.mpr
      intro k _
      rw [List.take_succ_cons, List.count_cons]
      by_cases ht : t = .newline
      · simp [ht, Nat.add_assoc, Nat.add_comm 1]
      · simp [ht]

/-- No number is greater than the one after all ends of lines. -/
theorem line_le_of_mem_numbered {lexemes : List Lexeme} {f : Finding}
    (h : f ∈ numbered n lexemes) : f.line ≤ n + lexemes.count (.token .newline) := by
  induction lexemes generalizing n with
  | nil => simp [numbered] at h
  | cons l rest ih =>
      obtain rfl | hrest := List.mem_cons.mp h
      · exact Nat.le_add_right _ _
      · have hle := ih hrest
        rw [List.count_cons]
        by_cases hl : l = .token .newline
        · simp [hl] at hle ⊢
          omega
        · simp [hl] at hle ⊢
          omega

/-- No number is less than the first one. -/
theorem le_line_of_mem_numbered {lexemes : List Lexeme} {f : Finding}
    (h : f ∈ numbered n lexemes) : n ≤ f.line := by
  induction lexemes generalizing n with
  | nil => simp [numbered] at h
  | cons l rest ih =>
      obtain rfl | hrest := List.mem_cons.mp h
      · exact Nat.le_refl n
      · have hle := ih hrest
        split at hle <;> omega

/-- The numbers of lexemes never decrease. -/
theorem pairwise_numbered (n : Nat) (lexemes : List Lexeme) :
    (numbered n lexemes).Pairwise fun f g => f.line ≤ g.line := by
  induction lexemes generalizing n with
  | nil => exact .nil
  | cons l rest ih =>
      refine .cons ?_ (ih _)
      intro f hf
      have hle := le_line_of_mem_numbered hf
      dsimp only
      split at hle <;> omega

/-- The lexemes of one line all have its number. -/
theorem IsLine.map_mk {lexemes : List Lexeme} (h : IsLine lexemes) (n : Nat) :
    lexemes.map (Finding.mk n) = numbered n lexemes := by
  induction h with
  | lineEnd => rfl
  | cons hne tail ih => rw [List.map_cons, ih, numbered, if_neg hne]

/-- Behind the lexemes of one line the next line begins. -/
theorem IsLine.numbered_append {lexemes : List Lexeme} (h : IsLine lexemes) (n : Nat)
    (after : List Lexeme) :
    numbered n (lexemes ++ after) = numbered n lexemes ++ numbered (n + 1) after := by
  have hcount : lexemes.count (.token .newline) = 1 := by
    induction h with
    | lineEnd => rfl
    | cons hne tail ih => rw [List.count_cons_of_ne hne, ih]
  rw [Lexeme.numbered_append, hcount]

end Lexeme

namespace Cursor

variable {c c' : Cursor} {f : Finding}

/-- A finding is on the line to scan. The next one is on the same line, or on the next line behind
the end of this one. -/
theorem lineToScan_of_next (h : c.HoldsLine) (hended : c.ended = false)
    (hnext : c.next = (some f, c')) :
    c'.ended = false ∧ f.line = c.lineToScan ∧
      c'.lineToScan = if f.lexeme = .token .newline then f.line + 1 else f.line := by
  obtain ⟨source, line, n, ended⟩ := c
  obtain rfl : ended = false := hended
  have hheld (source : Source) (n : Nat) {body : List Char} (hbody : '\n' ∉ body)
      (hnext : next ⟨source, body ++ ['\n'], n, false⟩ = (some f, c')) :
      c'.ended = false ∧ f.line = n ∧
        c'.lineToScan = if f.lexeme = .token .newline then f.line + 1 else f.line := by
    rw [next_of_terminated] at hnext
    cases hnext
    obtain hend | ⟨rest, _, hne, hrest⟩ := Lexeme.first_terminated hbody
    · simp [hend, lineToScan]
    · simp [hrest, hne, lineToScan]
  obtain rfl | ⟨body, hbody, rfl⟩ : line = [] ∨ ∃ body, '\n' ∉ body ∧ line = body ++ ['\n'] := h
  · have hscan : lineToScan ⟨source, [], n, false⟩ = n + 1 := rfl
    rw [hscan]
    rcases hr : source.readLine with ⟨chars | reason | _, rest⟩
    · obtain ⟨body, hbody, rfl⟩ := Source.exists_body_of_readLine (congrArg Prod.fst hr)
      rw [next_of_readLine hr] at hnext
      exact hheld rest (n + 1) hbody hnext
    · rw [next_of_failed hr] at hnext
      cases hnext
      exact ⟨rfl, rfl, rfl⟩
    · rw [next_of_ended hr] at hnext
      cases hnext
  · have hscan : lineToScan ⟨source, body ++ ['\n'], n, false⟩ = n := by simp [lineToScan]
    rw [hscan]
    exact hheld source n hbody hnext

/-- Until the end of the source has been reported, the findings are numbered by the ends of
lines. -/
theorem findings_eq_numbered (h : c.HoldsLine) (hended : c.ended = false) :
    c.findings = Lexeme.numbered c.lineToScan (c.findings.map Finding.lexeme) := by
  fun_induction calls c with
  | case1 c c' hnext =>
      rw [findings_of_none hnext]
      rfl
  | case2 c f c' hnext ih =>
      obtain ⟨hended', hline, hscan⟩ := lineToScan_of_next h hended hnext
      have hholds : c'.HoldsLine := by
        have hafter := h.next
        rwa [hnext] at hafter
      have hrest := ih hholds hended'
      rw [hscan, hline] at hrest
      rw [findings_of_some hnext, List.map_cons, Lexeme.numbered, ← hrest, ← hline]

/-- A finding is on the line that the ends of lines in front of it make. -/
theorem line_of_findings (h : c.HoldsLine) (hended : c.ended = false) {before rest : List Finding}
    (hfindings : c.findings = before ++ f :: rest) :
    before = Lexeme.numbered c.lineToScan (before.map Finding.lexeme) ∧
      f.line = c.lineToScan + (before.map Finding.lexeme).count (.token .newline) := by
  have hnumbered := c.findings_eq_numbered h hended
  rw [hfindings, List.map_append, Lexeme.numbered_append] at hnumbered
  have hlength : before.length =
      (Lexeme.numbered c.lineToScan (before.map Finding.lexeme)).length := by
    rw [← List.length_map Finding.lexeme, ← List.length_map Finding.lexeme,
      Lexeme.map_lexeme_numbered]
  obtain ⟨hbefore, hrest⟩ := List.append_inj hnumbered hlength
  exact ⟨hbefore, congrArg Finding.line (List.head_eq_of_cons_eq hrest)⟩

end Cursor

namespace Expectation

/-- The instructions that findings spell, each with the line of its first token. If a statement has
been begun, its first token is on this line. -/
def instructionsByFirst (e : Expectation) (begun : Option Nat) :
    List Finding → Except AssemblyError (List Instruction)
  | [] =>
      match e.mnemonic? with
      | none => .ok []
      | some m => .error (.unfinished m)
  | ⟨line, .fault fault⟩ :: _ => .error (.lexical line fault)
  | ⟨line, .token t⟩ :: rest =>
      match e.feed t with
      | .more next => next.instructionsByFirst (some (begun.getD line)) rest
      | .complete m o =>
          (name.instructionsByFirst none rest).map (⟨m, o, begun.getD line⟩ :: ·)
      | .refused fault => .error (.statement line fault)

/-- Where the ends of lines number the findings, the first token of a statement is on the line of
its last one. -/
theorem instructionsByFirst_numbered (e : Expectation) {begun : Option Nat} {n : Nat}
    (h : begun = none ∨ begun = some n) (lexemes : List Lexeme) :
    e.instructionsByFirst begun (Lexeme.numbered n lexemes) =
      e.instructions (Lexeme.numbered n lexemes) := by
  induction lexemes generalizing e begun n with
  | nil => rfl
  | cons l rest ih =>
      cases l with
      | fault fault => rfl
      | token t =>
          have hfirst : begun.getD n = n := by
            obtain rfl | rfl := h <;> rfl
          rw [Lexeme.numbered, instructionsByFirst, instructions, hfirst]
          cases hfeed : e.feed t with
          | more next =>
              -- a token inside a statement is not the end of a line, so the number stays
              have ht : t ≠ .newline := (feed_eq_more_iff.mp hfeed).1
              rw [if_neg (mt Lexeme.token.inj ht)]
              exact ih next (.inr rfl)
          | complete m o => exact congrArg (Except.map (⟨m, o, n⟩ :: ·)) (ih name (.inl rfl))
          | refused fault => rfl

end Expectation

/-- Wherever a reading has got to, the instructions before it are on the lines of their first
tokens. -/
theorem Cursor.instructionsByFirst_findings {c : Cursor} (h : c.HoldsLine) :
    Expectation.name.instructionsByFirst none c.findings =
      Expectation.name.instructions c.findings := by
  cases hended : c.ended with
  | false =>
      rw [c.findings_eq_numbered h hended]
      exact Expectation.name.instructionsByFirst_numbered (.inl rfl) _
  | true =>
      -- behind the end there are only lines that cannot be read
      rcases hn : c.next with ⟨_ | ⟨line, l⟩, c'⟩
      · rw [findings_of_none hn]
        rfl
      · obtain ⟨reason, rfl⟩ := next_of_ended_eq_true hended hn
        rw [findings_of_some hn]
        rfl

/-- The token that is found, if one is. -/
def Finding.token? : Finding → Option Token
  | ⟨_, .token t⟩ => some t
  | ⟨_, .fault _⟩ => none

/-- The tokens among findings that are on this line. -/
def tokensOn (n : Nat) (fs : List Finding) : List Token :=
  fs.filterMap fun f => if f.line = n then f.token? else none

theorem tokensOn_append (n : Nat) (fs gs : List Finding) :
    tokensOn n (fs ++ gs) = tokensOn n fs ++ tokensOn n gs :=
  List.filterMap_append

theorem tokensOn_eq_nil {n : Nat} {fs : List Finding} (h : ∀ f ∈ fs, f.line ≠ n) :
    tokensOn n fs = [] := by
  rw [tokensOn, List.filterMap_eq_nil_iff]
  intro f hf
  rw [if_neg (h f hf)]

theorem Lexeme.count_map_token (ts : List Token) :
    (ts.map Lexeme.token).count (.token .newline) = ts.count .newline :=
  List.count_map_of_injective ts _ (fun _ _ => Lexeme.token.inj) _

/-- The tokens on the last line are those behind the last end of a line. -/
theorem tokensOn_numbered (n : Nat) (ts : List Token) :
    tokensOn (n + ts.count .newline) (Lexeme.numbered n (ts.map .token)) =
      ts.rtakeWhile (· ≠ .newline) := by
  induction ts using List.reverseRecOn with
  | nil => rfl
  | append_singleton ts t ih =>
      rw [List.map_append, Lexeme.numbered_append, Lexeme.count_map_token, List.count_append,
        tokensOn_append]
      by_cases ht : t = .newline
      · subst ht
        rw [List.rtakeWhile_concat_neg _ _ _ (by simp), tokensOn_eq_nil, tokensOn_eq_nil]
        · rfl
        · simp [Lexeme.numbered]
        · intro f hf
          have hle := Lexeme.line_le_of_mem_numbered hf
          rw [Lexeme.count_map_token] at hle
          simp
          omega
      · have hcount : [t].count .newline = 0 := List.count_eq_zero.mpr (by simpa using Ne.symm ht)
        rw [List.rtakeWhile_concat_pos _ _ _ (by simpa using ht), hcount, Nat.add_zero, ih]
        simp [tokensOn, Lexeme.numbered, Finding.token?]

end RandomAccessMachine
