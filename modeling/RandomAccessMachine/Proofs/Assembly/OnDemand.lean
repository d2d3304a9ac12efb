import RandomAccessMachine.Proofs.Assembly.LineVerdict

/-!
# Reading on demand

A program can be read one call of its cursor at a time: no call is made before
the findings of the earlier ones have been judged, and none after a fault. The
result is that of judging all findings together. When a line is refused, the
source is left at the end of this line.

## Implementation notes

`pull` gives an instruction the line of the token that completes it, as
`Expectation.instructions` does. Wherever a reading has got to, the first token
of the instruction is on the same line (`Cursor.instructionsByFirst_findings`),
because a call inside a statement does not read a line.
-/

namespace RandomAccessMachine

namespace Expectation

/-- Judge findings as the calls of a cursor report them, and give the cursor after the last
call. -/
def pull (e : Expectation) (c : Cursor) : Except AssemblyError (List Instruction) × Cursor :=
  match _h : c.next with
  | (none, c') =>
      match e.mnemonic? with
      | none => (.ok [], c')
      | some m => (.error (.unfinished m), c')
  | (some ⟨line, .fault fault⟩, c') => (.error (.lexical line fault), c')
  | (some ⟨line, .token t⟩, c') =>
      match e.feed t with
      | .more next => next.pull c'
      | .complete m o =>
          match name.pull c' with
          | (result, last) => (result.map (⟨m, o, line⟩ :: ·), last)
      | .refused fault => (.error (.statement line fault), c')
termination_by (c.source.length, Lexeme.extent c.line)
decreasing_by all_goals exact Cursor.next_lt _h

variable {e : Expectation} {c c' : Cursor} {line : Nat}

theorem pull_of_none (h : c.next = (none, c')) :
    e.pull c =
      match e.mnemonic? with
      | none => (.ok [], c')
      | some m => (.error (.unfinished m), c') := by
  rw [pull]
  split <;> simp_all

theorem pull_of_fault {fault : LexicalFault}
    (h : c.next = (some ⟨line, .fault fault⟩, c')) :
    e.pull c = (.error (.lexical line fault), c') := by
  rw [pull]
  split <;> simp_all

theorem pull_of_token {t : Token} (h : c.next = (some ⟨line, .token t⟩, c')) :
    e.pull c =
      match e.feed t with
      | .more next => next.pull c'
      | .complete m o => ((name.pull c').1.map (⟨m, o, line⟩ :: ·), (name.pull c').2)
      | .refused fault => (.error (.statement line fault), c') := by
  rw [pull]
  split <;> simp_all

/-- Judging on demand gives the same as judging all findings. -/
theorem pull_eq_instructions (e : Expectation) (c : Cursor) :
    (e.pull c).1 = e.instructions c.findings := by
  fun_induction pull e c with
  | case1 e c c' h hm => rw [Cursor.findings_of_none h, instructions, hm]
  | case2 e c c' h m hm => rw [Cursor.findings_of_none h, instructions, hm]
  | case3 e c line fault c' h => rw [Cursor.findings_of_some h, instructions]
  | case4 e c line t c' h next hfeed ih => rw [Cursor.findings_of_some h, instructions, hfeed, ih]
  | case5 e c line t c' h m o hfeed result last hpull ih =>
      rw [Cursor.findings_of_some h, instructions, hfeed, ← ih, hpull]
  | case6 e c line t c' h fault hfeed => rw [Cursor.findings_of_some h, instructions, hfeed]

end Expectation

/-- The program whose text a cursor has before it, read on demand, and the cursor after the last
call that was made for it. -/
def Program.pull (c : Cursor) : Except AssemblyError Program × Cursor :=
  ((Expectation.name.pull c).1.map ofList, (Expectation.name.pull c).2)

/-- Reading on demand gives the same program or the same error. -/
theorem Program.pull_eq_ofCursor (c : Cursor) : (pull c).1 = ofCursor c := by
  rw [pull, Expectation.pull_eq_instructions, ofCursor]

namespace Expectation

variable {e : Expectation} {source : Source} {body : List Char} {n : Nat}

/-- A line that is refused leaves what follows it in the source, and a line that is accepted is
followed by what the source holds behind it. -/
theorem pull_line (e : Expectation) (source : Source) (n : Nat) (h : '\n' ∉ body) :
    match e.onLine n body with
    | .error err =>
        ∃ last, e.pull ⟨source, body ++ ['\n'], n, false⟩ = (.error err, last) ∧
          last.source = source
    | .ok is =>
        e.pull ⟨source, body ++ ['\n'], n, false⟩ =
          ((name.pull ⟨source, [], n, false⟩).1.map (is ++ ·),
            (name.pull ⟨source, [], n, false⟩).2) := by
  induction hl : body.length using Nat.strongRecOn generalizing e body with
  | ind k ih =>
      have hnext := Cursor.next_of_terminated source body n
      obtain hremark | ⟨t, rest, ht, hrest, hlead⟩ | ⟨fault, hfault⟩ := line_cases h
      · rw [(Lexeme.first_eq_newline_iff h).mpr hremark] at hnext
        rw [onLine_of_isRemark h hremark, pull_of_token hnext]
        cases hc : e.completed? with
        | some mo => simp [feed, hc]
        | none => simp [feed, hc]
      · have hfirst := Lexeme.first_of_tokenLead hlead
        have hlt := Lexeme.length_lt_of_first (congrArg Prod.snd hfirst)
        rw [hfirst] at hnext
        rw [onLine_of_tokenLead ht hlead, pull_of_token hnext]
        cases hc : e.next? t with
        | none => simp [feed, ht, hc]
        | some next => simpa [feed, ht, hc] using ih rest.length (hl ▸ hlt) next hrest rfl
      · rw [hfault] at hnext
        rw [onLine_of_fault hfault, pull_of_fault hnext]
        exact ⟨_, rfl, rfl⟩

/-- A cursor whose next call is that of another one is read like it. -/
theorem pull_eq_of_next {c c' : Cursor} (h : c.next = c'.next) : e.pull c = e.pull c' := by
  rcases hn : c.next with ⟨_ | ⟨line, _ | _⟩, after⟩
  · rw [pull_of_none hn, pull_of_none (h.symm.trans hn)]
  · rw [pull_of_token hn, pull_of_token (h.symm.trans hn)]
  · rw [pull_of_fault hn, pull_of_fault (h.symm.trans hn)]

variable {line rest : Source} {f : LineFault} {m : Mnemonic} {o : Operand}

/-- Reading stops behind a line that is refused. -/
theorem pull_of_refused (hfirst : Source.FirstLine false line rest)
    (h : line.Says (.refused f)) :
    ∃ last, name.pull ⟨line ++ rest, [], n, false⟩ = (.error (f.onLine (n + 1)), last) ∧
      last.source = rest := by
  have hread := hfirst.readLine
  have hsays := h (n + 1)
  cases hr : line.readLine.1 with
  | line chars =>
      obtain ⟨body, hbody, rfl⟩ := Source.exists_body_of_readLine hr
      rw [hr] at hread hsays
      rw [pull_eq_of_next (Cursor.next_of_readLine hread)]
      have honLine : name.onLine (n + 1) body = .error (f.onLine (n + 1)) := hsays
      have hline := pull_line name rest (n + 1) hbody
      rwa [honLine] at hline
  | failed reason =>
      rw [hr] at hread hsays
      rw [pull_of_fault (Cursor.next_of_failed hread)]
      exact ⟨_, congrArg (·, _) hsays, rfl⟩
  | ended => exact absurd hr hfirst.readLine_ne_ended

/-- Reading goes on behind a line that is accepted. -/
theorem pull_of_accepted (hfirst : Source.FirstLine false line rest)
    (h : line.Says (.accepted m o)) :
    name.pull ⟨line ++ rest, [], n, false⟩ =
      ((name.pull ⟨rest, [], n + 1, false⟩).1.map (⟨m, o, n + 1⟩ :: ·),
        (name.pull ⟨rest, [], n + 1, false⟩).2) := by
  have hread := hfirst.readLine
  have hsays := h (n + 1)
  cases hr : line.readLine.1 with
  | line chars =>
      obtain ⟨body, hbody, rfl⟩ := Source.exists_body_of_readLine hr
      rw [hr] at hread hsays
      rw [pull_eq_of_next (Cursor.next_of_readLine hread)]
      have honLine : name.onLine (n + 1) body = .ok [⟨m, o, n + 1⟩] := hsays
      have hline := pull_line name rest (n + 1) hbody
      rwa [honLine] at hline
  | failed reason =>
      rw [hr] at hsays
      cases hsays
  | ended => exact absurd hr hfirst.readLine_ne_ended

/-- A line that is blamed has been read. -/
theorem lt_of_pull_eq_error {s : Source} {k : Nat}
    (h : (name.pull ⟨s, [], n, false⟩).1 = .error (f.onLine k)) : n < k := by
  rw [pull_eq_instructions, Cursor.instructions_findings,
    Source.instructionsOf_eq_error_iff Source.exists_says_of_mem] at h
  obtain ⟨j, line, g, _, _, hline, _⟩ := h
  have := (LineFault.onLine_injective hline).1
  omega

/-- A source that is rejected is left at the end of the line that is blamed. -/
theorem source_of_pull_eq_error {s : Source} {k : Nat}
    (h : (name.pull ⟨s, [], n, false⟩).1 = .error (f.onLine (n + k + 1))) :
    s = s.firstLines (k + 1) ++ (name.pull ⟨s, [], n, false⟩).2.source := by
  induction s using Source.lines_induction generalizing n k with
  | ended s _ hended =>
      rw [pull_of_none (Cursor.next_of_ended (Prod.ext hended rfl))] at h
      cases h
  | line line rest hfirst ih =>
      obtain ⟨v, hv⟩ := hfirst.exists_verdict
      rw [hfirst.firstLines_succ, List.append_assoc]
      cases v with
      | refused g =>
          obtain ⟨last, hpull, hsource⟩ := pull_of_refused (n := n) hfirst hv
          rw [hpull] at h ⊢
          have hk := (LineFault.onLine_injective (Except.error.inj h)).1
          obtain rfl : k = 0 := by omega
          simp [hsource, Source.firstLines]
      | accepted m o =>
          rw [pull_of_accepted hfirst hv] at h ⊢
          have hrest : (name.pull ⟨rest, [], n + 1, false⟩).1 = .error (f.onLine (n + k + 1)) :=
            Except.map_eq_error_iff.mp h
          obtain ⟨j, rfl⟩ : ∃ j, k = j + 1 := ⟨k - 1, by have := lt_of_pull_eq_error hrest; omega⟩
          have hnumber : n + (j + 1) + 1 = n + 1 + j + 1 := by omega
          rw [hnumber] at hrest
          exact congrArg (line ++ ·) (ih hrest)

end Expectation

end RandomAccessMachine
