import RandomAccessMachine.Proofs.Assembly.LineAlignment
import RandomAccessMachine.Proofs.Assembly.OnDemand

/-!
# Statements are never cut off

Reading on demand asks for another token of a statement only where the end of
the line is still to come. There the cursor holds what is left of the line, so
it answers without a look at the source. Hence the source never ends within a
statement, and every error names a line.

## Implementation notes

`Reaches` follows `Expectation.pull` call by call. Its invariant ties what is
open in the statement to what the cursor holds: nothing is needed at the
beginning of a statement, and the end of the line everywhere else.
-/

namespace RandomAccessMachine

namespace Cursor

variable {c c' : Cursor} {n : Nat} {t : Token}

/-- What is left of the line reaches to its line feed, and the end of the source has not been
reported. -/
structure HasLineEnd (c : Cursor) : Prop where
  ended : c.ended = false
  line : ∃ body, '\n' ∉ body ∧ c.line = body ++ ['\n']

/-- Before the end of its line a cursor finds something, and it leaves the source alone. -/
theorem HasLineEnd.next (h : c.HasLineEnd) :
    ∃ lexeme, c.next.1 = some ⟨c.lineNr, lexeme⟩ ∧ c.next.2.source = c.source := by
  obtain ⟨source, line, n, ended⟩ := c
  obtain ⟨body, _, rfl⟩ := h.line
  obtain rfl : ended = false := h.ended
  rw [next_of_terminated]
  exact ⟨_, rfl, rfl⟩

/-- Behind a token other than the end of the line, this end is still to come. -/
theorem HoldsLine.hasLineEnd (h : c.HoldsLine) (hnext : c.next = (some ⟨n, .token t⟩, c'))
    (ht : t ≠ .newline) : c'.HasLineEnd := by
  obtain ⟨_, _, hcall⟩ | ⟨_, _, hcall⟩ | ⟨_, hended, hcall⟩ := c.next_cases
  · cases hcall.symm.trans hnext
  · cases hcall.symm.trans hnext
  · have hcalls := hcall.symm.trans hnext
    simp only [Prod.mk.injEq, Option.some.injEq, Finding.mk.injEq] at hcalls
    obtain ⟨⟨_, htoken⟩, rfl⟩ := hcalls
    refine ⟨hended, ?_⟩
    obtain hnil | ⟨body, hbody, hline⟩ := h.fill
    · -- nothing but the end of a line is found where nothing is held
      rw [hnil] at htoken
      exact absurd (Lexeme.token.inj htoken).symm ht
    · rw [hline] at htoken ⊢
      obtain hend | ⟨rest, hsuffix, _, hrest⟩ := Lexeme.first_terminated hbody
      · rw [hend] at htoken
        exact absurd (Lexeme.token.inj htoken).symm ht
      · exact ⟨rest, fun hmem => hbody (hsuffix.mem hmem), hrest⟩

end Cursor

namespace Expectation

variable {start c : Cursor} {e : Expectation} {m : Mnemonic}

/-- Reading on demand from the start makes a call of this cursor, and this is open before it. -/
inductive Reaches (start : Cursor) : Expectation → Cursor → Prop
  | start : Reaches start .name start
  | more {e next : Expectation} {c c' : Cursor} {line : Nat} {t : Token}
      (before : Reaches start e c) (call : c.next = (some ⟨line, .token t⟩, c'))
      (feed : e.feed t = .more next) : Reaches start next c'
  | complete {e : Expectation} {c c' : Cursor} {line : Nat} {t : Token} {m : Mnemonic}
      {o : Operand} (before : Reaches start e c) (call : c.next = (some ⟨line, .token t⟩, c'))
      (feed : e.feed t = .complete m o) : Reaches start .name c'

/-- What is needed of a cursor for the rest of a statement: if one has been begun, the end of the
line is still to come. -/
structure Supplied (e : Expectation) (c : Cursor) : Prop where
  holdsLine : c.HoldsLine
  hasLineEnd : e.mnemonic?.isSome → c.HasLineEnd

theorem Reaches.supplied (h : Reaches start e c) (hstart : start.HoldsLine) : Supplied e c := by
  induction h with
  | start => exact ⟨hstart, nofun⟩
  | more _ call feed ih =>
      have ht := (feed_eq_more_iff.mp feed).1
      have hholds := ih.holdsLine.next
      rw [call] at hholds
      exact ⟨hholds, fun _ => ih.holdsLine.hasLineEnd call ht⟩
  | complete _ call _ ih =>
      have hholds := ih.holdsLine.next
      rw [call] at hholds
      exact ⟨hholds, nofun⟩

/-- A statement that is begun and not finished makes a call that finds the end of the source. -/
theorem Reaches.exists_of_pull_eq_unfinished (h : Reaches start e c)
    (hpull : (e.pull c).1 = .error (.unfinished m)) :
    ∃ e' c', Reaches start e' c' ∧ e'.mnemonic? = some m ∧ c'.next.1 = none := by
  fun_induction pull e c with
  | case1 => cases hpull
  | case2 e c c' hnext m' hm =>
      obtain rfl : m' = m := by simpa using hpull
      exact ⟨e, c, h, hm, congrArg Prod.fst hnext⟩
  | case3 => cases hpull
  | case4 e c line t c' hnext next hfeed ih => exact ih (h.more hnext hfeed) hpull
  | case5 e c line t c' hnext m' o hfeed result last hname ih =>
      rw [hname] at ih
      exact ih (h.complete hnext hfeed) (Except.map_eq_error_iff.mp hpull)
  | case6 => cases hpull

end Expectation

/-- An error names no line only if the source ends within a statement. -/
theorem AssemblyError.exists_line?_eq_some {e : AssemblyError} (h : ∀ m, e ≠ .unfinished m) :
    ∃ line, e.line? = some line := by
  cases e with
  | lexical line fault => exact ⟨line, rfl⟩
  | statement line fault => exact ⟨line, rfl⟩
  | unfinished m => exact absurd rfl (h m)

/-- Wherever reading begins in a source, it is not rejected for a statement that the source cuts
off, and every error names a line. Each call for the rest of a statement finds a token or a fault,
and it leaves the source alone. -/
theorem Program.statements_are_whole (s : Source) (n : Nat) :
    let start := (Cursor.ofSource s).after n
    (∀ e, ofCursor start = .error e →
      (∀ m, e ≠ .unfinished m) ∧ ∃ line, e.line? = some line) ∧
    ∀ e c m, Expectation.Reaches start e c → e.mnemonic? = some m →
      ∃ lexeme, c.next.1 = some ⟨c.lineNr, lexeme⟩ ∧ c.next.2.source = c.source := by
  intro start
  have hstart : start.HoldsLine := (Cursor.holdsLine_ofSource s).after n
  have hcall (e : Expectation) (c : Cursor) (m : Mnemonic)
      (h : Expectation.Reaches start e c) (hm : e.mnemonic? = some m) :
      ∃ lexeme, c.next.1 = some ⟨c.lineNr, lexeme⟩ ∧ c.next.2.source = c.source :=
    ((h.supplied hstart).hasLineEnd (Option.isSome_of_eq_some hm)).next
  refine ⟨fun e he => ?_, hcall⟩
  have hwhole (m : Mnemonic) : e ≠ .unfinished m := by
    rintro rfl
    rw [ofCursor, ← Expectation.pull_eq_instructions, Except.map_eq_error_iff] at he
    obtain ⟨e', c, hreaches, hm, hnone⟩ :=
      Expectation.Reaches.start.exists_of_pull_eq_unfinished he
    obtain ⟨lexeme, hsome, _⟩ := hcall e' c m hreaches hm
    cases hnone.symm.trans hsome
  exact ⟨hwhole, AssemblyError.exists_line?_eq_some hwhole⟩

/-- Behind an equals sign, a name whose argument is missing where the source reports its end: the
call for the argument finds the end of the line. -/
theorem Program.statements_are_whole_before_end :
    let s := Source.ofText ['=', 'A', 'D', 'D'] ++ [.pause, .failure "gone"]
    let start := (Cursor.ofSource s).after 1
    let c : Cursor := ⟨[.failure "gone"], ['\n'], 1, false⟩
    let e : AssemblyError := .statement 1 (.missingArgument .add)
    ofCursor start = .error e ∧ (∀ m, e ≠ .unfinished m) ∧ (∃ line, e.line? = some line) ∧
      Expectation.Reaches start (.argument .add) c ∧
      ∃ lexeme, c.next.1 = some ⟨1, lexeme⟩ ∧ c.next.2.source = [.failure "gone"] := by
  intro s start c e
  have hname : start.next = (some ⟨1, .token (.keyword .add)⟩, c) := by cbv
  have hend : c.next = (some ⟨1, .token .newline⟩, { c with line := [] }) := by cbv
  have he : ofCursor start = .error e := by
    rw [ofCursor, Cursor.findings_of_some hname, Cursor.findings_of_some hend]
    rfl
  have hreaches : Expectation.Reaches start (.argument .add) c := .more .start hname rfl
  obtain ⟨herror, hcall⟩ := statements_are_whole s 1
  obtain ⟨hwhole, hline⟩ := herror e he
  exact ⟨he, hwhole, hline, hreaches, hcall _ c .add hreaches rfl⟩

end RandomAccessMachine
