import Mathlib
import RandomAccessMachine.Proofs.Assembly.LineLexemes
import RandomAccessMachine.Proofs.Source.LostLines

/-!
# Going on after lines that are lost

A call that cannot read a line reports a fault with the number that the line
would have had, and changes nothing else. So the other findings in a source
are those in the source without the lines that are lost.

## Implementation notes

A line that cannot be read is told from the lexemes of a line by its fault,
which `Lexeme.first` never gives.
-/

namespace RandomAccessMachine

namespace Lexeme

/-- Whether the fault is that a line cannot be read. -/
def isUnreadable : Lexeme → Bool
  | .fault (.unreadable _) => true
  | _ => false

theorem isUnreadable_ofDigits (digits : List Char) : (ofDigits digits).isUnreadable = false := by
  unfold ofDigits
  split <;> rfl

theorem isUnreadable_ofLetters (letters : List Char) : (ofLetters letters).isUnreadable = false := by
  unfold ofLetters
  split <;> rfl

theorem isUnreadable_number (digits rest : List Char) :
    (number digits rest).1.isUnreadable = false := by
  have hdigits := isUnreadable_ofDigits digits
  cases rest with
  | nil => exact hdigits
  | cons c rest =>
      rw [number]
      split
      · exact hdigits
      · split
        · exact hdigits
        · rfl

theorem isUnreadable_name (letters rest : List Char) :
    (name letters rest).1.isUnreadable = false := by
  have hletters := isUnreadable_ofLetters letters
  cases rest with
  | nil => exact hletters
  | cons c rest =>
      rw [name]
      split
      · exact hletters
      · split
        · exact hletters
        · rfl

/-- The characters of a line are never taken for a line that cannot be read. -/
theorem isUnreadable_first (line : List Char) : (first line).1.isUnreadable = false := by
  fun_induction first line with
  | case1 | case2 | case3 | case7 => rfl
  | case4 _ _ _ _ _ ih => exact ih
  | case5 => apply isUnreadable_number
  | case6 => apply isUnreadable_name

theorem isUnreadable_of_mem_ofLine {line : List Char} :
    ∀ l ∈ ofLine line, l.isUnreadable = false := by
  fun_induction ofLine line with
  | case1 => simp
  | case2 line _ ih => exact List.forall_mem_cons.mpr ⟨isUnreadable_first line, ih⟩

end Lexeme

namespace Cursor

variable {c c' : Cursor} {call : Call} {earlier later : List Call} {line : Nat} {reason : String}

/-- The number of lines that calls have read. -/
def linesRead (calls : List Call) : Nat :=
  calls.countP fun call => call.before.opened?.isSome

theorem linesRead_cons (first : Call) (calls : List Call) :
    linesRead (first :: calls) =
      linesRead calls + if first.before.opened?.isSome then 1 else 0 :=
  List.countP_cons

/-- A read that fails changes the source only. -/
theorem fill_of_error (h : c.fill.1 = .error reason) :
    c.fill.2 = { c with source := c.fill.2.source } := by
  obtain ⟨_, hfill⟩ | ⟨_, chars, source, _, hfill⟩ | ⟨_, reason', source, _, hfill⟩ |
    ⟨_, source, _, hfill⟩ := c.fill_cases
  · simp [hfill] at h
  · simp [hfill] at h
  · rw [hfill]
  · simp [hfill] at h

/-- A call that cannot read a line reports the number that it would have had, and changes the
source only. -/
theorem next_of_unreadable (h : c.next = (some ⟨line, .fault (.unreadable reason)⟩, c')) :
    line = 1 + c.lineNr ∧ c' = { c with source := c'.source } := by
  obtain ⟨_, herror, hnext⟩ | ⟨_, _, hnext⟩ | ⟨_, _, hnext⟩ := c.next_cases
  · have hfilled := fill_of_error herror
    cases hnext.symm.trans h
    refine ⟨?_, hfilled⟩
    rw [hfilled]
    exact Nat.add_comm c.lineNr 1
  · cases hnext.symm.trans h
  · have hlexeme := congrArg Prod.fst (hnext.symm.trans h)
    simp only [Option.some.injEq, Finding.mk.injEq] at hlexeme
    have hreadable := Lexeme.isUnreadable_first c.fill.2.line
    rw [hlexeme.2] at hreadable
    cases hreadable

theorem lineNr_fill (c : Cursor) :
    c.fill.2.lineNr = c.lineNr + if c.opened?.isSome then 1 else 0 := by
  unfold fill opened?
  split
  · rcases c.source.readLine with ⟨chars | reason | _, source⟩ <;> rfl
  · rfl

/-- A call adds the line that it reads to the line number. -/
theorem lineNr_next (c : Cursor) :
    c.next.2.lineNr = c.lineNr + if c.opened?.isSome then 1 else 0 := by
  rw [← lineNr_fill]
  obtain ⟨_, _, hnext⟩ | ⟨_, _, hnext⟩ | ⟨_, _, hnext⟩ := c.next_cases <;> rw [hnext]

/-- The first call is made by the cursor itself. -/
theorem exists_calls_eq_cons (c : Cursor) : ∃ later, c.calls = ⟨c, c.next.1, c.next.2⟩ :: later := by
  rcases hn : c.next with ⟨_ | f, c'⟩
  · exact ⟨[], calls_of_none hn⟩
  · exact ⟨c'.calls, calls_of_some hn⟩

/-- The line number before a call counts the lines that earlier calls have read. -/
theorem lineNr_before (h : c.calls = earlier ++ call :: later) :
    call.before.lineNr = c.lineNr + linesRead earlier := by
  induction earlier generalizing c with
  | nil =>
      obtain ⟨rest, hrest⟩ := exists_calls_eq_cons c
      obtain ⟨rfl, _⟩ := List.cons.inj (hrest.symm.trans h)
      rfl
  | cons first earlier ih =>
      have hnumber := lineNr_next c
      rcases hn : c.next with ⟨_ | f, c'⟩
      · rw [calls_of_none hn] at h
        simp at h
      · rw [calls_of_some hn] at h
        obtain ⟨rfl, hcalls⟩ := List.cons.inj h
        rw [hn] at hnumber
        rw [ih hcalls, hnumber, linesRead_cons, Nat.add_assoc, Nat.add_comm (linesRead earlier)]

theorem next_before (h : call ∈ c.calls) : call.before.next = (call.finding, call.after) := by
  fun_induction calls c with
  | case1 c c' hnext =>
      obtain rfl := List.mem_singleton.mp h
      exact hnext
  | case2 c f c' hnext ih =>
      obtain rfl | h := List.mem_cons.mp h
      · exact hnext
      · exact ih h

/-- The same cursor in the source without interruptions. -/
def uninterrupted (c : Cursor) : Cursor := { c with source := c.source.uninterrupted }

theorem fill_uninterrupted (c : Cursor) :
    c.uninterrupted.fill = (c.fill.1, c.fill.2.uninterrupted) := by
  unfold fill uninterrupted
  dsimp only
  rw [Source.readLine_uninterrupted]
  split
  · rcases c.source.readLine with ⟨chars | reason | _, source⟩ <;> rfl
  · rfl

theorem next_uninterrupted (c : Cursor) :
    c.uninterrupted.next = (c.next.1.map id, c.next.2.uninterrupted) := by
  rw [next, fill_uninterrupted, next, Option.map_id_fun]
  rcases c.fill with ⟨reason | _, filled⟩
  · rfl
  · cases hended : filled.ended <;> simp [uninterrupted, hended]

/-- Interruptions do not change what is found. -/
theorem findings_uninterrupted (s : Source) :
    findings (ofSource s.uninterrupted) = findings (ofSource s) := by
  have hmap := findings_map next_uninterrupted (ofSource s)
  rw [List.map_id] at hmap
  exact hmap

/-- The findings in a line that has been read are none of a line that cannot be read. -/
theorem filter_ofLine (line : List Char) (n : Nat) :
    ((Lexeme.ofLine line).map (Finding.mk n)).filter (fun f => !f.lexeme.isUnreadable) =
      (Lexeme.ofLine line).map (Finding.mk n) := by
  rw [List.filter_eq_self, List.forall_mem_map]
  intro l hl
  rw [Lexeme.isUnreadable_of_mem_ofLine l hl]
  rfl

/-- In a source without its lost lines a cursor finds what it finds in the source, apart from the
lines that cannot be read. -/
theorem findings_mended (s : Source) (n : Nat) :
    findings ⟨s.mended, [], n, false⟩ =
      (findings ⟨s, [], n, false⟩).filter fun f => !f.lexeme.isUnreadable := by
  -- a line that is kept is taken off both sources, and a lost one off the source as it was
  induction s using Source.lines_induction generalizing n with
  | ended s hnil hended =>
      have hmended : s.mended.readLine.1 = .ended := Source.readLine_mended_of_lines_eq_nil hnil
      rw [findings_of_ended (Prod.ext hended rfl), findings_of_ended (Prod.ext hmended rfl),
        List.filter_nil]
  | line line rest hfirst ih =>
      have hread := hfirst.readLine
      rw [hfirst.mended]
      obtain ⟨hlost, reason, hfailed⟩ | ⟨hkept, chars, hline⟩ := hfirst.readLine_cases
      · rw [hfailed] at hread
        rw [findings_of_failed hread, hlost, if_pos rfl, List.nil_append, ih n]
        rfl
      · have hmended := hfirst.followed_by_mended.readLine
        rw [hline] at hread hmended
        rw [hkept, if_neg Bool.false_ne_true, findings_of_lineRead hread,
          findings_of_lineRead hmended, List.filter_append, filter_ofLine, ih (n + 1)]

/-- A call that reports a line that cannot be read gives it the number after those of the lines
read before, and changes the source only. If the lines that are lost are taken out of the source,
and interruptions anywhere, then the other findings are left. -/
theorem failures_lose_only_their_lines (s : Source) :
    (∀ earlier call later line reason, (ofSource s).calls = earlier ++ call :: later →
      call.finding = some ⟨line, .fault (.unreadable reason)⟩ →
        line = 1 + linesRead earlier ∧
        call.after = { call.before with source := call.after.source }) ∧
    ∀ t : Source, t.uninterrupted = s.mended.uninterrupted →
      findings (ofSource t) =
        (findings (ofSource s)).filter fun f => !f.lexeme.isUnreadable := by
  constructor
  · intro earlier call later line reason hcalls hfinding
    have hmem : call ∈ (ofSource s).calls := hcalls ▸ List.mem_append_cons_self
    have hnext := next_before hmem
    rw [hfinding] at hnext
    obtain ⟨hline, hafter⟩ := next_of_unreadable hnext
    have hnumber : call.before.lineNr = linesRead earlier := by
      rw [lineNr_before hcalls]
      exact Nat.zero_add _
    exact ⟨hnumber ▸ hline, hafter⟩
  · intro t ht
    calc
      findings (ofSource t) = findings (ofSource t.uninterrupted) :=
        (findings_uninterrupted t).symm
      _ = findings (ofSource s.mended) := by rw [ht, findings_uninterrupted]
      _ = (findings (ofSource s)).filter fun f => !f.lexeme.isUnreadable := findings_mended s 0

/-- A failure within a character loses the line with its number, and so does what is left of the
character, up to a reported end. -/
theorem failures_lose_only_their_lines_within_character :
    let lost : Source := [.byte 226, .failure "gone", .interruption, .byte 172, .pause]
    let s := Source.ofText ['#', '\n'] ++ lost ++ .ofText ['#']
    let t := Source.ofText ['#', '\n', '#']
    let c : Cursor := ⟨lost ++ .ofText ['#'], [], 1, false⟩
    let c' : Cursor := ⟨lost.drop 2 ++ .ofText ['#'], [], 1, false⟩
    let earlier : List Call := [⟨ofSource s, some ⟨1, .token .newline⟩, c⟩]
    let call : Call := ⟨c, some ⟨2, .fault (.unreadable "gone")⟩, c'⟩
    (ofSource s).calls = earlier ++ call :: c'.calls ∧ linesRead earlier = 1 ∧
      2 = 1 + linesRead earlier ∧ call.after = { call.before with source := call.after.source } ∧
      findings (ofSource s) =
        [⟨1, .token .newline⟩, ⟨2, .fault (.unreadable "gone")⟩,
          ⟨2, .fault (.unreadable Source.undecodable)⟩, ⟨2, .token .newline⟩] ∧
      t.uninterrupted = s.mended.uninterrupted ∧
      findings (ofSource t) = (findings (ofSource s)).filter fun f => !f.lexeme.isUnreadable := by
  intro lost s t c c' earlier call
  have hfirst : (ofSource s).next = (some ⟨1, .token .newline⟩, c) := by cbv
  have hsecond : c.next = (some ⟨2, .fault (.unreadable "gone")⟩, c') := by cbv
  have hcalls : (ofSource s).calls = earlier ++ call :: c'.calls := by
    rw [calls_of_some hfirst, calls_of_some hsecond]
    rfl
  have hmended : t.uninterrupted = s.mended.uninterrupted := by cbv
  obtain ⟨hfailure, hothers⟩ := failures_lose_only_their_lines s
  obtain ⟨hline, hafter⟩ := hfailure earlier call c'.calls 2 "gone" hcalls rfl
  exact ⟨hcalls, by cbv, hline, hafter, by cbv, hmended, hothers t hmended⟩

end Cursor

end RandomAccessMachine
