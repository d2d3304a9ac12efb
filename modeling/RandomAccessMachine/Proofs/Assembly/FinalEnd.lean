import RandomAccessMachine.Proofs.Assembly.LineAlignment

/-!
# The end is final

Once a cursor has reported the end of its source, it finds nothing any more
but lines that cannot be read, whatever the source delivers afterwards. At
most one more line is counted, and behind this line the source is left alone.

## Implementation notes

The end is reported although the source may go on, so the next calls still
read. A line that they read is held for ever, since nothing is taken from it:
with it the cursor is at rest.
-/

namespace RandomAccessMachine.Cursor

variable {c e : Cursor} {n : Nat}

/-- The end has been reported, and a line is held that nothing will be taken from. -/
structure AtRest (c : Cursor) : Prop where
  ended : c.ended = true
  holds : c.line ≠ []

/-- Nothing is reported only where the end of the source has been. -/
theorem ended_of_next_eq_none (h : c.next = (none, e)) : e.ended = true := by
  obtain ⟨_, _, hnext⟩ | ⟨_, hended, hnext⟩ | ⟨_, _, hnext⟩ := c.next_cases
  · cases hnext.symm.trans h
  · cases hnext.symm.trans h
    exact hended
  · cases hnext.symm.trans h

/-- A cursor at rest reports the end and stays as it is. -/
theorem AtRest.next (h : c.AtRest) : c.next = (none, c) := by
  have hline : c.line.isEmpty = false := by simpa using h.holds
  simp [Cursor.next, fill, hline, h.ended]

theorem AtRest.after (h : c.AtRest) (k : Nat) : c.after k = c := by
  induction k with
  | zero => rfl
  | succ k ih => rw [after_succ, ih, h.next]

/-- A cursor at rest has no use for its source. -/
theorem AtRest.withSource (h : c.AtRest) (source : Source) :
    AtRest { c with source := source } :=
  ⟨h.ended, h.holds⟩

/-- A place behind the end that was reported in this line: no line has been counted since, or one
has and the cursor is at rest. -/
structure BehindEnd (n : Nat) (c : Cursor) : Prop where
  ended : c.ended = true
  lineNr : c.lineNr = n ∨ c.lineNr = n + 1 ∧ c.AtRest

namespace BehindEnd

/-- A call behind the end reads a line, fails to, or finds the end again. -/
theorem next (h : BehindEnd n c) : BehindEnd n c.next.2 := by
  by_cases hline : c.line = []
  · have hn : c.lineNr = n := h.lineNr.resolve_right fun hrest => hrest.2.holds hline
    rcases hr : c.source.readLine with ⟨chars | reason | _, source⟩
    · have hne : chars ≠ [] := Source.ne_nil_of_readLine (congrArg Prod.fst hr)
      have hnext : c.next = (none, ⟨source, chars, c.lineNr + 1, c.ended⟩) := by
        simp [Cursor.next, fill, hline, hr, h.ended]
      rw [hnext, hn]
      exact ⟨h.ended, .inr ⟨rfl, h.ended, hne⟩⟩
    · have hnext : c.next.2 = { c with source := source } := by
        simp [Cursor.next, fill, hline, hr]
      rw [hnext]
      exact ⟨h.ended, .inl hn⟩
    · have hnext : c.next.2 = { c with source := source, ended := true } := by
        simp [Cursor.next, fill, hline, hr]
      rw [hnext]
      exact ⟨rfl, .inl hn⟩
  · have hrest : c.AtRest := ⟨h.ended, hline⟩
    rw [hrest.next]
    exact h

theorem after (h : BehindEnd n c) (k : Nat) : BehindEnd n (c.after k) := by
  induction k with
  | zero => exact h
  | succ k ih =>
      rw [after_succ]
      exact ih.next

end BehindEnd

/-- Behind a reported end no call finds anything but a line that cannot be read. The calls together
count at most one line, and from then on they report the end without a look at the source and
leave the cursor as it is. -/
theorem end_is_final (h : c.next = (none, e)) (k : Nat) :
    (∀ f, (e.after k).next.1 = some f → ∃ reason, f.lexeme = .fault (.unreadable reason)) ∧
    e.lineNr ≤ (e.after k).lineNr ∧ (e.after k).lineNr ≤ e.lineNr + 1 ∧
    (e.lineNr < (e.after k).lineNr → ∀ j, k ≤ j → e.after j = e.after k ∧
      ∀ source, next { e.after j with source := source } =
        (none, { e.after j with source := source })) := by
  have hend : BehindEnd e.lineNr e := ⟨ended_of_next_eq_none h, .inl rfl⟩
  have hk : BehindEnd e.lineNr (e.after k) := hend.after k
  have hcount := hk.lineNr
  refine ⟨fun f hf => next_of_ended_eq_true hk.ended (Prod.ext hf rfl), by omega, by omega, ?_⟩
  intro hgrown j hj
  have hrest : (e.after k).AtRest := (hcount.resolve_left (Nat.ne_of_gt hgrown)).2
  have hstays : e.after j = e.after k := by
    obtain ⟨i, rfl⟩ := Nat.exists_eq_add_of_le hj
    rw [after_add, hrest.after]
  rw [hstays]
  exact ⟨rfl, fun source => (hrest.withSource source).next⟩

/-- A source that reports its end, fails, reports its end again and goes on with two lines: the
first of them is counted and held, the second one is never read. -/
theorem end_is_final_before_two_lines :
    let later : Source := .ofText ['A', '\n', 'B', '\n']
    let s : Source := .pause :: .failure "gone" :: .pause :: later
    let e : Cursor := ⟨s.tail, [], 0, true⟩
    let c : Cursor := ⟨.ofText ['B', '\n'], ['A', '\n'], 1, true⟩
    (ofSource s).next = (none, e) ∧
      e.next.1 = some ⟨1, .fault (.unreadable "gone")⟩ ∧
      (∀ f, e.next.1 = some f → ∃ reason, f.lexeme = .fault (.unreadable reason)) ∧
      (e.after 2).lineNr = 0 ∧ e.after 3 = c ∧ c.lineNr ≤ e.lineNr + 1 ∧
      ∀ j, 3 ≤ j → e.after j = c ∧
        ∀ source, next { c with source := source } = (none, { c with source := source }) := by
  intro later s e c
  have h : (ofSource s).next = (none, e) := by cbv
  have hc : e.after 3 = c := by cbv
  obtain ⟨_, _, hcount, hrest⟩ := end_is_final h 3
  rw [hc] at hcount hrest
  refine ⟨h, by cbv, (end_is_final h 0).1, by cbv, hc, hcount, fun j hj => ?_⟩
  obtain ⟨hj, hnext⟩ := hrest (by decide) j hj
  rw [hj] at hnext
  exact ⟨hj, hnext⟩

end RandomAccessMachine.Cursor
