import Mathlib
import RandomAccessMachine.Proofs.Assembly.OnDemand

/-!
# The first faulty line

A source is rejected for the first of its lines that is rejected on its own,
and for the fault that this line has on its own. What follows the line feed of
this line is not read, so it may be anything.
-/

namespace RandomAccessMachine

/-- Behind a line that ends with a line feed a source may go on in another way. -/
theorem Source.lines_firstLines_append {s line : Source} {k : Nat}
    (hk : s.lines[k]? = some line) (hlast : line.getLast? = some (.byte 10)) (other : Source) :
    Source.lines (s.firstLines (k + 1) ++ other) = s.lines.take (k + 1) ++ other.lines := by
  induction k generalizing s with
  | zero =>
      obtain ⟨hnil, _⟩ | ⟨first, rest, rfl, hfirst⟩ := s.lines_cases
      · simp [hnil] at hk
      · rw [hfirst.lines] at hk
        obtain rfl : first = line := by simpa using hk
        rw [hfirst.firstLines_succ, hfirst.lines]
        simpa [firstLines] using (hfirst.followed (.inr hlast) other).lines
  | succ k ih =>
      obtain ⟨hnil, _⟩ | ⟨first, rest, rfl, hfirst⟩ := s.lines_cases
      · simp [hnil] at hk
      · rw [hfirst.lines, List.getElem?_cons_succ] at hk
        have hne : rest ≠ [] := by
          rintro rfl
          simp [lines, linesFrom] at hk
        rw [hfirst.firstLines_succ, hfirst.lines, List.take_succ_cons, List.append_assoc,
          (hfirst.followed (.inl hne) _).lines, ih hk, List.cons_append]

namespace Program

variable {s : Source} {n : Nat} {f : LineFault}

/-- Every error blames a line. -/
theorem exists_onLine_of_ofSource {e : AssemblyError} (h : ofSource s = .error e) :
    ∃ (n : Nat) (f : LineFault), e = f.onLine n := by
  rw [ofSource_eq_error_iff, Source.instructionsOf_eq_error_iff Source.exists_says_of_mem] at h
  obtain ⟨k, _, f, _, _, he, _⟩ := h
  exact ⟨0 + k + 1, f, he⟩

/-- The line that is blamed is the first one that is rejected on its own. -/
theorem ofSource_eq_onLine_iff :
    ofSource s = .error (f.onLine n) ↔
      1 ≤ n ∧ (∃ line, s.lines[n - 1]? = some line ∧ ofSource line = .error (f.onLine 1)) ∧
        ∀ k < n - 1, ∀ line, s.lines[k]? = some line → ∃ p, ofSource line = .ok p := by
  rw [ofSource_eq_error_iff, Source.instructionsOf_eq_error_iff Source.exists_says_of_mem]
  constructor
  · intro hgiven
    obtain ⟨k, line, g, hk, hsays, he, hbefore⟩ := hgiven
    obtain ⟨rfl, rfl⟩ := LineFault.onLine_injective he
    have hindex : 0 + k + 1 - 1 = k := by omega
    rw [hindex]
    refine ⟨by omega, ⟨line, hk, ?_⟩, fun j hj l hl => ?_⟩
    · exact (says_refused_iff (List.mem_of_getElem? hk)).mp hsays
    · obtain ⟨m, o, haccepted⟩ := hbefore j hj l hl
      exact ⟨_, (says_accepted_iff (List.mem_of_getElem? hl)).mp haccepted⟩
  · intro hgiven
    obtain ⟨hn, ⟨line, hk, herror⟩, hbefore⟩ := hgiven
    have hindex : 0 + (n - 1) + 1 = n := by omega
    refine ⟨n - 1, line, f, hk, ?_, by rw [hindex], fun j hj l hl => ?_⟩
    · exact (says_refused_iff (List.mem_of_getElem? hk)).mpr herror
    · obtain ⟨p, hp⟩ := hbefore j hj l hl
      obtain ⟨v, hv⟩ := Source.exists_says_of_mem l (List.mem_of_getElem? hl)
      cases v with
      | accepted m o => exact ⟨m, o, hv⟩
      | refused g =>
          rw [(says_refused_iff (List.mem_of_getElem? hl)).mp hv] at hp
          cases hp

/-- When a line is blamed, the source has been read up to the end of this line and no further. -/
theorem source_of_pull_ofSource (h : ofSource s = .error (f.onLine n)) :
    s = s.firstLines n ++ (pull (.ofSource s)).2.source := by
  obtain ⟨hn, _⟩ := ofSource_eq_onLine_iff.mp h
  obtain ⟨k, rfl⟩ : ∃ k, n = k + 1 := ⟨n - 1, by omega⟩
  apply Expectation.source_of_pull_eq_error (f := f)
  rw [Expectation.pull_eq_instructions, Cursor.instructions_findings, Nat.zero_add]
  exact ofSource_eq_error_iff.mp h

/-- What follows the line feed of the line that is blamed does not matter. -/
theorem ofSource_firstLines_append {line : Source} (h : ofSource s = .error (f.onLine n))
    (hline : s.lines[n - 1]? = some line) (hlast : line.getLast? = some (.byte 10))
    (other : Source) :
    Source.lines (s.firstLines n ++ other) = s.lines.take n ++ other.lines ∧
      ofSource (s.firstLines n ++ other) = .error (f.onLine n) := by
  obtain ⟨hn, ⟨l, hl, hfault⟩, hbefore⟩ := ofSource_eq_onLine_iff.mp h
  obtain ⟨k, rfl⟩ : ∃ k, n = k + 1 := ⟨n - 1, by omega⟩
  rw [Nat.add_sub_cancel] at hline hl hbefore
  have hlines := Source.lines_firstLines_append hline hlast other
  have hlength : k < s.lines.length := (List.getElem?_eq_some_iff.mp hline).1
  have hget (j : Nat) (hj : j < k + 1) :
      (Source.lines (s.firstLines (k + 1) ++ other))[j]? = s.lines[j]? := by
    have hlt : j < (s.lines.take (k + 1)).length := by
      rw [List.length_take]
      omega
    rw [hlines, List.getElem?_append_left hlt, List.getElem?_take_of_lt hj]
  refine ⟨hlines, ofSource_eq_onLine_iff.mpr ⟨hn, ⟨l, ?_, hfault⟩, fun j hj l' hl' => ?_⟩⟩
  · rw [Nat.add_sub_cancel, hget k (Nat.lt_succ_self k)]
    exact hl
  · rw [Nat.add_sub_cancel] at hj
    rw [hget j (by omega)] at hl'
    exact hbefore j hj l' hl'

/-- A source is rejected exactly if one of its lines is rejected on its own, and for the first of
them. Whatever follows the line feed of this line, the error is the same, and it is found before
anything behind the line feed is read. -/
theorem ofSource_blames_first_faulty_line (s : Source) :
    (∀ e, ofSource s = .error e → ∃ (n : Nat) (f : LineFault), e = f.onLine n) ∧
    (∀ (n : Nat) (f : LineFault), ofSource s = .error (f.onLine n) ↔
      1 ≤ n ∧ (∃ line, s.lines[n - 1]? = some line ∧ ofSource line = .error (f.onLine 1)) ∧
        ∀ k < n - 1, ∀ line, s.lines[k]? = some line → ∃ p, ofSource line = .ok p) ∧
    ∀ (n : Nat) (f : LineFault) (line : Source), ofSource s = .error (f.onLine n) →
      s.lines[n - 1]? = some line → line.getLast? = some (.byte 10) →
        (∃ rest, s = s.firstLines n ++ rest) ∧
        ∀ other : Source, ofSource (s.firstLines n ++ other) = .error (f.onLine n) ∧
          ∃ last, pull (.ofSource (s.firstLines n ++ other)) = (.error (f.onLine n), last) ∧
            last.source = other := by
  refine ⟨fun e => exists_onLine_of_ofSource, fun n f => ofSource_eq_onLine_iff, ?_⟩
  intro n f line herror hline hlast
  refine ⟨⟨_, source_of_pull_ofSource herror⟩, fun other => ?_⟩
  obtain ⟨hlines, hother⟩ := ofSource_firstLines_append herror hline hlast other
  have hleft := source_of_pull_ofSource hother
  have hsame : Source.firstLines (s.firstLines n ++ other) n = s.firstLines n := by
    have hlt := (List.getElem?_eq_some_iff.mp hline).1
    have hlength : (s.lines.take n).length = n := by
      rw [List.length_take]
      omega
    rw [Source.firstLines, hlines, List.take_left' hlength, Source.firstLines]
  rw [hsame] at hleft
  refine ⟨hother, _, Prod.ext ?_ rfl, (List.append_cancel_left hleft).symm⟩
  rw [pull_eq_ofCursor]
  exact hother

/-- A fault in the second line is found before a third line that cannot be read. -/
theorem rejected_for_second_line :
    let s := Source.ofText ['\n', '2', 'x', '\n', '#']
    ofSource s = .error (.lexical 2 (.invalidNumber ['2'] 'x')) ∧
      ofSource (s.firstLines 2 ++ [.byte 255, .failure "lost"]) =
        .error (.lexical 2 (.invalidNumber ['2'] 'x')) := by
  intro s
  have herror : ofSource s =
      .error (LineFault.onLine 2 (.lexical (.invalidNumber ['2'] 'x'))) := by cbv
  have hline : s.lines[2 - 1]? = some (.ofText ['2', 'x', '\n']) := by decide
  obtain ⟨_, hother⟩ :=
    (ofSource_blames_first_faulty_line s).2.2 2 _ _ herror hline (by decide)
  exact ⟨herror, (hother [.byte 255, .failure "lost"]).1⟩

end Program

end RandomAccessMachine
