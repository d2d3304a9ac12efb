import RandomAccessMachine.Proofs.Assembly.LineStatement
import RandomAccessMachine.Proofs.Source.DeliveredLines

/-!
# What each line of a source says

A line says one instruction or has one fault, and its number is all that the
lines in front of it add. So a source is read as a program exactly if each of
its lines says an instruction, and otherwise its first faulty line is blamed.

## Implementation notes

The statements are about any source: lines that are not in UTF-8 and lines on
which reading fails are faulty lines.
-/

namespace RandomAccessMachine

/-- What is wrong with a line. -/
inductive LineFault
  /-- Some of its characters are no token, or it could not be read. -/
  | lexical (fault : LexicalFault)
  /-- Its tokens are no statement. -/
  | statement (fault : StatementFault)
  deriving DecidableEq

/-- The error that blames the line with this number. -/
def LineFault.onLine (n : Nat) : LineFault → AssemblyError
  | .lexical fault => .lexical n fault
  | .statement fault => .statement n fault

theorem LineFault.onLine_injective {n k : Nat} {f g : LineFault} (h : f.onLine n = g.onLine k) :
    n = k ∧ f = g := by
  cases f <;> cases g <;> simp_all [onLine]

/-- What a line comes to when its number is left out. -/
inductive Verdict
  | accepted (mnemonic : Mnemonic) (operand : Operand)
  | refused (fault : LineFault)
  deriving DecidableEq

/-- What reading the line with this number gives. -/
def Verdict.onLine (n : Nat) : Verdict → Except AssemblyError (List Instruction)
  | .accepted m o => .ok [⟨m, o, n⟩]
  | .refused fault => .error (fault.onLine n)

/-- A line gives the same with any number. -/
theorem Expectation.exists_verdict {lexemes : List Lexeme} (h : Lexeme.IsLine lexemes)
    (e : Expectation) :
    ∃ v : Verdict, ∀ n, e.instructions (lexemes.map (Finding.mk n)) = v.onLine n := by
  induction h generalizing e with
  | lineEnd =>
      cases hc : e.completed? with
      | none =>
          refine ⟨.refused (.statement (e.fault .newline)), fun n => ?_⟩
          simp [instructions, feed, hc, Verdict.onLine, LineFault.onLine]
      | some mo =>
          refine ⟨.accepted mo.1 mo.2, fun n => ?_⟩
          simp [instructions, feed, hc, mnemonic?, Except.map, Verdict.onLine]
  | @cons l tail hne _ ih =>
      cases l with
      | fault fault => exact ⟨.refused (.lexical fault), fun n => rfl⟩
      | token t =>
          have ht : t ≠ .newline := fun heq => hne (heq ▸ rfl)
          cases hnext : e.next? t with
          | none =>
              refine ⟨.refused (.statement (e.fault t)), fun n => ?_⟩
              simp [instructions, feed, ht, hnext, Verdict.onLine, LineFault.onLine]
          | some next =>
              obtain ⟨v, hv⟩ := ih next
              refine ⟨v, fun n => ?_⟩
              simp [instructions, feed, ht, hnext, hv n]

namespace Source

/-- The instructions that reading a line with this number gives. -/
def LineRead.instructions (n : Nat) : LineRead → Except AssemblyError (List Instruction)
  | .line chars => Expectation.name.instructions ((Lexeme.ofLine chars).map (Finding.mk n))
  | .failed reason => .error (.lexical n (.unreadable reason))
  | .ended => .ok []

/-- The line comes to this, whatever its number is. -/
def Says (line : Source) (v : Verdict) : Prop := ∀ n, line.readLine.1.instructions n = v.onLine n

variable {line rest : Source} {m : Mnemonic} {o : Operand} {f : LineFault}

/-- Every line comes to something. -/
theorem FirstLine.exists_verdict (h : FirstLine false line rest) : ∃ v, line.Says v := by
  unfold Says
  cases hr : line.readLine.1 with
  | line chars =>
      obtain ⟨body, hbody, rfl⟩ := exists_body_of_readLine hr
      exact Expectation.exists_verdict (Lexeme.isLine_ofLine hbody) .name
  | failed reason => exact ⟨.refused (.lexical (.unreadable reason)), fun n => rfl⟩
  | ended => exact absurd hr h.readLine_ne_ended

theorem exists_firstLine_of_mem {s line : Source} (h : line ∈ s.lines) :
    ∃ rest, FirstLine false line rest := by
  induction s using lines_induction with
  | ended s hnil _ => simp [hnil] at h
  | line first rest hfirst ih =>
      rw [hfirst.lines] at h
      obtain rfl | h := List.mem_cons.mp h
      · exact ⟨rest, hfirst⟩
      · exact ih h

/-- What lines say one after the other, where the first line has the number after this one. -/
def instructionsOf (n : Nat) : List Source → Except AssemblyError (List Instruction)
  | [] => .ok []
  | line :: lines =>
      (line.readLine.1.instructions (n + 1)).bind fun is =>
        (instructionsOf (n + 1) lines).map (is ++ ·)

end Source

namespace Cursor

/-- A source is read line by line. -/
theorem instructions_findings (s : Source) (n : Nat) :
    Expectation.name.instructions (findings ⟨s, [], n, false⟩) =
      Source.instructionsOf n s.lines := by
  induction s using Source.lines_induction generalizing n with
  | ended s hnil hended =>
      rw [findings_of_ended (Prod.ext hended rfl), hnil]
      rfl
  | line line rest hfirst ih =>
      have hread := hfirst.readLine
      rw [hfirst.lines, Source.instructionsOf]
      cases hr : line.readLine.1 with
      | line chars =>
          rw [hr] at hread
          obtain ⟨body, hbody, rfl⟩ := Source.exists_body_of_readLine hr
          rw [findings_of_lineRead hread,
            Expectation.instructions_append (Lexeme.isLine_ofLine hbody), ih (n + 1)]
          rfl
      | failed reason =>
          rw [hr] at hread
          rw [findings_of_failed hread]
          rfl
      | ended => exact absurd hr hfirst.readLine_ne_ended

end Cursor

namespace Source

variable {line : Source} {lines : List Source} {m : Mnemonic} {o : Operand} {f : LineFault}
  {n : Nat} {is : List Instruction} {e : AssemblyError}

/-- A line comes to one thing only. -/
theorem Says.unique {v w : Verdict} (hv : line.Says v) (hw : line.Says w) : v = w := by
  have h := (hv 0).symm.trans (hw 0)
  cases v <;> cases w <;> simp [Verdict.onLine] at h
  · simp [h]
  · rw [(LineFault.onLine_injective h).2]

theorem instructionsOf_of_accepted (h : line.Says (.accepted m o)) :
    instructionsOf n (line :: lines) =
      (instructionsOf (n + 1) lines).map (⟨m, o, n + 1⟩ :: ·) := by
  rw [instructionsOf, h]
  rfl

theorem instructionsOf_of_refused (h : line.Says (.refused f)) :
    instructionsOf n (line :: lines) = .error (f.onLine (n + 1)) := by
  rw [instructionsOf, h]
  rfl

/-- Lines are accepted exactly if each of them is, and each gives the instruction with its
number. -/
theorem instructionsOf_eq_ok_iff (h : ∀ line ∈ lines, ∃ v, line.Says v) :
    instructionsOf n lines = .ok is ↔
      is.length = lines.length ∧ ∀ (k : Nat) (line : Source), lines[k]? = some line →
        ∃ m o, line.Says (.accepted m o) ∧ is[k]? = some ⟨m, o, n + k + 1⟩ := by
  induction lines generalizing n is with
  | nil => simp [instructionsOf, eq_comm]
  | cons line lines ih =>
      obtain ⟨⟨v, hv⟩, hlines⟩ := List.forall_mem_cons.mp h
      have hshift (k : Nat) : n + 1 + k + 1 = n + (k + 1) + 1 := by omega
      constructor
      · intro hok
        cases v with
        | refused f => simp [instructionsOf_of_refused hv] at hok
        | accepted m o =>
            rw [instructionsOf_of_accepted hv] at hok
            obtain ⟨rest, hrest, rfl⟩ := Except.map_eq_ok_iff.mp hok
            obtain ⟨hlength, hall⟩ := (ih hlines).mp hrest
            refine ⟨by simp [hlength], fun k l hk => ?_⟩
            cases k with
            | zero =>
                obtain rfl : line = l := by simpa using hk
                exact ⟨m, o, hv, rfl⟩
            | succ k =>
                rw [← hshift]
                exact hall k l hk
      · intro hgiven
        obtain ⟨hlength, hall⟩ := hgiven
        obtain ⟨m, o, hsays, hfirst⟩ := hall 0 line rfl
        cases is with
        | nil => simp at hfirst
        | cons i rest =>
            have hrest : instructionsOf (n + 1) lines = .ok rest := by
              refine (ih hlines).mpr ⟨by simpa using hlength, fun k l hk => ?_⟩
              rw [hshift]
              exact hall (k + 1) l hk
            obtain rfl : i = ⟨m, o, n + 1⟩ := by simpa using hfirst
            rw [instructionsOf_of_accepted hsays, hrest]
            rfl

/-- Lines are rejected exactly for the first one that is refused. -/
theorem instructionsOf_eq_error_iff (h : ∀ line ∈ lines, ∃ v, line.Says v) :
    instructionsOf n lines = .error e ↔
      ∃ (k : Nat) (line : Source) (f : LineFault), lines[k]? = some line ∧
        line.Says (.refused f) ∧ e = f.onLine (n + k + 1) ∧
          ∀ j < k, ∀ l : Source, lines[j]? = some l → ∃ m o, l.Says (.accepted m o) := by
  induction lines generalizing n with
  | nil => simp [instructionsOf]
  | cons line lines ih =>
      obtain ⟨⟨v, hv⟩, hlines⟩ := List.forall_mem_cons.mp h
      have hshift (k : Nat) : n + 1 + k + 1 = n + (k + 1) + 1 := by omega
      cases v with
      | refused f =>
          rw [instructionsOf_of_refused hv]
          constructor
          · intro herror
            refine ⟨0, line, f, rfl, hv, (Except.error.inj herror).symm, fun j hj => ?_⟩
            exact absurd hj (Nat.not_lt_zero j)
          · intro hgiven
            obtain ⟨k, l, g, hk, hg, rfl, hbefore⟩ := hgiven
            cases k with
            | zero =>
                obtain rfl : line = l := by simpa using hk
                cases hv.unique hg
                rfl
            | succ k =>
                obtain ⟨m, o, haccepted⟩ := hbefore 0 (Nat.succ_pos k) line rfl
                cases hv.unique haccepted
      | accepted m o =>
          have herror : instructionsOf n (line :: lines) = .error e ↔
              instructionsOf (n + 1) lines = .error e := by
            rw [instructionsOf_of_accepted hv, Except.map_eq_error_iff]
          rw [herror, ih hlines]
          constructor
          · intro hgiven
            obtain ⟨k, l, g, hk, hg, rfl, hbefore⟩ := hgiven
            refine ⟨k + 1, l, g, hk, hg, by rw [hshift], fun j hj l hl => ?_⟩
            cases j with
            | zero =>
                obtain rfl : line = l := by simpa using hl
                exact ⟨m, o, hv⟩
            | succ j => exact hbefore j (Nat.lt_of_succ_lt_succ hj) l hl
          · intro hgiven
            obtain ⟨k, l, g, hk, hg, rfl, hbefore⟩ := hgiven
            cases k with
            | zero =>
                obtain rfl : line = l := by simpa using hk
                cases hv.unique hg
            | succ k =>
                refine ⟨k, l, g, hk, hg, by rw [hshift], fun j hj l hl => ?_⟩
                exact hbefore (j + 1) (Nat.succ_lt_succ hj) l hl

/-- Each line of a source comes to something. -/
theorem exists_says_of_mem {s : Source} : ∀ line ∈ s.lines, ∃ v, line.Says v := by
  intro line hmem
  obtain ⟨rest, hfirst⟩ := exists_firstLine_of_mem hmem
  exact hfirst.exists_verdict

/-- Each instruction is what its line says, and it carries the number of this line. -/
theorem exists_line_of_instructionsOf {s : Source} {k : Nat} {i : Instruction}
    (h : instructionsOf n s.lines = .ok is) (hi : is[k]? = some i) :
    ∃ line, s.lines[k]? = some line ∧ line.Says (.accepted i.mnemonic i.operand) ∧
      i.line = n + k + 1 := by
  obtain ⟨hlength, hall⟩ := (instructionsOf_eq_ok_iff exists_says_of_mem).mp h
  have hk : k < s.lines.length := hlength ▸ (List.getElem?_eq_some_iff.mp hi).1
  obtain ⟨m, o, hsays, hsaid⟩ := hall k s.lines[k] (List.getElem?_eq_getElem hk)
  obtain rfl : i = ⟨m, o, n + k + 1⟩ := Option.some.inj (hi.symm.trans hsaid)
  exact ⟨_, List.getElem?_eq_getElem hk, hsays, rfl⟩

end Source

namespace Program

variable {s line : Source} {m : Mnemonic} {o : Operand} {f : LineFault}

/-- The program of a source holds what the lines of the source say. -/
theorem ofSource_eq_map (s : Source) :
    ofSource s = (Source.instructionsOf 0 s.lines).map ofList := by
  rw [ofSource, ofCursor, Cursor.ofSource, Cursor.instructions_findings]

theorem ofSource_eq_ok_iff {p : Program} :
    ofSource s = .ok p ↔ Source.instructionsOf 0 s.lines = .ok p.instructions.toList := by
  rw [ofSource_eq_map, map_ofList_eq_ok_iff]

theorem ofSource_eq_error_iff {e : AssemblyError} :
    ofSource s = .error e ↔ Source.instructionsOf 0 s.lines = .error e := by
  rw [ofSource_eq_map, Except.map_eq_error_iff]

/-- A line on its own is read as what it says. -/
theorem ofSource_of_verdict {v : Verdict} (h : line ∈ s.lines) (hv : line.Says v) :
    ofSource line = (v.onLine 1).map ofList := by
  obtain ⟨rest, hfirst⟩ := Source.exists_firstLine_of_mem h
  have hlines := hfirst.alone.lines
  rw [List.append_nil] at hlines
  rw [ofSource_eq_map, hlines, Source.instructionsOf, hv]
  cases v <;> rfl

/-- A line says an instruction exactly if it is a program of this instruction on its own. -/
theorem says_accepted_iff (h : line ∈ s.lines) :
    line.Says (.accepted m o) ↔ ofSource line = .ok (ofList [⟨m, o, 1⟩]) := by
  constructor
  · exact ofSource_of_verdict h
  · intro hok
    obtain ⟨v, hv⟩ := Source.exists_says_of_mem line h
    rw [ofSource_of_verdict h hv] at hok
    cases v with
    | accepted m' o' =>
        have heq : m' = m ∧ o' = o := by simpa [Verdict.onLine, Except.map, ofList] using hok
        obtain ⟨rfl, rfl⟩ := heq
        exact hv
    | refused f => cases hok

/-- A line has a fault exactly if it is rejected for it on its own. -/
theorem says_refused_iff (h : line ∈ s.lines) :
    line.Says (.refused f) ↔ ofSource line = .error (f.onLine 1) := by
  constructor
  · exact ofSource_of_verdict h
  · intro herror
    obtain ⟨v, hv⟩ := Source.exists_says_of_mem line h
    rw [ofSource_of_verdict h hv] at herror
    cases v with
    | accepted m o => cases herror
    | refused g =>
        obtain ⟨_, rfl⟩ := LineFault.onLine_injective (Except.error.inj herror)
        exact hv

/-- Each instruction of a program is what its line says on its own. -/
theorem exists_line_of_getElem? {p : Program} {k : Nat} {i : Instruction} (h : ofSource s = .ok p)
    (hi : p.instructions[k]? = some i) :
    ∃ line, s.lines[k]? = some line ∧ ofSource line = .ok (ofList [{ i with line := 1 }]) := by
  rw [ofSource_eq_ok_iff] at h
  rw [← Array.getElem?_toList] at hi
  obtain ⟨line, hline, hsays, _⟩ := Source.exists_line_of_instructionsOf h hi
  exact ⟨line, hline, (says_accepted_iff (List.mem_of_getElem? hline)).mp hsays⟩

end Program

end RandomAccessMachine
