import Mathlib
import RandomAccessMachine.Proofs.Assembly.LineStatement
import RandomAccessMachine.Proofs.Machine.Attempts

/-!
# More lines and more input

A program may be continued with lines that do nothing, and its input with
further values. A run that halts still does, with the same value and the same
registers: where the program ended before, the machine now walks through the
new lines.

## Implementation notes

Only steps that succeed are kept by the continuation. A step that fails may
succeed in the continued machine, since more inputs and lines can be named.
-/

namespace RandomAccessMachine

/-- The program with this many lines behind its last one that do nothing. -/
def Program.continued (p : Program) (k : Nat) : Program :=
  ⟨p.instructions ++ Array.ofFn fun j : Fin k => ⟨.pass, .absent, p.lineCount + j + 1⟩⟩

/-- The input with further values behind its last one. -/
def Input.continued (input : Input) (more : List Word) : Input := ⟨input.values ++ more⟩

/-- The machine with a continued program and a continued input. -/
def Machine.continued (m : Machine) (k : Nat) (more : List Word) : Machine :=
  { m with program := m.program.continued k, input := m.input.continued more }

namespace Program

variable {p : Program} {k line : Nat}

@[simp] theorem lineCount_continued (p : Program) (k : Nat) :
    (p.continued k).lineCount = p.lineCount + k := by
  simp [continued, lineCount]

/-- The lines of the program stay where they are. -/
theorem get?_continued_of_le (h : line ≤ p.lineCount) :
    (p.continued k).get? line = p.get? line := by
  cases line with
  | zero => rfl
  | succ n =>
      have hn : n < p.instructions.size := h
      rw [get?_succ, get?_succ, continued, Array.getElem?_append_left hn]

/-- The lines behind the program do nothing. -/
theorem get?_continued_of_lt (h : p.lineCount < line) (hle : line ≤ p.lineCount + k) :
    (p.continued k).get? line = some ⟨.pass, .absent, line⟩ := by
  obtain ⟨j, rfl⟩ := Nat.exists_eq_add_of_lt h
  have hj : j < k := by omega
  have hsize : p.instructions.size ≤ p.lineCount + j := Nat.le_add_right _ j
  rw [get?_succ, continued, Array.getElem?_append_right hsize]
  simp [lineCount, hj]

end Program

/-- An input register keeps its value. -/
theorem Input.get?_continued {input : Input} {index value : Word} {more : List Word}
    (h : input.get? index = some value) : (input.continued more).get? index = some value := by
  unfold get? at h ⊢
  split at h
  · rename_i n _
    have hn : n < input.values.length := (List.getElem?_eq_some_iff.mp h).1
    exact (List.getElem?_append_left hn).trans h
  · cases h

namespace Machine

variable {m next final : Machine} {k : Nat} {more : List Word} {mnemonic : Mnemonic}
  {operand : Operand} {value : Word} {i : Instruction}

@[simp] theorem fetch_continued (m : Machine) (k : Nat) (more : List Word) (operand : Operand) :
    (m.continued k more).fetch operand = m.fetch operand := by
  cases operand <;> rfl

theorem store_continued (m : Machine) (k : Nat) (more : List Word) (operand : Operand) :
    (m.continued k more).store operand = (m.store operand).continued k more := by
  have haddress : (m.continued k more).storeAddress? operand = m.storeAddress? operand := by
    cases operand <;> rfl
  unfold store
  rw [haddress]
  split <;> rfl

theorem branch_continued (m : Machine) (k : Nat) (more : List Word) (taken : Bool) (line : Nat) :
    (m.continued k more).branch taken line = (m.branch taken line).continued k more := by
  cases taken <;> rfl

theorem inputValue_continued (h : m.inputValue operand = .ok value) :
    (m.continued k more).inputValue operand = .ok value := by
  have hindex : (m.continued k more).inputIndex operand = m.inputIndex operand := by
    cases operand <;> rfl
  unfold inputValue at h ⊢
  rw [hindex]
  split at h
  · cases h
  · rename_i index _
    split at h
    · rename_i found hget
      have hmore : (m.continued k more).input.get? index = some found :=
        Input.get?_continued hget
      simp only [hmore]
      exact h
    · cases h

theorem jumpTarget_continued {line : Nat} (h : m.jumpTarget operand = .ok line) :
    (m.continued k more).jumpTarget operand = .ok line := by
  have hcount : (m.continued k more).program.lineCount = m.program.lineCount + k :=
    Program.lineCount_continued m.program k
  unfold jumpTarget at h ⊢
  split at h
  · split at h
    · rename_i target _ htarget
      have hle : target ≤ (m.continued k more).program.lineCount := by omega
      rw [if_pos hle, h]
    · cases h
  · cases h

/-- An instruction that succeeds has the same effect in the continued machine. -/
theorem effect_continued (h : m.effect mnemonic operand = .ok next) :
    (m.continued k more).effect mnemonic operand = .ok (next.continued k more) := by
  cases mnemonic with
  | read =>
      obtain ⟨value, hvalue, rfl⟩ := Except.map_eq_ok_iff.mp h
      rw [effect, inputValue_continued hvalue]
      rfl
  | jump | jpos | jzero | jneg =>
      obtain ⟨line, hline, rfl⟩ := Except.map_eq_ok_iff.mp h
      rw [effect, jumpTarget_continued hline, ← branch_continued]
      rfl
  | store =>
      rw [← Except.ok.inj h, ← store_continued]
      rfl
  | load | add | sub =>
      rw [← Except.ok.inj h, effect, fetch_continued]
      rfl
  | half | halt | pass =>
      rw [← Except.ok.inj h]
      rfl

/-- Where there is an instruction, the continued machine has it too. -/
theorem instruction?_continued (h : m.instruction? = some i) :
    (m.continued k more).instruction? = some i := by
  have hline := (Program.get?_isSome_iff.mp (Option.isSome_of_eq_some h)).2
  rw [← h]
  exact Program.get?_continued_of_le hline

/-- A step that executes an instruction is the same in the continued machine. -/
theorem step_continued (hi : m.instruction? = some i) (h : m.step = .ok next) :
    (m.continued k more).step = .ok (next.continued k more) := by
  rw [step_of_instruction? hi, perform_eq_ok_iff] at h
  rw [step_of_instruction? (instruction?_continued hi), perform_eq_ok_iff]
  exact effect_continued h

theorem instruction?_continued_eq_none (h : m.program.lineCount + k < m.pc) :
    (m.continued k more).instruction? = none := by
  rw [instruction?_eq_none_iff, continued, Program.lineCount_continued]
  exact .inr h

/-- Behind its last line the continued machine walks through the new lines, at most this many, and
halts with the registers that it has. -/
theorem exists_returns_of_behind (n : Nat) (h : m.program.lineCount < m.pc)
    (hn : m.program.lineCount + k < m.pc + n) :
    ∃ final, (m.continued k more).Returns m.accumulator final ∧
      final.registers = m.registers := by
  induction n generalizing m with
  | zero =>
      have hnone : (m.continued k more).instruction? = none := instruction?_continued_eq_none hn
      exact ⟨_, returns_of_instruction?_eq_none hnone, rfl⟩
  | succ n ih =>
      by_cases hle : m.pc ≤ m.program.lineCount + k
      · have hpass : (m.continued k more).instruction? = some ⟨.pass, .absent, m.pc⟩ :=
          Program.get?_continued_of_lt h hle
        have hstep : (m.continued k more).step = .ok (m.advance.continued k more) :=
          step_of_instruction? hpass
        have hnext : m.program.lineCount < m.pc + 1 := by omega
        have hleft : m.program.lineCount + k < m.pc + 1 + n := by omega
        obtain ⟨final, hfinal, hregisters⟩ := ih (m := m.advance) hnext hleft
        have hrun := Returns.of_step (not_isHalted_of_instruction? hpass) hstep hfinal
        exact ⟨final, hrun, hregisters⟩
      · have hnone : (m.continued k more).instruction? = none :=
          instruction?_continued_eq_none (Nat.lt_of_not_le hle)
        exact ⟨_, returns_of_instruction?_eq_none hnone, rfl⟩

/-- From a place without an instruction the continued machine gets to a halt, and it keeps its
registers. -/
theorem exists_returns_of_instruction?_eq_none (h : m.instruction? = none) (k : Nat)
    (more : List Word) :
    ∃ final, (m.continued k more).Returns m.accumulator final ∧
      final.registers = m.registers := by
  obtain hpc | hbehind := instruction?_eq_none_iff.mp h
  · have hhalt : (m.continued k more).isHalted = true := by simp [isHalted, continued, hpc]
    exact ⟨_, .of_isHalted hhalt, rfl⟩
  · apply exists_returns_of_behind (m.program.lineCount + k + 1) hbehind
    omega

/-- A run that halts also halts in the continued machine, with the same value and the same
registers. -/
theorem Returns.continued (h : m.Returns value final) (k : Nat) (more : List Word) :
    ∃ final', (m.continued k more).Returns value final' ∧
      final'.registers = final.registers := by
  obtain ⟨bound, hrun⟩ := h
  induction bound generalizing m with
  | zero =>
      by_cases hh : m.isHalted = true
      · rw [run_of_isHalted hh] at hrun
        cases hrun
        exact ⟨_, .of_isHalted hh, rfl⟩
      · rw [run_zero_of_not_isHalted hh] at hrun
        cases hrun
  | succ bound ih =>
      by_cases hh : m.isHalted = true
      · rw [run_of_isHalted hh] at hrun
        cases hrun
        exact ⟨_, .of_isHalted hh, rfl⟩
      · cases hs : m.step with
        | error e =>
            rw [run_succ_of_error hh hs] at hrun
            cases hrun
        | ok next =>
            rw [run_succ_of_ok hh hs] at hrun
            cases hi : m.instruction? with
            | none =>
                -- the run ends here, and the continued one walks on
                obtain rfl := Except.ok.inj ((step_of_instruction?_eq_none hi).symm.trans hs)
                rw [run_of_isHalted (m := m.halt) rfl] at hrun
                cases hrun
                exact exists_returns_of_instruction?_eq_none hi k more
            | some i =>
                obtain ⟨final', hfinal, hregisters⟩ := ih hrun
                exact ⟨final', .of_step hh (step_continued hi hs) hfinal, hregisters⟩

end Machine

namespace Program

/-- A text of complete lines with further lines that are blank or comments is read as the program
that is continued with as many lines. -/
theorem ofSource_continued {text : String} {p : Program} {remarks : List (List Char)}
    (hcomplete : text.toList = [] ∨ text.toList.getLast? = some '\n')
    (hok : ofSource (.ofString text) = .ok p)
    (hremarks : ∀ line ∈ remarks, '\n' ∉ line ∧ IsRemark line) :
    ofSource (.ofString (text ++ String.ofList (remarks.flatMap (· ++ ['\n'])))) =
      .ok (p.continued remarks.length) := by
  have hlines : textLines (text ++ String.ofList (remarks.flatMap (· ++ ['\n']))).toList =
      textLines text.toList ++ remarks := by
    rw [String.toList_append, String.toList_ofList, ← flatMap_textLines_of_complete hcomplete,
      ← List.flatMap_append, textLines_flatMap, textLines_flatMap]
    · exact fun line hline => lineFeed_notMem_of_mem_textLines hline
    · intro line hline
      obtain hline | hline := List.mem_append.mp hline
      · exact lineFeed_notMem_of_mem_textLines hline
      · exact (hremarks line hline).1
  obtain ⟨hcount, hall⟩ := ofSource_ofString_eq_ok_iff.mp hok
  rw [ofSource_ofString_eq_ok_iff, hlines, lineCount_continued, hcount, List.length_append]
  refine ⟨rfl, fun n line hline => ?_⟩
  by_cases hn : n < (textLines text.toList).length
  · rw [List.getElem?_append_left hn] at hline
    rw [get?_continued_of_le (hcount ▸ hn)]
    exact hall n line hline
  · rw [List.getElem?_append_right (Nat.le_of_not_lt hn)] at hline
    have hlast : n - (textLines text.toList).length < remarks.length :=
      (List.getElem?_eq_some_iff.mp hline).1
    obtain ⟨hfeed, hremark⟩ := hremarks line (List.mem_of_getElem? hline)
    have hget : (p.continued remarks.length).get? (n + 1) = some ⟨.pass, .absent, n + 1⟩ :=
      get?_continued_of_lt (by omega) (by omega)
    exact ⟨_, Expectation.onLine_of_isRemark hfeed hremark, hget⟩

/-- If a program halts on an input, then it halts with the same value and the same registers when
lines that do nothing are put behind it and values behind its input. Blank lines and comments
behind a text of complete lines are such lines. -/
theorem returns_with_more_lines_and_input {p : Program} {input : Input} {value : Word}
    {final : Machine} (h : (Machine.start p input).Returns value final) (k : Nat)
    (more : List Word) :
    (∃ final', (Machine.start (p.continued k) (input.continued more)).Returns value final' ∧
      final'.registers = final.registers) ∧
    ∀ (text : String) (remarks : List (List Char)),
      (text.toList = [] ∨ text.toList.getLast? = some '\n') → ofSource (.ofString text) = .ok p →
      remarks.length = k → (∀ line ∈ remarks, '\n' ∉ line ∧ IsRemark line) →
        ofSource (.ofString (text ++ String.ofList (remarks.flatMap (· ++ ['\n'])))) =
          .ok (p.continued k) := by
  refine ⟨h.continued k more, ?_⟩
  rintro text remarks hcomplete hok rfl hremarks
  exact ofSource_continued hcomplete hok hremarks

/-- A program that reads its second input and ends with its only line, and the same with a blank
line and a comment behind it on a longer input. -/
theorem returns_with_more_lines_and_input_behind_read :
    let text := "READ 2\n"
    let remarks := [[], [' ', '#', '9']]
    let p := ofList [⟨.read, .direct 2, 1⟩]
    let q := ofList [⟨.read, .direct 2, 1⟩, ⟨.pass, .absent, 2⟩, ⟨.pass, .absent, 3⟩]
    let m := Machine.start p ⟨[5, 7]⟩
    m.Returns 7 (m.put 7).halt ∧
      (∃ final', (Machine.start q ⟨[5, 7, 9]⟩).Returns 7 final' ∧
        final'.registers = (m.put 7).registers) ∧
      ofSource (.ofString text) = .ok p ∧ (∀ line ∈ remarks, '\n' ∉ line ∧ IsRemark line) ∧
      ofSource (.ofString (text ++ String.ofList (remarks.flatMap (· ++ ['\n'])))) = .ok q := by
  intro text remarks p q m
  have hreturns : m.Returns 7 (m.put 7).halt := ⟨2, rfl⟩
  have hok : ofSource (.ofString text) = .ok p := by cbv
  have hblank : IsRemark [] := ⟨[], [], isGap_nil, .inl rfl, rfl⟩
  have hcomment : IsRemark [' ', '#', '9'] :=
    ⟨[' '], ['#', '9'], isGap_cons_iff.mpr ⟨by decide, isGap_nil⟩, .inr ⟨['9'], rfl⟩, rfl⟩
  have hremarks : ∀ line ∈ remarks, '\n' ∉ line ∧ IsRemark line := by
    simp [remarks, hblank, hcomment]
  obtain ⟨hmore, htext⟩ := returns_with_more_lines_and_input hreturns 2 [9]
  exact ⟨hreturns, hmore, hok, hremarks,
    htext text remarks (.inr (by decide)) hok rfl hremarks⟩

end Program

end RandomAccessMachine
