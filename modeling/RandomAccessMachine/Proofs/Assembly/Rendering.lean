import RandomAccessMachine.Proofs.Assembly.LineAlignment
import RandomAccessMachine.Proofs.Assembly.LineGrammar
import RandomAccessMachine.Proofs.Assembly.Writable
import RandomAccessMachine.Proofs.Text.Signed

/-!
# Rendering programs

A program is rendered as the texts of its instructions, each on a line of its
own. Such a line spells its instruction if the operand can be written, and
otherwise it is rejected. So rendering and reading are inverse on exactly the
programs that can be read at all.

## Implementation notes

The characters of a line that is rendered are known, so each of its tokens is
either accepted or refused, and the equivalences below follow the line from
its mnemonic to its end. They hold for every result of the line and therefore
also say that nothing else is read from it.
-/

namespace RandomAccessMachine

section Numbers

variable {x : Word}

/-- A number without a sign is written in digits that denote it. -/
theorem numeral_text (h : 0 ≤ x.toInt) : Numeral (Word.text x).toList x := by
  obtain ⟨n, hn⟩ := Int.eq_ofNat_of_zero_le h
  have htext : Word.text x = Decimal.natural n := by
    rw [Word.text, hn]
    rfl
  have hbound : x.toInt < 2 ^ 63 := x.toInt_lt
  rw [htext]
  refine ⟨Decimal.natural_ne_nil n, fun c hc => Decimal.isDigit_of_mem_natural hc, ?_, ?_⟩
  · rw [Decimal.value_natural]
    omega
  · rw [Decimal.value_natural]
    exact hn

/-- A negative number is written with a sign. -/
theorem Word.exists_text_of_neg (h : x.toInt < 0) :
    ∃ n, (Word.text x).toList = '-' :: (Decimal.natural n).toList := by
  cases hx : x.toInt with
  | ofNat n =>
      rw [hx] at h
      exact absurd h (Int.not_lt.mpr (Int.natCast_nonneg n))
  | negSucc n =>
      refine ⟨n + 1, ?_⟩
      rw [Word.text, hx, Decimal.integer, String.toList_append]
      rfl

theorem lineFeed_notMem_word (x : Word) : '\n' ∉ (Word.text x).toList :=
  (Decimal.denotes_integer x.toInt).notMem rfl

end Numbers

namespace Expectation

variable {e next : Expectation} {n : Nat} {m : Mnemonic} {o : Operand} {x : Word}
  {body rest tail : List Char} {is : List Instruction} {P : Prop}

/-- A line that begins with a token is accepted if the token fits and the rest is accepted. -/
theorem onLine_token_iff {t : Token} (ht : t ≠ .newline) (hlead : TokenLead body t rest)
    (hnext : ∀ e', e.next? t = some e' ↔ P ∧ e' = next) :
    e.onLine n body = .ok is ↔ P ∧ next.onLine n rest = .ok is := by
  rw [onLine_of_tokenLead ht hlead]
  cases h : e.next? t with
  | none =>
      have hP : ¬ P := fun hP => by simpa [h] using (hnext next).mpr ⟨hP, rfl⟩
      simp [hP]
  | some e' =>
      obtain ⟨hP, rfl⟩ := (hnext e').mp h
      exact (and_iff_right hP).symm

/-- A line that begins with the text of a number is accepted if the number has no sign, it fits,
and the rest is accepted. -/
theorem onLine_word_iff (hafter : AfterNumber tail rest)
    (hnext : ∀ e', e.next? (.number x) = some e' ↔ P ∧ e' = next) :
    e.onLine n ((Word.text x).toList ++ tail) = .ok is ↔
      (P ∧ 0 ≤ x.toInt) ∧ next.onLine n rest = .ok is := by
  by_cases h : 0 ≤ x.toInt
  · have hlead : TokenLead ((Word.text x).toList ++ tail) (.number x) rest :=
      .number isGap_nil (numeral_text h) hafter
    rw [onLine_token_iff (by simp) hlead hnext, and_iff_left h]
  · obtain ⟨digits, hdigits⟩ := Word.exists_text_of_neg (Int.not_le.mp h)
    -- no lexeme begins with the sign
    have hfault : (Lexeme.first ((Word.text x).toList ++ tail ++ ['\n'])).1 =
        .fault (.invalidSymbol '-') := by
      rw [hdigits, List.cons_append, List.cons_append,
        Lexeme.first_other rfl (by decide) (by decide) (by decide) (by decide)]
    rw [onLine_of_fault hfault]
    simp [h]

/-- Nothing more is needed where a statement is complete. -/
theorem onLine_lineEnd_nil : (lineEnd m o).onLine n [] = .ok is ↔ is = [⟨m, o, n⟩] := by
  rw [onLine_lineEnd_iff (by simp)]
  exact and_iff_right isRemark_nil

theorem next?_afterName_number :
    (afterName m).next? (.number x) = some next ↔
      m.argumentClass ≠ .noArgument ∧ next = .lineEnd m (.direct x) := by
  by_cases h : m.argumentClass = .noArgument
  · simp [afterName_of_noArgument h, next?, h]
  · simp [afterName_of_argument h, next?, h, eq_comm]

theorem next?_afterName_leftParen :
    (afterName m).next? .leftParen = some next ↔
      m.argumentClass.takesPointer = true ∧ next = .address m := by
  by_cases h : m.argumentClass = .noArgument
  · simp [afterName_of_noArgument h, next?, h, ArgumentClass.takesPointer]
  · rw [afterName_of_argument h, next?_argument_leftParen, takesPointer_iff]

theorem next?_afterName_equals :
    (afterName m).next? .equals = some next ↔
      m.argumentClass.takesConstant = true ∧ next = .constant m := by
  by_cases h : m.argumentClass = .noArgument
  · simp [afterName_of_noArgument h, next?, h, ArgumentClass.takesConstant]
  · rw [afterName_of_argument h, next?_argument_equals, takesConstant_iff]

theorem onLine_text_absent_iff :
    (afterName m).onLine n Operand.absent.text.toList = .ok is ↔
      Writable m .absent ∧ is = [⟨m, .absent, n⟩] := by
  change (afterName m).onLine n [] = .ok is ↔ _
  rw [writable_absent_iff]
  by_cases h : m.argumentClass = .noArgument
  · rw [afterName_of_noArgument h, onLine_lineEnd_nil, and_iff_right h]
  · rw [afterName_of_argument h, onLine_of_isRemark (by simp) isRemark_nil]
    simp [completed?, h]

theorem onLine_text_direct_iff :
    (afterName m).onLine n (Operand.direct x).text.toList = .ok is ↔
      Writable m (.direct x) ∧ is = [⟨m, .direct x, n⟩] := by
  rw [writable_direct_iff, ← onLine_lineEnd_nil,
    ← onLine_word_iff .lineEnd fun _ => next?_afterName_number, List.append_nil]
  rfl

theorem onLine_text_indirect_iff :
    (afterName m).onLine n (Operand.indirect x).text.toList = .ok is ↔
      Writable m (.indirect x) ∧ is = [⟨m, .indirect x, n⟩] := by
  have htext : (Operand.indirect x).text.toList = '(' :: ((Word.text x).toList ++ [')']) := by
    simp [Operand.text]
  have hopen : TokenLead (Operand.indirect x).text.toList .leftParen
      ((Word.text x).toList ++ [')']) := htext ▸ .symbol isGap_nil rfl _
  have hclose : TokenLead [')'] .rightParen [] := .symbol isGap_nil rfl []
  calc (afterName m).onLine n (Operand.indirect x).text.toList = .ok is
      ↔ m.argumentClass.takesPointer = true ∧
          (address m).onLine n ((Word.text x).toList ++ [')']) = .ok is :=
        onLine_token_iff (by simp) hopen fun _ => next?_afterName_leftParen
    _ ↔ m.argumentClass.takesPointer = true ∧ (True ∧ 0 ≤ x.toInt) ∧
          (closeParen m x).onLine n [')'] = .ok is :=
        and_congr_right fun _ =>
          onLine_word_iff (.closeParen []) fun _ => by simp [next?, eq_comm]
    _ ↔ m.argumentClass.takesPointer = true ∧ (True ∧ 0 ≤ x.toInt) ∧ True ∧
          (lineEnd m (.indirect x)).onLine n [] = .ok is :=
        and_congr_right fun _ => and_congr_right fun _ =>
          onLine_token_iff (by simp) hclose fun _ => by simp [next?, eq_comm]
    _ ↔ Writable m (.indirect x) ∧ is = [⟨m, .indirect x, n⟩] := by
        rw [onLine_lineEnd_nil, writable_indirect_iff]
        simp only [true_and, and_assoc]

theorem onLine_text_constant_iff :
    (afterName m).onLine n (Operand.constant x).text.toList = .ok is ↔
      Writable m (.constant x) ∧ is = [⟨m, .constant x, n⟩] := by
  have htext : (Operand.constant x).text.toList = '=' :: ((Word.text x).toList ++ []) := by
    simp [Operand.text]
  have hequals : TokenLead (Operand.constant x).text.toList .equals
      ((Word.text x).toList ++ []) := htext ▸ .symbol isGap_nil rfl _
  calc (afterName m).onLine n (Operand.constant x).text.toList = .ok is
      ↔ m.argumentClass.takesConstant = true ∧
          (constant m).onLine n ((Word.text x).toList ++ []) = .ok is :=
        onLine_token_iff (by simp) hequals fun _ => next?_afterName_equals
    _ ↔ m.argumentClass.takesConstant = true ∧ (True ∧ 0 ≤ x.toInt) ∧
          (lineEnd m (.constant x)).onLine n [] = .ok is :=
        and_congr_right fun _ =>
          onLine_word_iff .lineEnd fun _ => by simp [next?, eq_comm]
    _ ↔ Writable m (.constant x) ∧ is = [⟨m, .constant x, n⟩] := by
        rw [onLine_lineEnd_nil, writable_constant_iff]
        simp only [true_and, and_assoc]

/-- The text of an operand is accepted behind a mnemonic if the operand can be written there. -/
theorem onLine_operandText_iff :
    (afterName m).onLine n o.text.toList = .ok is ↔ Writable m o ∧ is = [⟨m, o, n⟩] := by
  cases o with
  | absent => exact onLine_text_absent_iff
  | direct x => exact onLine_text_direct_iff
  | indirect x => exact onLine_text_indirect_iff
  | constant x => exact onLine_text_constant_iff

end Expectation

namespace Instruction

/-- The text of an instruction is its mnemonic and, behind a blank if there is one, its operand. -/
theorem exists_toList_text (i : Instruction) :
    ∃ tail, i.text.toList = i.mnemonic.name.toList ++ tail ∧
      AfterName tail i.operand.text.toList := by
  obtain ⟨m, o, line⟩ := i
  have hspaced : AfterName (' ' :: o.text.toList) o.text.toList :=
    .blank (by decide) (by decide) _
  cases o with
  | absent => exact ⟨[], (List.append_nil _).symm, .lineEnd⟩
  | direct x | indirect x | constant x =>
      refine ⟨_, ?_, hspaced⟩
      simp only [text, String.toList_append, List.append_assoc]
      rfl

theorem lineFeed_notMem_operandText (o : Operand) : '\n' ∉ o.text.toList := by
  cases o with
  | absent => simp [Operand.text]
  | direct x => exact lineFeed_notMem_word x
  | indirect x | constant x => simp [Operand.text, lineFeed_notMem_word]

theorem lineFeed_notMem_text (i : Instruction) : '\n' ∉ i.text.toList := by
  obtain ⟨tail, htext, hafter⟩ := i.exists_toList_text
  have hname : '\n' ∉ i.mnemonic.name.toList := by
    cases i.mnemonic <;> decide
  have htail : '\n' ∉ tail := by
    have hoperand := lineFeed_notMem_operandText i.operand
    generalize i.operand.text.toList = rest at hafter hoperand
    cases hafter with
    | lineEnd => simp
    | blank _ hne _ => simp [Ne.symm hne, hoperand]
  rw [htext, List.mem_append, not_or]
  exact ⟨hname, htail⟩

/-- The text of an instruction spells this instruction if its operand can be written, and no
instruction otherwise. -/
theorem onLine_text_iff (i : Instruction) (n : Nat) {is : List Instruction} :
    Expectation.name.onLine n i.text.toList = .ok is ↔
      Writable i.mnemonic i.operand ∧ is = [⟨i.mnemonic, i.operand, n⟩] := by
  obtain ⟨tail, htext, hafter⟩ := i.exists_toList_text
  have hlead : TokenLead i.text.toList (.keyword i.mnemonic) i.operand.text.toList :=
    htext ▸ .keyword isGap_nil i.mnemonic hafter
  rw [Expectation.onLine_of_tokenLead (by simp) hlead]
  exact Expectation.onLine_operandText_iff

end Instruction

namespace Program

/-- The texts of the instructions, each with a line feed behind it. -/
def text (p : Program) : String :=
  String.ofList (p.instructions.toList.flatMap fun i => i.text.toList ++ ['\n'])

/-- What the lines say, without their numbers. -/
def statements (p : Program) : List (Mnemonic × Operand) :=
  p.instructions.toList.map fun i => (i.mnemonic, i.operand)

/-- The program with these statements on its lines. -/
def ofStatements (statements : List (Mnemonic × Operand)) : Program :=
  ofList (statements.mapIdx fun k s => ⟨s.1, s.2, k + 1⟩)

@[simp] theorem statements_ofStatements (l : List (Mnemonic × Operand)) :
    (ofStatements l).statements = l := by
  apply List.ext_getElem?
  intro k
  simp only [statements, ofStatements, ofList, List.getElem?_map, List.getElem?_mapIdx]
  cases l[k]? <;> rfl

variable {p q : Program}

theorem eq_of_getElem? (h : ∀ k : Nat, p.instructions[k]? = q.instructions[k]?) : p = q :=
  congrArg Program.mk (Array.ext_getElem? h)

/-- Statements taken from a program are numbered anew. -/
theorem getElem?_ofStatements_statements (p : Program) (k : Nat) :
    (ofStatements p.statements).instructions[k]? =
      p.instructions[k]?.map fun i => { i with line := k + 1 } := by
  simp only [statements, ofStatements, ofList, List.getElem?_toArray, List.getElem?_mapIdx,
    List.getElem?_map, Array.getElem?_toList]
  cases p.instructions[k]? <;> rfl

/-- A program whose instructions carry the numbers of their lines is given by its statements. -/
theorem ofStatements_statements
    (h : ∀ (k : Nat) (i : Instruction), p.instructions[k]? = some i → i.line = k + 1) :
    ofStatements p.statements = p := by
  apply eq_of_getElem?
  intro k
  rw [getElem?_ofStatements_statements]
  cases hk : p.instructions[k]? with
  | none => rfl
  | some i =>
      rw [Option.map_some, ← h k i hk]

theorem textLines_text (p : Program) :
    textLines p.text.toList = p.instructions.toList.map fun i => i.text.toList := by
  have hlines : ∀ line ∈ p.instructions.toList.map (fun i => i.text.toList), '\n' ∉ line := by
    intro line hmem
    obtain ⟨i, _, rfl⟩ := List.mem_map.mp hmem
    exact i.lineFeed_notMem_text
  rw [← textLines_flatMap hlines, List.flatMap_map, text, String.toList_ofList]

/-- A program that is rendered is read again, with its lines numbered, if all of its operands can
be written, and otherwise no program is read. -/
theorem ofSource_text_eq_ok_iff :
    ofSource (.ofString p.text) = .ok q ↔
      (∀ s ∈ p.statements, Writable s.1 s.2) ∧ q = ofStatements p.statements := by
  rw [ofSource_ofString_eq_ok_iff, textLines_text, List.length_map, Array.length_toList]
  simp only [List.getElem?_map, Array.getElem?_toList, Option.map_eq_some_iff,
    forall_exists_index, and_imp, forall_apply_eq_imp_iff₂, Instruction.onLine_text_iff,
    List.singleton_inj]
  constructor
  · intro hgiven
    obtain ⟨hcount, hall⟩ := hgiven
    constructor
    · intro s hs
      obtain ⟨i, hi, rfl⟩ := List.mem_map.mp hs
      obtain ⟨k, hk⟩ := List.getElem?_of_mem hi
      obtain ⟨_, ⟨hwritable, _⟩, _⟩ := hall k i (Array.getElem?_toList ▸ hk)
      exact hwritable
    · apply eq_of_getElem?
      intro k
      rw [getElem?_ofStatements_statements]
      cases hk : p.instructions[k]? with
      | none =>
          rw [Array.getElem?_eq_none_iff] at hk
          exact Array.getElem?_eq_none_iff.mpr (Nat.le_trans (Nat.le_of_eq hcount) hk)
      | some i =>
          obtain ⟨j, ⟨_, rfl⟩, hget⟩ := hall k i hk
          exact (get?_succ q k).symm.trans hget
  · rintro ⟨hwritable, rfl⟩
    refine ⟨by simp [ofStatements, statements], ?_⟩
    intro k i hk
    have hmem : (i.mnemonic, i.operand) ∈ p.statements :=
      List.mem_map_of_mem (Array.mem_toList_iff.mpr (Array.mem_of_getElem? hk))
    refine ⟨{ i with line := k + 1 }, ⟨hwritable _ hmem, rfl⟩, ?_⟩
    rw [get?_succ, getElem?_ofStatements_statements, hk, Option.map_some]

/-- A program that has been read is read again from its rendering. -/
theorem ofSource_text_of_ofSource {s : Source} (h : ofSource s = .ok p) :
    ofSource (.ofString p.text) = .ok p := by
  rw [ofSource_text_eq_ok_iff]
  constructor
  · intro statement hmem
    obtain ⟨i, hi, rfl⟩ := List.mem_map.mp hmem
    exact writable_of_ofSource h i hi
  · exact (ofStatements_statements fun _ _ hk => line_of_ofSource h hk).symm

end Program

/-- Rendering and reading are inverse on the programs whose operands can be written, and these
are the programs that can be read. -/
theorem Program.reading_inverts_rendering :
    (∀ l : List (Mnemonic × Operand),
      (ofSource (.ofString (ofStatements l).text) = .ok (ofStatements l) ↔
        ∀ s ∈ l, Writable s.1 s.2) ∧
      ((¬ ∀ s ∈ l, Writable s.1 s.2) →
        ∃ e, ofSource (.ofString (ofStatements l).text) = .error e)) ∧
    (∀ s p, ofSource s = .ok p → ofSource (.ofString p.text) = .ok p) ∧
    (∀ s t p q, ofSource s = .ok p → ofSource t = .ok q → (p = q ↔ p.text = q.text)) := by
  refine ⟨fun l => ⟨?_, fun hl => ?_⟩, fun _ _ => ofSource_text_of_ofSource, ?_⟩
  · rw [ofSource_text_eq_ok_iff, statements_ofStatements]
    exact and_iff_left rfl
  · cases hresult : ofSource (.ofString (ofStatements l).text) with
    | error e => exact ⟨e, rfl⟩
    | ok q =>
        rw [ofSource_text_eq_ok_iff, statements_ofStatements] at hresult
        exact absurd hresult.1 hl
  · intro s t p q hp hq
    constructor
    · rintro rfl
      rfl
    · intro htext
      have hread := ofSource_text_of_ofSource hp
      rw [htext, ofSource_text_of_ofSource hq] at hread
      exact (Except.ok.inj hread).symm

/-- Three statements are read again and a jump to a negative line is not. A line with a halt and
a line with a comment have different renderings. -/
theorem Program.reading_inverts_rendering_of_writable :
    let l := [(Mnemonic.sub, Operand.constant 2), (.store, .indirect 10), (.halt, .absent)]
    let s := Source.ofText ['\t', 'H', 'A', 'L', 'T']
    let t := Source.ofText ['#']
    let p := ofList [⟨.halt, .absent, 1⟩]
    let q := ofList [⟨.pass, .absent, 1⟩]
    ofSource (.ofString (ofStatements l).text) = .ok (ofStatements l) ∧
      (∃ e, ofSource (.ofString (ofStatements [(.jump, .direct (-1))]).text) = .error e) ∧
      ofSource s = .ok p ∧ ofSource (.ofString p.text) = .ok p ∧
      ofSource t = .ok q ∧ (p = q ↔ p.text = q.text) := by
  intro l s t p q
  obtain ⟨hstatements, hsource, hsources⟩ := reading_inverts_rendering
  have hs : ofSource s = .ok p := by cbv
  have ht : ofSource t = .ok q := by cbv
  exact ⟨(hstatements l).1.mpr (by decide), (hstatements _).2 (by decide), hs, hsource s p hs, ht,
    hsources s t p q hs ht⟩

end RandomAccessMachine
