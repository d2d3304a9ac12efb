import RandomAccessMachine.Assembly.Listing
import RandomAccessMachine.Proofs.Results

/-!
# Operands that can be written

A program text can spell an operand only in a form that its mnemonic takes,
and it has no sign for negative numbers. Whatever a cursor finds, every
instruction that is read from it has such an operand.
-/

namespace RandomAccessMachine

/-- Whether operands of this form belong to a class. -/
def ArgumentClass.allows : ArgumentClass → Operand → Bool
  | .noArgument, .absent => true
  | .register, .direct _ => true
  | .register, .indirect _ => true
  | .line, .direct _ => true
  | .line, .constant _ => true
  | .value, .direct _ => true
  | .value, .indirect _ => true
  | .value, .constant _ => true
  | _, _ => false

/-- An operand that can be written behind a mnemonic. -/
structure Writable (m : Mnemonic) (o : Operand) : Prop where
  allowed : m.argumentClass.allows o = true
  nonneg : ∀ x, o.number? = some x → 0 ≤ x.toInt

variable {m : Mnemonic} {x : Word}

instance (m : Mnemonic) (o : Operand) : Decidable (Writable m o) :=
  decidable_of_iff
    ((m.argumentClass.allows o && o.number?.all fun x => decide (0 ≤ x.toInt)) = true) <| by
    rw [Bool.and_eq_true, Option.all_eq_true]
    simp only [decide_eq_true_eq]
    exact ⟨fun h => ⟨h.1, h.2⟩, fun h => ⟨h.allowed, h.nonneg⟩⟩

theorem writable_absent_iff : Writable m .absent ↔ m.argumentClass = .noArgument := by
  constructor
  · intro h
    have hallowed := h.allowed
    cases hc : m.argumentClass <;> simp [hc, ArgumentClass.allows] at hallowed ⊢
  · intro h
    exact ⟨by rw [h]; rfl, nofun⟩

theorem writable_direct_iff :
    Writable m (.direct x) ↔ m.argumentClass ≠ .noArgument ∧ 0 ≤ x.toInt := by
  constructor
  · intro h
    refine ⟨fun hc => ?_, h.nonneg x rfl⟩
    have hallowed := h.allowed
    rw [hc] at hallowed
    cases hallowed
  · intro h
    refine ⟨?_, fun y hy => Option.some.inj hy ▸ h.2⟩
    have hclass := h.1
    cases hc : m.argumentClass <;> simp [hc, ArgumentClass.allows] at hclass ⊢

theorem writable_indirect_iff :
    Writable m (.indirect x) ↔ m.argumentClass.takesPointer = true ∧ 0 ≤ x.toInt := by
  have hform : m.argumentClass.allows (.indirect x) = m.argumentClass.takesPointer := by
    cases m.argumentClass <;> rfl
  constructor
  · intro h
    exact ⟨hform ▸ h.allowed, h.nonneg x rfl⟩
  · intro h
    exact ⟨hform.trans h.1, fun y hy => Option.some.inj hy ▸ h.2⟩

theorem writable_constant_iff :
    Writable m (.constant x) ↔ m.argumentClass.takesConstant = true ∧ 0 ≤ x.toInt := by
  have hform : m.argumentClass.allows (.constant x) = m.argumentClass.takesConstant := by
    cases m.argumentClass <;> rfl
  constructor
  · intro h
    exact ⟨hform ▸ h.allowed, h.nonneg x rfl⟩
  · intro h
    exact ⟨hform.trans h.1, fun y hy => Option.some.inj hy ▸ h.2⟩

/-- A token that is not a negative number. -/
def Token.IsUnsigned (t : Token) : Prop := ∀ x, t = .number x → 0 ≤ x.toInt

namespace Expectation

/-- What has been read so far can be completed by an operand that can be written only. -/
def IsSound : Expectation → Prop
  | .name => True
  | .argument m => m.argumentClass ≠ .noArgument
  | .address m => m.argumentClass.takesPointer = true
  | .closeParen m x => m.argumentClass.takesPointer = true ∧ 0 ≤ x.toInt
  | .constant m => m.argumentClass.takesConstant = true
  | .lineEnd m o => Writable m o

variable {e next : Expectation} {t : Token}

theorem isSound_name : name.IsSound := trivial

theorem isSound_afterName (m : Mnemonic) : (afterName m).IsSound := by
  unfold afterName
  split
  · rename_i h
    exact writable_absent_iff.mpr h
  · rename_i h
    exact h

/-- Every token that fits keeps an expectation sound. -/
theorem IsSound.next? (h : e.IsSound) (ht : t.IsUnsigned) (hnext : e.next? t = some next) :
    next.IsSound := by
  cases e with
  | name =>
      cases t <;> simp only [Expectation.next?, Option.some.injEq, reduceCtorEq] at hnext
      exact hnext ▸ isSound_afterName _
  | argument m =>
      cases t with
      | number x =>
          obtain rfl := Option.some.inj hnext
          exact writable_direct_iff.mpr ⟨h, ht x rfl⟩
      | leftParen =>
          simp only [Expectation.next?, Option.ite_none_right_eq_some, Option.some.injEq] at hnext
          obtain ⟨hform, rfl⟩ := hnext
          exact hform
      | equals =>
          simp only [Expectation.next?, Option.ite_none_right_eq_some, Option.some.injEq] at hnext
          obtain ⟨hform, rfl⟩ := hnext
          exact hform
      | rightParen | newline | keyword => cases hnext
  | address m =>
      cases t with
      | number x =>
          obtain rfl := Option.some.inj hnext
          exact ⟨h, ht x rfl⟩
      | leftParen | rightParen | equals | newline | keyword => cases hnext
  | closeParen m x =>
      cases t with
      | rightParen =>
          obtain rfl := Option.some.inj hnext
          exact writable_indirect_iff.mpr h
      | leftParen | equals | newline | number | keyword => cases hnext
  | constant m =>
      cases t with
      | number x =>
          obtain rfl := Option.some.inj hnext
          exact writable_constant_iff.mpr ⟨h, ht x rfl⟩
      | leftParen | rightParen | equals | newline | keyword => cases hnext
  | lineEnd m o => cases t <;> cases hnext

/-- A sound expectation is completed by an operand that can be written. -/
theorem IsSound.completed? {m : Mnemonic} {o : Operand} (h : e.IsSound)
    (hc : e.completed? = some (m, o)) : Writable m o := by
  cases e with
  | name =>
      cases hc
      exact writable_absent_iff.mpr rfl
  | lineEnd m o =>
      cases hc
      exact h
  | argument | address | closeParen | constant => cases hc

/-- Every instruction that findings spell has an operand that can be written. -/
theorem writable_of_instructions {fs : List Finding} {is : List Instruction} (h : e.IsSound)
    (hfs : ∀ f ∈ fs, ∀ t, f.lexeme = .token t → t.IsUnsigned)
    (hok : e.instructions fs = .ok is) : ∀ i ∈ is, Writable i.mnemonic i.operand := by
  induction fs generalizing e is with
  | nil =>
      cases hm : e.mnemonic? with
      | none =>
          simp only [instructions, hm, Except.ok.injEq] at hok
          simp [← hok]
      | some m => simp [instructions, hm] at hok
  | cons f fs ih =>
      obtain ⟨hf, hrests⟩ := List.forall_mem_cons.mp hfs
      obtain ⟨line, t | fault⟩ := f
      · cases hfeed : e.feed t with
        | more next =>
            simp only [instructions, hfeed] at hok
            exact ih (h.next? (hf t rfl) (feed_eq_more_iff.mp hfeed).2) hrests hok
        | complete m o =>
            simp only [instructions, hfeed] at hok
            obtain ⟨rest, hrest, rfl⟩ := Except.map_eq_ok_iff.mp hok
            rw [List.forall_mem_cons]
            exact ⟨h.completed? (feed_eq_complete_iff.mp hfeed).2, ih isSound_name hrests hrest⟩
        | refused fault => simp [instructions, hfeed] at hok
      · simp [instructions] at hok

end Expectation

namespace Lexeme

/-- A number that digits spell has no sign. -/
theorem isUnsigned_of_ofDigits {digits : List Char} {t : Token}
    (h : ofDigits digits = .token t) : t.IsUnsigned := by
  unfold ofDigits at h
  split at h
  · rename_i value hvalue
    intro x hx
    obtain rfl : value = x := by
      rw [← Lexeme.token.inj h] at hx
      exact Token.number.inj hx
    rw [Word.toInt_of_ofNat? hvalue]
    exact Int.natCast_nonneg _
  · cases h

theorem isUnsigned_of_number {digits rest : List Char} {t : Token}
    (h : (number digits rest).1 = .token t) : t.IsUnsigned := by
  unfold number at h
  split at h
  · exact isUnsigned_of_ofDigits h
  · split at h
    · exact isUnsigned_of_ofDigits h
    · split at h
      · exact isUnsigned_of_ofDigits h
      · cases h

theorem isUnsigned_of_ofLetters {letters : List Char} {t : Token}
    (h : ofLetters letters = .token t) : t.IsUnsigned := by
  unfold ofLetters at h
  split at h
  · intro x hx
    rw [← Lexeme.token.inj h] at hx
    cases hx
  · cases h

theorem isUnsigned_of_name {letters rest : List Char} {t : Token}
    (h : (name letters rest).1 = .token t) : t.IsUnsigned := by
  unfold name at h
  split at h
  · exact isUnsigned_of_ofLetters h
  · split at h
    · exact isUnsigned_of_ofLetters h
    · split at h
      · exact isUnsigned_of_ofLetters h
      · cases h

theorem isUnsigned_of_ofSymbol? {c : Char} {t : Token} (h : Token.ofSymbol? c = some t) :
    t.IsUnsigned := by
  rintro x rfl
  unfold Token.ofSymbol? at h
  split at h <;> cases h

/-- No token at the beginning of a line is a negative number. -/
theorem isUnsigned_of_first {line : List Char} {t : Token} (h : (first line).1 = .token t) :
    t.IsUnsigned := by
  have hnewline : (Lexeme.token .newline) = .token t → t.IsUnsigned := by
    rintro heq x rfl
    cases heq
  induction line with
  | nil => exact hnewline h
  | cons c rest ih =>
      simp only [first] at h
      split at h
      · rename_i s hs
        obtain rfl := Lexeme.token.inj h
        exact isUnsigned_of_ofSymbol? hs
      · split at h
        · exact hnewline h
        · split at h
          · exact ih h
          · split at h
            · exact isUnsigned_of_number h
            · split at h
              · exact isUnsigned_of_name h
              · cases h

end Lexeme

namespace Cursor

/-- A call finds no negative number. -/
theorem isUnsigned_of_next {c c' : Cursor} {f : Finding} {t : Token}
    (h : c.next = (some f, c')) (ht : f.lexeme = .token t) : t.IsUnsigned := by
  obtain ⟨_, _, hnext⟩ | ⟨_, _, hnext⟩ | ⟨_, _, hnext⟩ := c.next_cases
  · cases hnext.symm.trans h
    cases ht
  · cases hnext.symm.trans h
  · cases hnext.symm.trans h
    exact Lexeme.isUnsigned_of_first ht

theorem isUnsigned_of_mem_findings {c : Cursor} :
    ∀ f ∈ c.findings, ∀ t, f.lexeme = .token t → t.IsUnsigned := by
  fun_induction calls c with
  | case1 c c' h => simp [findings_of_none h]
  | case2 c f c' h ih =>
      rw [findings_of_some h, List.forall_mem_cons]
      exact ⟨fun t ht => isUnsigned_of_next h ht, ih⟩

end Cursor

/-- Every instruction that is read from a source has an operand that can be written. -/
theorem Program.writable_of_ofSource {s : Source} {p : Program} (h : ofSource s = .ok p) :
    ∀ i ∈ p.instructions.toList, Writable i.mnemonic i.operand := by
  exact Expectation.writable_of_instructions Expectation.isSound_name
    Cursor.isUnsigned_of_mem_findings (ofCursor_eq_ok_iff.mp h)

end RandomAccessMachine
