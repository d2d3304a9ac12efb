import Mathlib.Data.Int.ModEq
import RandomAccessMachine.Proofs.Machine.Bounds
import RandomAccessMachine.Proofs.Machine.InPlace

/-!
# What each instruction means

`Meaning` gives the rules of the instruction set. They are about integers and
about the registers that are set, and each of them either blames a fault or
tells the change that the instruction makes: at most one register is written,
and the program counter moves. `instruction_keeps_to_its_meaning` says that
executing an instruction does this and nothing else.

## Implementation notes

The rules cover every operand, also those that cannot be written in a program.
There is a rule for every instruction in every state (`exists_meaning`), and
each rule is what executing comes to (`Meaning.effect_eq`), so both directions
of the main result follow from these two.
-/

namespace RandomAccessMachine

/-- What an instruction that succeeds does: it writes a value to a register, if it writes one, and
moves the program counter. -/
structure Change where
  written : Option (Word × Word)
  pc : Nat

namespace Change

/-- Write a register of the machine and go on with the next line. -/
def put (m : Machine) (address value : Word) : Change := ⟨some (address, value), m.pc + 1⟩

/-- Go to a line and write nothing. -/
def goTo (line : Nat) : Change := ⟨none, line⟩

/-- The machine that the change makes of a machine. -/
def apply (c : Change) (m : Machine) : Machine :=
  match c.written with
  | some (address, value) => { m with registers := m.registers.write address value, pc := c.pc }
  | none => { m with pc := c.pc }

/-- The change leads from the first machine to the second one, and they differ in nothing else. -/
structure Leads (c : Change) (m next : Machine) : Prop where
  pc : next.pc = c.pc
  written : ∀ address value, c.written = some (address, value) →
    next.registers.get? address = some value
  kept : ∀ address, (∀ value, c.written ≠ some (address, value)) →
    next.registers.get? address = m.registers.get? address
  program : next.program = m.program
  input : next.input = m.input

/-- There is exactly one machine that a change leads to. -/
theorem leads_iff {c : Change} {m next : Machine} : c.Leads m next ↔ next = c.apply m := by
  constructor
  · intro h
    have hregisters (r : Registers) (hget : ∀ a, next.registers.get? a = r.get? a) :
        next = { m with registers := r, pc := c.pc } := by
      obtain ⟨pc, registers, program, input⟩ := next
      obtain rfl : registers = r := Registers.ext_get? hget
      obtain rfl : pc = c.pc := h.pc
      obtain rfl : program = m.program := h.program
      obtain rfl : input = m.input := h.input
      rfl
    unfold apply
    cases hw : c.written with
    | none => exact hregisters m.registers fun a => h.kept a (by simp [hw])
    | some entry =>
        obtain ⟨address, value⟩ := entry
        refine hregisters _ fun a => ?_
        rw [Registers.get?_write]
        split
        · rename_i ha
          exact ha ▸ h.written address value hw
        · rename_i ha
          exact h.kept a (by simp [hw, Ne.symm ha])
  · rintro rfl
    obtain ⟨written, pc⟩ := c
    cases written with
    | none => exact ⟨rfl, nofun, fun _ _ => rfl, rfl, rfl⟩
    | some entry =>
        refine ⟨rfl, ?_, ?_, rfl, rfl⟩
        · rintro address value ⟨⟩
          simp [apply]
        · intro a hne
          have ha : a ≠ entry.1 := by
            rintro rfl
            exact hne entry.2 rfl
          simp [apply, ha]

end Change

/-- The value that an operand of LOAD, ADD or SUB stands for. -/
inductive Operand.Denotes (r : Registers) : Operand → Word → Prop
  | absent : Denotes r .absent 0
  | direct (k : Word) : Denotes r (.direct k) (r.read k)
  | indirect (k : Word) : Denotes r (.indirect k) (r.read (r.read k))
  | constant (k : Word) : Denotes r (.constant k) k

/-- The jumps with the values of the accumulator at which they are taken. -/
inductive Mnemonic.JumpsIf : Mnemonic → (Int → Prop) → Prop
  | jump : JumpsIf .jump fun _ => True
  | jpos : JumpsIf .jpos fun value => 0 < value
  | jzero : JumpsIf .jzero fun value => value = 0
  | jneg : JumpsIf .jneg fun value => value < 0

/-- The rules of the instruction set: the fault that an instruction runs into, or the change that
it makes. -/
inductive Meaning (m : Machine) : Mnemonic → Operand → Except RuntimeFault Change → Prop
  | read {operand : Operand} {index value : Word} {n : Nat}
      (hindex : operand.Names m.registers index) (hn : index.toInt = n + 1)
      (hvalue : m.input.values[n]? = some value) :
      Meaning m .read operand (.ok (.put m 0 value))
  | noInputRegister {operand : Operand} {index : Word} (hindex : operand.Names m.registers index)
      (hnone : ¬ (1 ≤ index.toInt ∧ index.toInt ≤ m.input.values.length)) :
      Meaning m .read operand (.error (.noInputRegister index m.input.values.length))
  | unusedPointer {k : Word} (hunset : m.registers.get? k = none) :
      Meaning m .read (.indirect k) (.error (.unusedPointer k))
  | store {operand : Operand} {address : Word} (haddress : operand.Names m.registers address) :
      Meaning m .store operand (.ok (.put m address (m.registers.read 0)))
  /-- STORE through a pointer that is not set has no effect. -/
  | storeNowhere {k : Word} (hunset : m.registers.get? k = none) :
      Meaning m .store (.indirect k) (.ok (.goTo (m.pc + 1)))
  | load {operand : Operand} {value : Word} (hvalue : operand.Denotes m.registers value) :
      Meaning m .load operand (.ok (.put m 0 value))
  | add {operand : Operand} {value sum : Word} (hvalue : operand.Denotes m.registers value)
      (hsum : sum.toInt ≡ (m.registers.read 0).toInt + value.toInt [ZMOD 2 ^ 64]) :
      Meaning m .add operand (.ok (.put m 0 sum))
  | sub {operand : Operand} {value difference : Word}
      (hvalue : operand.Denotes m.registers value)
      (hdifference : difference.toInt ≡
        (m.registers.read 0).toInt - value.toInt [ZMOD 2 ^ 64]) :
      Meaning m .sub operand (.ok (.put m 0 difference))
  | half (operand : Operand) {q : Word} (hlow : 2 * q.toInt ≤ (m.registers.read 0).toInt)
      (hhigh : (m.registers.read 0).toInt < 2 * q.toInt + 2) :
      Meaning m .half operand (.ok (.put m 0 q))
  | jumpTaken {mnemonic : Mnemonic} {condition : Int → Prop} {operand : Operand} {line : Nat}
      (hjump : mnemonic.JumpsIf condition) (hline : operand.number.toInt = line)
      (hlast : line ≤ m.program.lineCount) (htaken : condition (m.registers.read 0).toInt) :
      Meaning m mnemonic operand (.ok (.goTo line))
  | jumpNotTaken {mnemonic : Mnemonic} {condition : Int → Prop} {operand : Operand} {line : Nat}
      (hjump : mnemonic.JumpsIf condition) (hline : operand.number.toInt = line)
      (hlast : line ≤ m.program.lineCount) (hnot : ¬ condition (m.registers.read 0).toInt) :
      Meaning m mnemonic operand (.ok (.goTo (m.pc + 1)))
  /-- The target of a jump has to exist even if the jump is not taken. -/
  | noSuchLine {mnemonic : Mnemonic} {condition : Int → Prop} {operand : Operand}
      (hjump : mnemonic.JumpsIf condition)
      (hnone : ¬ (0 ≤ operand.number.toInt ∧ operand.number.toInt ≤ m.program.lineCount)) :
      Meaning m mnemonic operand (.error (.noSuchLine operand.number m.program.lineCount))
  | halt (operand : Operand) : Meaning m .halt operand (.ok (.goTo 0))
  | pass (operand : Operand) : Meaning m .pass operand (.ok (.goTo (m.pc + 1)))

namespace Word

/-- A word is determined by its remainder. -/
theorem eq_of_modEq {a b : Word} (h : a.toInt ≡ b.toInt [ZMOD 2 ^ 64]) : a = b := by
  have ha := a.le_toInt
  have ha' := a.toInt_lt
  have hb := b.le_toInt
  have hb' := b.toInt_lt
  apply Int64.toInt_inj.mp
  unfold Int.ModEq at h
  omega

/-- The sum of two words wraps around. -/
theorem toInt_add_modEq (a b : Word) : (a + b).toInt ≡ a.toInt + b.toInt [ZMOD 2 ^ 64] := by
  rw [Int64.toInt_add]
  exact Int.bmod_emod

theorem toInt_sub_modEq (a b : Word) : (a - b).toInt ≡ a.toInt - b.toInt [ZMOD 2 ^ 64] := by
  rw [Int64.toInt_sub]
  exact Int.bmod_emod

theorem toInt_mul_modEq (a b : Word) : (a * b).toInt ≡ a.toInt * b.toInt [ZMOD 2 ^ 64] := by
  rw [Int64.toInt_mul]
  exact Int.bmod_emod

theorem toInt_half (a : Word) : (half a).toInt = a.toInt / 2 := by
  have hlow := a.le_toInt
  have hhigh := a.toInt_lt
  exact Int64.toInt_ofInt_of_le (by omega) (by omega)

end Word

namespace Machine

variable {m : Machine} {operand : Operand} {mnemonic : Mnemonic}

/-- An input register that exists is read. -/
theorem inputValue_of_names {index value : Word} {n : Nat} (h : operand.Names m.registers index)
    (hn : index.toInt = n + 1) (hvalue : m.input.values[n]? = some value) :
    m.inputValue operand = .ok value := by
  have hindex : Word.toNat? index = some (n + 1) := Word.toNat?_eq_some_iff.mpr hn
  have hget : m.input.get? index = some value := by rwa [Input.get?, hindex]
  simp only [inputValue, inputIndex_eq_ok_iff.mpr h, hget]

/-- No other input register is read. -/
theorem inputValue_of_not_le {index : Word} (h : operand.Names m.registers index)
    (hnone : ¬ (1 ≤ index.toInt ∧ index.toInt ≤ m.input.values.length)) :
    m.inputValue operand = .error (.noInputRegister index m.input.values.length) := by
  simp only [inputValue, inputIndex_eq_ok_iff.mpr h, Input.get?_eq_none_iff.mpr hnone]
  rfl

theorem storeAddress?_of_names {address : Word} (h : operand.Names m.registers address) :
    m.storeAddress? operand = some address := by
  cases h with
  | indirect h => exact h
  | absent | direct | constant => rfl

theorem fetch_of_denotes {value : Word} (h : operand.Denotes m.registers value) :
    m.fetch operand = value := by
  cases h <;> rfl

/-- An operand names something, or it is a pointer that is not set. -/
theorem names_cases (r : Registers) (operand : Operand) :
    (∃ k, operand = .indirect k ∧ r.get? k = none) ∨ ∃ a, operand.Names r a := by
  cases operand with
  | absent => exact .inr ⟨0, .absent⟩
  | direct k => exact .inr ⟨k, .direct k⟩
  | constant k => exact .inr ⟨k, .constant k⟩
  | indirect k =>
      cases h : r.get? k with
      | none => exact .inl ⟨k, rfl, h⟩
      | some v => exact .inr ⟨v, .indirect h⟩

theorem exists_denotes (r : Registers) (operand : Operand) : ∃ value, operand.Denotes r value := by
  cases operand with
  | absent => exact ⟨_, .absent⟩
  | direct k => exact ⟨_, .direct k⟩
  | indirect k => exact ⟨_, .indirect k⟩
  | constant k => exact ⟨_, .constant k⟩

/-- A jump that has a target goes there if it is taken. -/
theorem effect_of_jumpsIf {condition : Int → Prop} (h : mnemonic.JumpsIf condition) :
    m.effect mnemonic operand =
      (m.jumpTarget operand).map (m.branch (mnemonic.jumpsAt m.accumulator)) := by
  cases h <;> rfl

theorem jumpsAt_iff {condition : Int → Prop} (h : mnemonic.JumpsIf condition) (value : Word) :
    mnemonic.jumpsAt value = true ↔ condition value.toInt := by
  cases h with
  | jump => simp [Mnemonic.jumpsAt]
  | jpos => simp [Mnemonic.jumpsAt, Int64.lt_iff_toInt_lt]
  | jzero => simp [Mnemonic.jumpsAt, ← Int64.toInt_inj]
  | jneg => simp [Mnemonic.jumpsAt, Int64.lt_iff_toInt_lt]

theorem jumpTarget_of_le {line : Nat} (hline : operand.number.toInt = line)
    (hlast : line ≤ m.program.lineCount) : m.jumpTarget operand = .ok line := by
  simp [jumpTarget, Word.toNat?_eq_some_iff.mpr hline, hlast]

theorem jumpTarget_of_not_le
    (h : ¬ (0 ≤ operand.number.toInt ∧ operand.number.toInt ≤ m.program.lineCount)) :
    m.jumpTarget operand = .error (.noSuchLine operand.number m.program.lineCount) := by
  unfold jumpTarget
  cases hline : Word.toNat? operand.number with
  | none => rfl
  | some line =>
      rw [Word.toNat?_eq_some_iff] at hline
      have hlast : ¬ line ≤ m.program.lineCount := by omega
      simp [hlast]

end Machine

namespace Meaning

variable {m : Machine} {mnemonic : Mnemonic} {operand : Operand}
  {result : Except RuntimeFault Change}

/-- Executing comes to what the rules say. -/
theorem effect_eq (h : Meaning m mnemonic operand result) :
    m.effect mnemonic operand = result.map fun c => c.apply m := by
  cases h with
  | read hindex hn hvalue =>
      simp only [Machine.effect, Machine.inputValue_of_names hindex hn hvalue]
      rfl
  | noInputRegister hindex hnone =>
      simp only [Machine.effect, Machine.inputValue_of_not_le hindex hnone]
      rfl
  | unusedPointer hunset =>
      simp only [Machine.effect, Machine.inputValue, Machine.inputIndex, hunset]
      rfl
  | store haddress =>
      simp only [Machine.effect, Machine.store, Machine.storeAddress?_of_names haddress]
      rfl
  | storeNowhere hunset =>
      simp only [Machine.effect, Machine.store, Machine.storeAddress?, hunset]
      rfl
  | load hvalue =>
      simp only [Machine.effect, Machine.fetch_of_denotes hvalue]
      rfl
  | add hvalue hsum =>
      obtain rfl := Word.eq_of_modEq (hsum.trans (Word.toInt_add_modEq _ _).symm)
      simp only [Machine.effect, Machine.fetch_of_denotes hvalue]
      rfl
  | sub hvalue hdifference =>
      obtain rfl := Word.eq_of_modEq (hdifference.trans (Word.toInt_sub_modEq _ _).symm)
      simp only [Machine.effect, Machine.fetch_of_denotes hvalue]
      rfl
  | @half operand q hlow hhigh =>
      obtain rfl : q = Word.half m.accumulator := by
        apply Int64.toInt_inj.mp
        rw [Word.toInt_half]
        change q.toInt = (m.registers.read 0).toInt / 2
        omega
      rfl
  | jumpTaken hjump hline hlast htaken =>
      have hat := (Machine.jumpsAt_iff hjump m.accumulator).mpr htaken
      rw [Machine.effect_of_jumpsIf hjump, Machine.jumpTarget_of_le hline hlast, hat]
      rfl
  | jumpNotTaken hjump hline hlast hnot =>
      have hat : mnemonic.jumpsAt m.accumulator = false :=
        Bool.eq_false_iff.mpr (mt (Machine.jumpsAt_iff hjump m.accumulator).mp hnot)
      rw [Machine.effect_of_jumpsIf hjump, Machine.jumpTarget_of_le hline hlast, hat]
      rfl
  | noSuchLine hjump hnone =>
      rw [Machine.effect_of_jumpsIf hjump, Machine.jumpTarget_of_not_le hnone]
      rfl
  | halt operand => rfl
  | pass operand => rfl

/-- There is a rule for every jump. -/
theorem exists_of_jumpsIf {condition : Int → Prop} (h : mnemonic.JumpsIf condition) (m : Machine)
    (operand : Operand) : ∃ result, Meaning m mnemonic operand result := by
  by_cases hrange : 0 ≤ operand.number.toInt ∧ operand.number.toInt ≤ m.program.lineCount
  · obtain ⟨line, hline⟩ := Int.eq_ofNat_of_zero_le hrange.1
    have hlast : line ≤ m.program.lineCount := by omega
    by_cases htaken : condition (m.registers.read 0).toInt
    · exact ⟨_, .jumpTaken h hline hlast htaken⟩
    · exact ⟨_, .jumpNotTaken h hline hlast htaken⟩
  · exact ⟨_, .noSuchLine h hrange⟩

/-- There is a rule for every instruction. -/
theorem exists_meaning (m : Machine) (mnemonic : Mnemonic) (operand : Operand) :
    ∃ result, Meaning m mnemonic operand result := by
  obtain ⟨value, hvalue⟩ := Machine.exists_denotes m.registers operand
  cases mnemonic with
  | read =>
      obtain ⟨k, rfl, hunset⟩ | ⟨index, hindex⟩ := Machine.names_cases m.registers operand
      · exact ⟨_, .unusedPointer hunset⟩
      · by_cases hrange : 1 ≤ index.toInt ∧ index.toInt ≤ m.input.values.length
        · obtain ⟨n, hn⟩ := Int.eq_ofNat_of_zero_le (Int.sub_nonneg_of_le hrange.1)
          have hlt : n < m.input.values.length := by omega
          exact ⟨_, .read hindex (n := n) (by omega) (List.getElem?_eq_getElem hlt)⟩
        · exact ⟨_, .noInputRegister hindex hrange⟩
  | store =>
      obtain ⟨k, rfl, hunset⟩ | ⟨address, haddress⟩ := Machine.names_cases m.registers operand
      · exact ⟨_, .storeNowhere hunset⟩
      · exact ⟨_, .store haddress⟩
  | load => exact ⟨_, .load hvalue⟩
  | add => exact ⟨_, .add hvalue (Word.toInt_add_modEq _ _)⟩
  | sub => exact ⟨_, .sub hvalue (Word.toInt_sub_modEq _ _)⟩
  | half =>
      have hhalf := Word.toInt_half (m.registers.read 0)
      exact ⟨_, .half operand (q := Word.half (m.registers.read 0)) (by omega) (by omega)⟩
  | jump => exact exists_of_jumpsIf .jump m operand
  | jpos => exact exists_of_jumpsIf .jpos m operand
  | jzero => exact exists_of_jumpsIf .jzero m operand
  | jneg => exact exists_of_jumpsIf .jneg m operand
  | halt => exact ⟨_, .halt operand⟩
  | pass => exact ⟨_, .pass operand⟩

/-- An instruction succeeds exactly if the rules give it a change, which is all that it does. -/
theorem effect_eq_ok_iff {next : Machine} :
    m.effect mnemonic operand = .ok next ↔
      ∃ c, Meaning m mnemonic operand (.ok c) ∧ c.Leads m next := by
  constructor
  · intro hok
    obtain ⟨result, h⟩ := exists_meaning m mnemonic operand
    rw [h.effect_eq, Except.map_eq_ok_iff] at hok
    obtain ⟨c, rfl, rfl⟩ := hok
    exact ⟨c, h, Change.leads_iff.mpr rfl⟩
  · intro hgiven
    obtain ⟨c, h, hleads⟩ := hgiven
    rw [h.effect_eq, Change.leads_iff.mp hleads]
    rfl

/-- An instruction fails exactly with the fault that the rules give it. -/
theorem effect_eq_error_iff {fault : RuntimeFault} :
    m.effect mnemonic operand = .error fault ↔ Meaning m mnemonic operand (.error fault) := by
  constructor
  · intro herror
    obtain ⟨result, h⟩ := exists_meaning m mnemonic operand
    rw [h.effect_eq, Except.map_eq_error_iff] at herror
    exact herror ▸ h
  · intro h
    exact h.effect_eq

end Meaning

namespace InPlace

/-- In place, an instruction succeeds exactly if it does so for the machine as a value, and it
leaves the same machine. -/
theorem run_execute_eq_ok_iff {i : Instruction} {m next : Machine} :
    (execute i).run m = .ok () next ↔ m.perform i = .ok next := by
  rw [run_execute]
  cases m.perform i <;> simp [executed]

end InPlace

/-- Executing an instruction comes to what the rules say. If they give it a change, it succeeds, and
the change is all that it does. If they give it a fault, it fails with this fault, and in place it
has changed nothing then. The greatest counter of 64 bits is the only one that cannot be counted
up. -/
theorem Machine.instruction_keeps_to_its_meaning {m : Machine} (h : m.pc < 2 ^ 64 - 1)
    (i : Instruction) :
    m.CountsUp ∧
    (∀ next, m.perform i = .ok next ↔
      ∃ c, Meaning m i.mnemonic i.operand (.ok c) ∧ c.Leads m next) ∧
    (∀ e, m.perform i = .error e ↔
      ∃ fault, Meaning m i.mnemonic i.operand (.error fault) ∧ e = ⟨fault, i⟩) ∧
    (∀ next, (InPlace.execute i).run m = .ok () next ↔ m.perform i = .ok next) ∧
    ∀ e m', (InPlace.execute i).run m = .error e m' ↔ m.perform i = .error e ∧ m' = m := by
  refine ⟨countsUp_iff.mpr (by omega), fun next => ?_, fun e => ?_, fun next => ?_, fun e m' => ?_⟩
  · rw [perform_eq_ok_iff]
    exact Meaning.effect_eq_ok_iff
  · simp only [perform, Except.mapError_eq_error_iff, Meaning.effect_eq_error_iff,
      eq_comm (a := e)]
  · exact InPlace.run_execute_eq_ok_iff
  · exact InPlace.run_execute_eq_error_iff

/-- An ADD through a pointer to the accumulator doubles the greatest word, which wraps around. A
conditional jump to a negative line fails although it would not be taken. -/
theorem Machine.instruction_keeps_to_its_meaning_at_greatest_word :
    let r := (Registers.initial.write 0 9223372036854775807).write 3 0
    let m : Machine := ⟨7, r, .empty, .empty⟩
    let add : Instruction := ⟨.add, .indirect 3, 1⟩
    let jneg : Instruction := ⟨.jneg, .constant (-1), 1⟩
    let next : Machine := ⟨8, r.write 0 (-2), .empty, .empty⟩
    m.pc < 2 ^ 64 - 1 ∧ m.CountsUp ∧
      m.perform add = .ok next ∧ (InPlace.execute add).run m = .ok () next ∧
      (∃ c, Meaning m .add (.indirect 3) (.ok c) ∧ c.Leads m next) ∧
      (InPlace.execute jneg).run m = .error ⟨.noSuchLine (-1) 0, jneg⟩ m := by
  intro r m add jneg next
  have hpc : m.pc < 2 ^ 64 - 1 := by decide
  obtain ⟨hcounts, hok, _, hinPlace, _⟩ := instruction_keeps_to_its_meaning hpc add
  obtain ⟨_, _, herror, _, hfailed⟩ := instruction_keeps_to_its_meaning hpc jneg
  have hadd : m.perform add = .ok next := by decide
  have hjneg : m.perform jneg = .error ⟨.noSuchLine (-1) 0, jneg⟩ :=
    (herror _).mpr ⟨_, .noSuchLine .jneg (by decide), rfl⟩
  exact ⟨hpc, hcounts, hadd, (hinPlace next).mpr hadd, (hok next).mp hadd,
    (hfailed _ m).mpr ⟨hjneg, rfl⟩⟩

end RandomAccessMachine
