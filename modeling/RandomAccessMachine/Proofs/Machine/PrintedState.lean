import RandomAccessMachine.Machine.Input
import RandomAccessMachine.Machine.Registers
import RandomAccessMachine.Proofs.Assembly.Rendering
import RandomAccessMachine.Proofs.Text.Enumeration

/-!
# Printed states lose nothing

The texts of registers, inputs and operands are read here by rules of their
own: how a number, an entry, a list and each mode of addressing is spelled.
Nothing can be read in two ways, and each text is read as what it was written
for. So nothing else has the same text. `printed_state_loses_nothing` says so
of all registers, inputs and instructions, and says what the text of registers
lists.

## Implementation notes

A number may be spelled with leading zeros or a plus sign, so more texts are
read than are written. All words are covered, and all operands, also behind
mnemonics that do not take them.
-/

namespace RandomAccessMachine

/-- Characters that spell a word in decimal. -/
def Word.Spelling (text : List Char) (w : Word) : Prop := Decimal.Denotes text w.toInt

namespace Word.Spelling

variable {text : List Char} {v w : Word}

theorem unique (hv : Spelling text v) (hw : Spelling text w) : v = w :=
  Int64.toInt_inj.mp (Decimal.Denotes.unique hv hw)

theorem ne_nil (h : Spelling text w) : text ≠ [] := Decimal.Denotes.ne_nil h

theorem notMem {c : Char} (h : Spelling text w) (hc : Decimal.isDigitOrSign c = false) :
    c ∉ text :=
  Decimal.Denotes.notMem h hc

/-- The text of a word spells it. -/
theorem ofWord (w : Word) : Spelling (Word.text w).toList w := Decimal.denotes_integer w.toInt

theorem enumerable : Enumerable Spelling where
  unique := unique
  ne_nil := ne_nil
  comma_notMem h := h.notMem rfl

end Word.Spelling

namespace Input

/-- Values in brackets. -/
def Lists (text : String) (values : List Word) : Prop :=
  Enclosed Word.Spelling '[' ']' text values

/-- The text of an input lists its values. -/
theorem lists_text (input : Input) : Lists input.text input.values :=
  ⟨_, by simp [text], .join Word.Spelling.ofWord input.values⟩

/-- Inputs with the same text have the same values. -/
theorem text_eq_iff {i j : Input} : i.text = j.text ↔ i.values = j.values := by
  constructor
  · intro h
    exact i.lists_text.unique Word.Spelling.enumerable (h ▸ j.lists_text)
  · intro h
    rw [text, h, text]

end Input

namespace Registers

/-- An address, a colon with a blank, and the value at the address. -/
def EntrySpelling (text : List Char) (e : Word × Word) : Prop :=
  ∃ address value, text = address ++ ':' :: ' ' :: value ∧ Word.Spelling address e.1 ∧
    Word.Spelling value e.2

namespace EntrySpelling

variable {text : List Char} {x y : Word × Word}

theorem unique (hx : EntrySpelling text x) (hy : EntrySpelling text y) : x = y := by
  obtain ⟨address, value, rfl, haddress, hvalue⟩ := hx
  obtain ⟨address', value', htext, haddress', hvalue'⟩ := hy
  obtain ⟨rfl, hrest⟩ := append_cons_inj_of_first (haddress.notMem rfl) (haddress'.notMem rfl) htext
  obtain rfl := (List.cons.inj hrest).2
  exact Prod.ext (haddress.unique haddress') (hvalue.unique hvalue')

/-- The text of an entry spells it. -/
theorem ofEntry (e : Word × Word) :
    EntrySpelling (Word.text e.1 ++ ": " ++ Word.text e.2).toList e :=
  ⟨_, _, by simp, .ofWord e.1, .ofWord e.2⟩

theorem enumerable : Enumerable EntrySpelling where
  unique := unique
  ne_nil := by
    rintro _ _ ⟨address, value, rfl, _⟩
    simp
  comma_notMem := by
    rintro _ _ ⟨address, value, rfl, haddress, hvalue⟩
    have hleft : ',' ∉ address := haddress.notMem rfl
    have hright : ',' ∉ value := hvalue.notMem rfl
    simp [hleft, hright]

end EntrySpelling

/-- Entries in braces. -/
def Lists (text : String) (entries : List (Word × Word)) : Prop :=
  Enclosed EntrySpelling '\x7b' '\x7d' text entries

variable {r s : Registers} {entries : List (Word × Word)} {a v : Word}

/-- The text of registers lists their entries. -/
theorem lists_text (r : Registers) : Lists r.text r.entries :=
  ⟨_, by simp [text], .join EntrySpelling.ofEntry r.entries⟩

/-- The text of registers lists nothing but their entries. -/
theorem lists_text_iff : Lists r.text entries ↔ entries = r.entries := by
  constructor
  · intro h
    exact h.unique EntrySpelling.enumerable r.lists_text
  · rintro rfl
    exact r.lists_text

/-- Where addresses ascend, the value at an address is that of the entry with this address. -/
theorem valueAt_eq_some_iff (h : entries.Pairwise fun x y => x.1 < y.1) :
    valueAt a entries = some v ↔ (a, v) ∈ entries := by
  induction entries with
  | nil => simp [valueAt]
  | cons first rest ih =>
      obtain ⟨hfirst, hrest⟩ := List.pairwise_cons.mp h
      rw [valueAt, List.mem_cons]
      split
      · rename_i ha
        have hnotMem : (a, v) ∉ rest := fun hmem => Int64.ne_of_lt (hfirst _ hmem) ha.symm
        rw [or_iff_left hnotMem, Prod.ext_iff, and_iff_right ha, Option.some_inj, eq_comm]
      · rename_i ha
        have hne : (a, v) ≠ first := fun heq => ha (congrArg Prod.fst heq)
        rw [ih hrest, or_iff_right hne]

theorem mem_entries_iff : (a, v) ∈ r.entries ↔ r.get? a = some v :=
  (valueAt_eq_some_iff r.ascending).symm

/-- Every written register has one entry, and no other register has any. -/
theorem count_address (r : Registers) (a : Word) :
    (r.entries.map Prod.fst).count a = if r.isSet a then 1 else 0 := by
  have hnodup : (r.entries.map Prod.fst).Nodup :=
    List.pairwise_map.mpr (r.ascending.imp Int64.ne_of_lt)
  have hmem : a ∈ r.entries.map Prod.fst ↔ r.isSet a = true := by
    simp [isSet, Option.isSome_iff_exists, ← mem_entries_iff]
  rw [hnodup.count]
  simp only [hmem]

/-- Registers with the same text agree at every address. -/
theorem text_eq_iff : r.text = s.text ↔ ∀ a, r.get? a = s.get? a := by
  constructor
  · intro h a
    have hentries : r.entries = s.entries := lists_text_iff.mp (h ▸ r.lists_text)
    rw [get?, hentries, get?]
  · intro h
    rw [ext_get? h]

example : (initial.write (-1) 0).text = "\x7b-1: 0, 0: 0\x7d" := by decide +kernel

end Registers

namespace Operand

/-- How each mode of addressing is spelled. -/
inductive Spelling : List Char → Operand → Prop
  | absent : Spelling [] .absent
  | direct {text : List Char} {x : Word} (h : Word.Spelling text x) : Spelling text (.direct x)
  | indirect {text : List Char} {x : Word} (h : Word.Spelling text x) :
      Spelling ('(' :: (text ++ [')'])) (.indirect x)
  | constant {text : List Char} {x : Word} (h : Word.Spelling text x) :
      Spelling ('=' :: text) (.constant x)

variable {text : List Char} {o p : Operand}

/-- The first character, if there is one, tells the modes apart. -/
theorem Spelling.unique (ho : Spelling text o) (hp : Spelling text p) : o = p := by
  generalize htext : text = text' at hp
  cases ho with
  | absent =>
      cases hp with
      | absent => rfl
      | direct h => exact absurd htext.symm h.ne_nil
      | indirect | constant => cases htext
  | direct h =>
      subst htext
      cases hp with
      | absent => exact absurd rfl h.ne_nil
      | direct h' => rw [h.unique h']
      | indirect | constant => exact absurd List.mem_cons_self (h.notMem rfl)
  | indirect h =>
      cases hp with
      | absent | constant => cases htext
      | direct h' => exact absurd (htext ▸ List.mem_cons_self) (h'.notMem (c := '(') rfl)
      | indirect h' =>
          obtain rfl := List.append_cancel_right (List.cons.inj htext).2
          rw [h.unique h']
  | constant h =>
      cases hp with
      | absent | indirect => cases htext
      | direct h' => exact absurd (htext ▸ List.mem_cons_self) (h'.notMem (c := '=') rfl)
      | constant h' =>
          obtain rfl := (List.cons.inj htext).2
          rw [h.unique h']

/-- The text of an operand spells it. -/
theorem Spelling.ofOperand (o : Operand) : Spelling o.text.toList o := by
  cases o with
  | absent => exact .absent
  | direct x => exact .direct (.ofWord x)
  | indirect x => simpa [text] using Spelling.indirect (.ofWord x)
  | constant x => simpa [text] using Spelling.constant (.ofWord x)

end Operand

namespace Instruction

/-- A line with the text of an instruction begins with its mnemonic, whatever its operand is. -/
theorem first_text (i : Instruction) :
    Lexeme.first (i.text.toList ++ ['\n']) =
      (.token (.keyword i.mnemonic), i.operand.text.toList ++ ['\n']) := by
  obtain ⟨tail, htext, hafter⟩ := i.exists_toList_text
  rw [htext]
  exact Lexeme.first_of_tokenLead (.keyword isGap_nil i.mnemonic hafter)

/-- Instructions with the same text differ in their lines at most. -/
theorem text_eq_iff {i j : Instruction} :
    i.text = j.text ↔ i.mnemonic = j.mnemonic ∧ i.operand = j.operand := by
  constructor
  · intro h
    have hfirst := i.first_text
    rw [h, j.first_text, Prod.mk.injEq] at hfirst
    obtain ⟨hmnemonic, hrest⟩ := hfirst
    have hoperand : j.operand.text.toList = i.operand.text.toList := List.append_cancel_right hrest
    constructor
    · exact (Token.keyword.inj (Lexeme.token.inj hmnemonic)).symm
    · exact (Operand.Spelling.ofOperand i.operand).unique (hoperand ▸ .ofOperand j.operand)
  · rintro ⟨hmnemonic, hoperand⟩
    rw [text, hmnemonic, hoperand, text]

end Instruction

/-- Registers, inputs and instructions can be told apart by their texts, whatever words are in
them. The text of registers can be read as one list of entries only. Its addresses ascend, and it
has one entry for each register that has been written, with the value of the register. -/
theorem printed_state_loses_nothing :
    (∀ r s : Registers, r.text = s.text ↔ ∀ a, r.get? a = s.get? a) ∧
      (∀ i j : Input, i.text = j.text ↔ i.values = j.values) ∧
      (∀ i j : Instruction,
        i.text = j.text ↔ i.mnemonic = j.mnemonic ∧ i.operand = j.operand) ∧
      ∀ r : Registers, ∃ entries : List (Word × Word),
        (∀ es, Registers.Lists r.text es ↔ es = entries) ∧
          (entries.Pairwise fun x y => x.1.toInt < y.1.toInt) ∧
          (∀ a v, (a, v) ∈ entries ↔ r.get? a = some v) ∧
          ∀ a, (entries.map Prod.fst).count a = if r.isSet a then 1 else 0 := by
  refine ⟨fun _ _ => Registers.text_eq_iff, fun _ _ => Input.text_eq_iff,
    fun _ _ => Instruction.text_eq_iff, fun r => ?_⟩
  have hascending : r.entries.Pairwise fun x y => x.1.toInt < y.1.toInt :=
    r.ascending.imp Int64.lt_iff_toInt_lt.mp
  exact ⟨r.entries, fun _ => Registers.lists_text_iff, hascending,
    fun _ _ => Registers.mem_entries_iff, r.count_address⟩

end RandomAccessMachine
