import RandomAccessMachine.Word

/-!
# Data registers

The registers are sparse: only those written so far are stored, in ascending
order of their addresses. A register that holds a written 0 differs from one
that was never written, although both read as 0.

## Implementation notes

The entries are a list with strictly ascending addresses, so two register
files that agree at every address are equal.
-/

namespace RandomAccessMachine

/-- The registers written so far with their values. -/
structure Registers where
  entries : List (Word × Word)
  ascending : entries.Pairwise fun a b => a.1 < b.1
  deriving DecidableEq

namespace Registers

/-- Put an entry between its neighbours, or in place of the one with its address. -/
def insertEntry (e : Word × Word) : List (Word × Word) → List (Word × Word)
  | [] => [e]
  | first :: rest =>
      if e.1 < first.1 then e :: first :: rest
      else if e.1 = first.1 then e :: rest
      else first :: insertEntry e rest

theorem mem_insertEntry {e x : Word × Word} {entries : List (Word × Word)}
    (h : x ∈ insertEntry e entries) : x = e ∨ x ∈ entries := by
  induction entries with
  | nil => simpa [insertEntry] using h
  | cons first rest ih =>
      simp only [insertEntry] at h
      split at h
      · simpa using h
      · split at h <;> simp only [List.mem_cons] at h ⊢
        · exact h.imp_right .inr
        · rcases h with h | h
          · exact .inr (.inl h)
          · exact (ih h).imp_right .inr

theorem ascending_insertEntry (e : Word × Word) {entries : List (Word × Word)}
    (h : entries.Pairwise fun a b => a.1 < b.1) :
    (insertEntry e entries).Pairwise fun a b => a.1 < b.1 := by
  induction entries with
  | nil => simp [insertEntry]
  | cons first rest ih =>
      obtain ⟨hfirst, hrest⟩ := List.pairwise_cons.mp h
      simp only [insertEntry]
      split
      · rename_i hlt
        refine List.pairwise_cons.mpr ⟨fun x hx => ?_, h⟩
        rcases List.mem_cons.mp hx with rfl | hx
        · exact hlt
        · exact Int64.lt_trans hlt (hfirst x hx)
      · split
        · rename_i heq
          exact List.pairwise_cons.mpr ⟨fun x hx => heq ▸ hfirst x hx, hrest⟩
        · rename_i hlt hne
          refine List.pairwise_cons.mpr ⟨fun x hx => ?_, ih hrest⟩
          rcases mem_insertEntry hx with rfl | hx
          · exact Int64.lt_of_le_of_ne (Int64.not_lt.mp hlt) (Ne.symm hne)
          · exact hfirst x hx

/-- The value of the first entry with an address. -/
def valueAt (address : Word) : List (Word × Word) → Option Word
  | [] => none
  | first :: rest => if address = first.1 then some first.2 else valueAt address rest

/-- No register has been written. -/
def empty : Registers := ⟨[], .nil⟩

/-- The value of a register that has been written. -/
def get? (r : Registers) (address : Word) : Option Word := valueAt address r.entries

/-- The value of a register, where one that was never written reads as 0. -/
def read (r : Registers) (address : Word) : Word := (r.get? address).getD 0

def isSet (r : Registers) (address : Word) : Bool := (r.get? address).isSome

def write (r : Registers) (address value : Word) : Registers :=
  ⟨insertEntry (address, value) r.entries, ascending_insertEntry _ r.ascending⟩

/-- Make a register one that was never written. -/
def erase (r : Registers) (address : Word) : Registers :=
  ⟨r.entries.filter fun e => e.1 != address, r.ascending.filter _⟩

/-- The value of the register whose address a register holds. -/
def readIndirect (r : Registers) (address : Word) : Word := r.read (r.read address)

/-- The value of register 0, the accumulator. -/
def accumulator (r : Registers) : Word := r.read 0

def setAccumulator (r : Registers) (value : Word) : Registers := r.write 0 value

/-- The registers of a new machine: the accumulator holds a written 0. -/
def initial : Registers := empty.write 0 0

/-- Every written register with its value, in ascending order of the addresses. -/
def text (r : Registers) : String :=
  "\x7b" ++ ", ".intercalate (r.entries.map fun e => Word.text e.1 ++ ": " ++ Word.text e.2)
    ++ "\x7d"

theorem valueAt_insertEntry (e : Word × Word) (entries : List (Word × Word)) (b : Word) :
    valueAt b (insertEntry e entries) = if b = e.1 then some e.2 else valueAt b entries := by
  induction entries with
  | nil => rfl
  | cons first rest ih =>
      simp only [insertEntry]
      split
      · rfl
      · split
        · rename_i heq
          simp only [valueAt, heq]
          split <;> rfl
        · rename_i hne
          simp only [valueAt, ih]
          split
          · rename_i hb
            rw [if_neg (fun h => hne (h.symm.trans hb))]
          · rfl

/-- A written register holds the written value, and the others keep theirs. -/
@[simp] theorem get?_write (r : Registers) (a v b : Word) :
    (r.write a v).get? b = if b = a then some v else r.get? b :=
  valueAt_insertEntry (a, v) r.entries b

@[simp] theorem get?_empty (a : Word) : empty.get? a = none := rfl

theorem valueAt_filter (entries : List (Word × Word)) (a b : Word) :
    valueAt b (entries.filter fun e => e.1 != a) = if b = a then none else valueAt b entries := by
  induction entries with
  | nil => simp [valueAt]
  | cons first rest ih =>
      by_cases hf : first.1 = a
      · simp only [List.filter_cons, hf, bne_self_eq_false, Bool.false_eq_true, if_false, ih, valueAt]
        split <;> rfl
      · have hkeep : (first.1 != a) = true := by simpa using hf
        simp only [List.filter_cons, hkeep, if_true, valueAt, ih]
        by_cases hb : b = first.1
        · simp [hb, hf]
        · simp [hb]

/-- An erased register holds nothing, and the others keep their values. -/
@[simp] theorem get?_erase (r : Registers) (a b : Word) :
    (r.erase a).get? b = if b = a then none else r.get? b :=
  valueAt_filter r.entries a b

@[simp] theorem read_write (r : Registers) (a v b : Word) :
    (r.write a v).read b = if b = a then v else r.read b := by
  by_cases h : b = a <;> simp [read, h]

theorem valueAt_eq_none_of_lt {entries : List (Word × Word)} {a : Word}
    (h : ∀ e ∈ entries, a < e.1) : valueAt a entries = none := by
  induction entries with
  | nil => rfl
  | cons first rest ih =>
      simp only [valueAt]
      rw [if_neg (Int64.ne_of_lt (h first (by simp)))]
      exact ih fun e he => h e (by simp [he])

/-- The head of a register file that agrees with another at every address is not below it. -/
theorem not_lt_of_valueAt_eq {x y : Word × Word} {xs ys : List (Word × Word)}
    (hy : (y :: ys).Pairwise fun a b => a.1 < b.1)
    (h : valueAt x.1 (x :: xs) = valueAt x.1 (y :: ys)) : ¬ x.1 < y.1 := by
  intro hlt
  have hnone : valueAt x.1 (y :: ys) = none := valueAt_eq_none_of_lt fun e he => by
    rcases List.mem_cons.mp he with rfl | he
    · exact hlt
    · exact Int64.lt_trans hlt ((List.pairwise_cons.mp hy).1 e he)
  rw [hnone] at h
  simp [valueAt] at h

theorem entries_eq_of_valueAt {xs ys : List (Word × Word)}
    (hx : xs.Pairwise fun a b => a.1 < b.1) (hy : ys.Pairwise fun a b => a.1 < b.1)
    (h : ∀ a, valueAt a xs = valueAt a ys) : xs = ys := by
  induction xs generalizing ys with
  | nil =>
      cases ys with
      | nil => rfl
      | cons y ys => simpa [valueAt] using h y.1
  | cons x xs ih =>
      cases ys with
      | nil => simpa [valueAt] using h x.1
      | cons y ys =>
          have hxy : x.1 = y.1 := Int64.le_antisymm
            (Int64.not_lt.mp (not_lt_of_valueAt_eq hx (h y.1).symm))
            (Int64.not_lt.mp (not_lt_of_valueAt_eq hy (h x.1)))
          have hval : x.2 = y.2 := by simpa [valueAt, hxy] using h x.1
          obtain ⟨hx₁, hx₂⟩ := List.pairwise_cons.mp hx
          obtain ⟨hy₁, hy₂⟩ := List.pairwise_cons.mp hy
          have htail : xs = ys := ih hx₂ hy₂ fun a => by
            by_cases ha : a = x.1
            · rw [valueAt_eq_none_of_lt fun e he => ha ▸ hx₁ e he,
                valueAt_eq_none_of_lt fun e he => (ha.trans hxy) ▸ hy₁ e he]
            · simpa [valueAt, ha, hxy ▸ ha] using h a
          rw [Prod.ext hxy hval, htail]

/-- Register files that agree at every address are equal. -/
theorem ext_get? {r s : Registers} (h : ∀ a, r.get? a = s.get? a) : r = s := by
  obtain ⟨xs, hx⟩ := r
  obtain ⟨ys, hy⟩ := s
  obtain rfl := entries_eq_of_valueAt hx hy h
  rfl

end Registers

end RandomAccessMachine
