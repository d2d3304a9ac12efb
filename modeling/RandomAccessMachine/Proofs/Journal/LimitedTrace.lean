import RandomAccessMachine.Proofs.Journal.Ascii
import RandomAccessMachine.Proofs.Journal.UnlimitedTrace

/-!
# Traces with a limit

With a limit on the bytes that can be written, every traced run ends, and what
it writes is the trace without a limit, cut at the limit. When something is
cut off, the number of headings in front of the cut tells the state of the
machine.

## Implementation notes

A trace without a limit may be infinite, so it is given by its bytes:
`TracedMachine.Writes` says which byte stands at a place, sooner or later.
-/

namespace RandomAccessMachine

namespace Trace

/-- The first `n` steps succeed, and the heading of the next one lies within the limit. -/
def HeadingWithin (m : Machine) (limit n : Nat) : Prop :=
  m.Executes n ∧ (m.after n).instruction?.isSome ∧ (Utf8.bytes (headed m n)).length ≤ limit

/-- The machine halts in silence behind `n` steps, and all their blocks lie within the limit. -/
def SilentHaltWithin (m : Machine) (limit n : Nat) : Prop :=
  m.Executes n ∧ ¬ (m.after n).isHalted ∧ (m.after n).instruction? = none ∧
    (Utf8.bytes (upTo m n)).length ≤ limit

/-- The state in which a machine is left when its trace is cut at the limit: as many steps as
there are headings in front of the cut have been made, and a silent halt if it comes before the
cut. -/
def LeavesAtCut (m : Machine) (limit : Nat) (final : Machine) : Prop :=
  ∃ k, (∀ n, HeadingWithin m limit n ↔ n < k) ∧
    ((SilentHaltWithin m limit k ∧ final = m.after (k + 1)) ∨
      (¬ SilentHaltWithin m limit k ∧ final = m.after k))

section Within

variable {m : Machine} {limit n k : Nat}

theorem length_bytes_upTo (m : Machine) (n : Nat) :
    (Utf8.bytes (upTo m n)).length = (upTo m n).length :=
  Utf8.length_bytes_of_ascii (ascii_upTo m n)

theorem length_bytes_headed (m : Machine) (n : Nat) :
    (Utf8.bytes (headed m n)).length = (headed m n).length :=
  Utf8.length_bytes_of_ascii (ascii_headed m n)

/-- The headings in front of a heading within the limit lie within it, too. -/
theorem HeadingWithin.of_le (h : HeadingWithin m limit n) (hk : k ≤ n) :
    HeadingWithin m limit k := by
  obtain rfl | hlt := Nat.eq_or_lt_of_le hk
  · exact h
  · obtain ⟨hexec, _, hlen⟩ := h
    obtain ⟨i, hi, _⟩ := hexec k hlt
    refine ⟨hexec.of_le hk, by simp [hi], ?_⟩
    have hbegin := (headed_prefix_upTo m hlt).trans (upTo_prefix_headed m n)
    calc
      (Utf8.bytes (headed m k)).length ≤ (Utf8.bytes (headed m n)).length :=
        (Utf8.bytes_isPrefix hbegin).length_le
      _ ≤ limit := hlen

/-- The heading of a step lies within the limit if its block does. -/
theorem headingWithin_of_upTo_succ (h : m.Executes (n + 1))
    (hfit : (upTo m (n + 1)).length ≤ limit) : HeadingWithin m limit n := by
  obtain ⟨i, hi, _⟩ := h n (Nat.lt_succ_self n)
  refine ⟨h.of_le (Nat.le_succ n), by simp [hi], ?_⟩
  calc
    (Utf8.bytes (headed m n)).length = (headed m n).length := length_bytes_headed m n
    _ ≤ (upTo m (n + 1)).length := (headed_prefix_upTo_succ m n).length_le
    _ ≤ limit := hfit

/-- The headings within the limit are counted by the first one that is not. -/
theorem headingWithin_iff_lt (hlast : ∀ j, k = j + 1 → HeadingWithin m limit j)
    (hnext : ¬ HeadingWithin m limit k) (n : Nat) : HeadingWithin m limit n ↔ n < k := by
  constructor
  · intro h
    by_contra hge
    exact hnext (h.of_le (by omega))
  · intro hlt
    exact (hlast (k - 1) (by omega)).of_le (by omega)

/-- The state at a cut in the opening, in a heading or in the rest of a block. -/
theorem leavesAtCut_after (hlast : ∀ j, k = j + 1 → HeadingWithin m limit j)
    (hcut : limit < (upTo m k).length ∨
      (∃ i, (m.after k).instruction? = some i) ∧ limit < (headed m k).length) :
    LeavesAtCut m limit (m.after k) := by
  have hheaded : limit < (headed m k).length := by
    obtain hcut | ⟨_, hcut⟩ := hcut
    · calc
        limit < (upTo m k).length := hcut
        _ ≤ (headed m k).length := (upTo_prefix_headed m k).length_le
    · exact hcut
  refine ⟨k, headingWithin_iff_lt hlast ?_, .inr ⟨?_, rfl⟩⟩
  · intro hgiven
    obtain ⟨_, _, hlen⟩ := hgiven
    rw [length_bytes_headed] at hlen
    omega
  · intro hgiven
    obtain ⟨_, _, hi, hlen⟩ := hgiven
    rw [length_bytes_upTo] at hlen
    obtain hcut | ⟨⟨i, hsome⟩, _⟩ := hcut
    · omega
    · simp [hi] at hsome

/-- The state at a cut in the closing line. -/
theorem leavesAtCut_closing (h : m.Executes k) (hi : (m.after k).instruction? = none)
    (hfit : (upTo m k).length ≤ limit) : LeavesAtCut m limit (m.after (k + 1)) := by
  refine ⟨k, headingWithin_iff_lt ?_ ?_, ?_⟩
  · rintro j rfl
    exact headingWithin_of_upTo_succ h hfit
  · intro hgiven
    obtain ⟨_, hsome, _⟩ := hgiven
    simp [hi] at hsome
  · by_cases hh : (m.after k).isHalted
    · refine .inr ⟨?_, Machine.after_succ_of_isHalted hh⟩
      intro hgiven
      obtain ⟨_, hnot, _⟩ := hgiven
      exact hnot hh
    · exact .inl ⟨⟨h, hh, hi, length_bytes_upTo m k ▸ hfit⟩, rfl⟩

end Within

end Trace

namespace TracedMachine

/-- The bytes of all text written so far. -/
def bytes (t : TracedMachine) : List UInt8 := t.output.toUTF8.data.toList

/-- The run writes this byte at this place, counted from 0, if it is given steps enough. -/
def Writes (t : TracedMachine) (place : Nat) (byte : UInt8) : Prop :=
  ∃ bound, (t.run bound).2.bytes[place]? = some byte

/-- The trace of the run begins with this text. -/
def BeginsWith (t : TracedMachine) (text : List Char) : Prop :=
  ∀ place byte, (Utf8.bytes text)[place]? = some byte → t.Writes place byte

theorem bytes_eq (t : TracedMachine) : t.bytes = Utf8.bytes t.output.toList :=
  Utf8.toList_toUTF8 t.output

variable {m : Machine} {limit : Nat} {asked : Option Level} {outcome : Outcome TraceError}
  {t : TracedMachine}

section Unlimited

variable {text : List Char} {bound place : Nat} {byte : UInt8}

/-- A byte that is written stays where it is. -/
theorem getElem?_bytes_of_le {more : Nat} (h : bound ≤ more)
    (hget : ((start m none (.empty asked)).run bound).2.bytes[place]? = some byte) :
    ((start m none (.empty asked)).run more).2.bytes[place]? = some byte := by
  obtain ⟨hplace, hbyte⟩ := List.getElem?_eq_some_iff.mp hget
  have hbegin := Utf8.bytes_isPrefix (output_prefix_output m asked h)
  rw [← bytes_eq, ← bytes_eq] at hbegin
  rw [← hbyte]
  exact List.prefix_iff_getElem?.mp hbegin place hplace

/-- The bytes of a text at the beginning of the trace are those that the run writes there. -/
theorem writes_iff_of_isPrefix
    (h : text <+: ((start m none (.empty asked)).run bound).2.output.toList)
    (hlt : place < (Utf8.bytes text).length) :
    (start m none (.empty asked)).Writes place byte ↔ (Utf8.bytes text)[place]? = some byte := by
  have hbytes (more : Nat) (hle : bound ≤ more) :
      ((start m none (.empty asked)).run more).2.bytes[place]? = (Utf8.bytes text)[place]? := by
    have hbegin := Utf8.bytes_isPrefix (h.trans (output_prefix_output m asked hle))
    rw [bytes_eq, List.prefix_iff_getElem?.mp hbegin place hlt, List.getElem?_eq_getElem hlt]
  constructor
  · intro hgiven
    obtain ⟨other, hother⟩ := hgiven
    rw [← hbytes _ (Nat.le_max_left bound other)]
    exact getElem?_bytes_of_le (Nat.le_max_right bound other) hother
  · intro hget
    exact ⟨bound, (hbytes bound (Nat.le_refl bound)).trans hget⟩

theorem beginsWith_of_isPrefix
    (h : text <+: ((start m none (.empty asked)).run bound).2.output.toList) :
    (start m none (.empty asked)).BeginsWith text := by
  intro place byte hget
  exact (writes_iff_of_isPrefix h (List.getElem?_eq_some_iff.mp hget).1).mpr hget

/-- The bytes of an ended run are those that it writes. -/
theorem writes_iff_of_ended (h : ((start m none (.empty asked)).run bound).1 ≠ .unfinished) :
    (start m none (.empty asked)).Writes place byte ↔
      ((start m none (.empty asked)).run bound).2.bytes[place]? = some byte := by
  constructor
  · intro hgiven
    obtain ⟨other, hother⟩ := hgiven
    rw [← run_of_le (Nat.le_max_left bound other) h]
    exact getElem?_bytes_of_le (Nat.le_max_right bound other) hother
  · intro hget
    exact ⟨bound, hget⟩

/-- A run whose trace lies within the limit ends within that many steps. -/
theorem run_eq_of_length_le (h : ((start m none (.empty asked)).run bound).1 ≠ .unfinished)
    (hlen : ((start m none (.empty asked)).run bound).2.output.toList.length ≤ limit)
    {more : Nat} (hmore : limit ≤ more) :
    (start m none (.empty asked)).run more = (start m none (.empty asked)).run bound := by
  have hended : ((start m none (.empty asked)).run more).1 ≠ .unfinished := by
    intro hu
    have hlt := lt_length_output_of_unfinished hu
    have hle := (output_prefix_output m asked (Nat.le_max_right bound more)).length_le
    rw [run_of_le (Nat.le_max_left bound more) h] at hle
    omega
  obtain hle | hle := Nat.le_total bound more
  · exact run_of_le hle h
  · exact (run_of_le hle hended).symm

end Unlimited

section Limited

/-- A tracer that has filled its room with the beginning of a longer trace. -/
structure IsCut (m : Machine) (limit : Nat) (asked : Option Level) (t : TracedMachine) : Prop where
  leaves : Trace.LeavesAtCut m limit t.machine
  text : ∃ text bound, text <+: ((start m none (.empty asked)).run bound).2.output.toList ∧
    (∀ c ∈ text, c.toNat < 128) ∧ limit < text.length ∧ t.output.toList = text.take limit

/-- A tracer whose whole trace lies within the limit. It has ended as one without a limit. -/
structure IsWhole (m : Machine) (limit : Nat) (asked : Option Level)
    (outcome : Outcome TraceError) (t : TracedMachine) : Prop where
  ended : outcome ≠ .unfinished
  run : ∃ bound, ((start m none (.empty asked)).run bound).1 = outcome ∧
    ((start m none (.empty asked)).run bound).2.machine = t.machine ∧
    ((start m none (.empty asked)).run bound).2.output = t.output
  ascii : ∀ c ∈ t.output.toList, c.toNat < 128
  length_le : t.output.toList.length ≤ limit

variable {text : List Char} {bound : Nat}

theorem IsCut.of_fills (hf : (start m (some limit) (.empty asked)).Fills t text)
    (hleaves : limit < text.length → Trace.LeavesAtCut m limit t.machine)
    (hbegin : text <+: ((start m none (.empty asked)).run bound).2.output.toList)
    (hascii : ∀ c ∈ text, c.toNat < 128) : IsCut m limit asked t := by
  obtain ⟨room, hroom, hlt, hout⟩ := hf
  obtain rfl : limit = room := Option.some.inj hroom
  exact ⟨hleaves hlt, text, bound, hbegin, hascii, hlt, by simpa using hout⟩

theorem IsWhole.of_takes (ht : (start m (some limit) (.empty asked)).Takes t text)
    (hended : outcome ≠ .unfinished)
    (houtcome : ((start m none (.empty asked)).run bound).1 = outcome)
    (hmachine : ((start m none (.empty asked)).run bound).2.machine = t.machine)
    (hout : ((start m none (.empty asked)).run bound).2.output.toList = text)
    (hascii : ∀ c ∈ text, c.toNat < 128) : IsWhole m limit asked outcome t := by
  have htext := ht.output_of_start
  refine ⟨hended, ⟨bound, houtcome, hmachine, ?_⟩, htext ▸ hascii, htext ▸ ht.fits limit rfl⟩
  exact String.toList_inj.mp (hout.trans htext.symm)

/-- When the run of a tracer with a limit has ended, its trace is cut at the limit or lies within
it. -/
theorem EndsAs.cut_or_whole (h : EndsAs (start m (some limit) (.empty asked)) outcome t) :
    (outcome = .failed .full ∧ IsCut m limit asked t) ∨ IsWhole m limit asked outcome t := by
  cases h with
  | openingCut hm hf =>
      have hbegin := upTo_prefix_output asked (.zero m) (Nat.le_refl 0)
      refine .inl ⟨rfl, .of_fills hf ?_ hbegin (Trace.ascii_upTo m 0)⟩
      intro hlt
      have hleaves : Trace.LeavesAtCut m limit (m.after 0) :=
        Trace.leavesAtCut_after (by simp) (.inl hlt)
      exact hm ▸ hleaves
  | headingCut n hexec hi hm hfit hf =>
      have hbegin := headed_prefix_output asked hexec hi (Nat.lt_succ_self n)
      refine .inl ⟨rfl, .of_fills hf ?_ hbegin (Trace.ascii_headed m n)⟩
      intro hlt
      rw [hm]
      apply Trace.leavesAtCut_after
      · rintro j rfl
        exact Trace.headingWithin_of_upTo_succ hexec (hfit limit rfl)
      · exact .inr ⟨⟨_, hi⟩, hlt⟩
  | faulted n hexec hi hp hm ht =>
      obtain ⟨houtcome, hmachine, hout⟩ :=
        run_of_perform_eq_error asked hexec hi hp (Nat.lt_succ_self n)
      right
      exact .of_takes ht nofun houtcome (hmachine.trans hm.symm) hout (Trace.ascii_headed m n)
  | remainderCut n hexec hm hfit hf =>
      have hbegin := upTo_prefix_output asked hexec (Nat.le_refl (n + 1))
      refine .inl ⟨rfl, .of_fills hf ?_ hbegin (Trace.ascii_upTo m (n + 1))⟩
      intro hlt
      rw [hm]
      apply Trace.leavesAtCut_after
      · rintro j hj
        obtain rfl : n = j := Nat.succ.inj hj
        obtain ⟨i, hi, _⟩ := hexec n (Nat.lt_succ_self n)
        refine ⟨hexec.of_le (Nat.le_succ n), Option.isSome_iff_exists.mpr ⟨i, hi⟩, ?_⟩
        rw [Trace.length_bytes_headed]
        exact hfit limit rfl
      · exact .inl hlt
  | closingCut n hexec hi hm hfit hf =>
      obtain ⟨_, _, hout⟩ := run_of_instruction?_eq_none asked hexec hi (Nat.lt_succ_self n)
      have hbegin : Trace.closed m n <+:
          ((start m none (.empty asked)).run (n + 1)).2.output.toList := hout ▸ List.prefix_rfl
      refine .inl ⟨rfl, .of_fills hf ?_ hbegin (Trace.ascii_closed m n)⟩
      intro _
      rw [hm]
      exact Trace.leavesAtCut_closing hexec hi (hfit limit rfl)
  | closed n hexec hi hm ht =>
      obtain ⟨houtcome, hmachine, hout⟩ :=
        run_of_instruction?_eq_none asked hexec hi (Nat.lt_succ_self n)
      right
      exact .of_takes ht nofun houtcome (hmachine.trans hm.symm) hout (Trace.ascii_closed m n)

/-- A trace that is cut holds the bytes in front of the limit, and others are missing. -/
theorem IsCut.getElem?_bytes_iff (h : IsCut m limit asked t) :
    (∀ place byte, t.bytes[place]? = some byte ↔
      place < limit ∧ (start m none (.empty asked)).Writes place byte) ∧
    ∃ byte, (start m none (.empty asked)).Writes limit byte := by
  obtain ⟨text, bound, hbegin, hascii, hlt, hout⟩ := h.text
  have hlimit : limit < (Utf8.bytes text).length := by
    rwa [Utf8.length_bytes_of_ascii hascii]
  constructor
  · intro place byte
    rw [bytes_eq, hout, Utf8.bytes_take_of_ascii hascii, List.getElem?_take]
    by_cases hplace : place < limit
    · simp only [hplace, if_true, true_and]
      exact (writes_iff_of_isPrefix hbegin (Nat.lt_trans hplace hlimit)).symm
    · simp [hplace]
  · refine ⟨(Utf8.bytes text)[limit], ?_⟩
    apply (writes_iff_of_isPrefix hbegin hlimit).mpr
    exact List.getElem?_eq_getElem hlimit

/-- A trace that is whole holds all bytes. -/
theorem IsWhole.getElem?_bytes_iff (h : IsWhole m limit asked outcome t) :
    (∀ place byte, t.bytes[place]? = some byte ↔
      place < limit ∧ (start m none (.empty asked)).Writes place byte) ∧
    ∀ byte, ¬ (start m none (.empty asked)).Writes limit byte := by
  obtain ⟨bound, houtcome, _, hout⟩ := h.run
  have hwrites (place : Nat) (byte : UInt8) :
      (start m none (.empty asked)).Writes place byte ↔ t.bytes[place]? = some byte := by
    rw [writes_iff_of_ended (houtcome ▸ h.ended), bytes, bytes, hout]
  have hlimit : t.bytes.length ≤ limit := by
    rw [bytes_eq, Utf8.length_bytes_of_ascii h.ascii]
    exact h.length_le
  constructor
  · intro place byte
    rw [hwrites]
    constructor
    · intro hget
      obtain ⟨hplace, _⟩ := List.getElem?_eq_some_iff.mp hget
      exact ⟨Nat.lt_of_lt_of_le hplace hlimit, hget⟩
    · intro hget
      exact hget.2
  · intro byte
    rw [hwrites, List.getElem?_eq_none hlimit]
    simp

/-- When the trace is whole, the run without a limit ends within as many steps as the limit. -/
theorem IsWhole.run_eq (h : IsWhole m limit asked outcome t) (hb : limit ≤ bound) :
    ((start m none (.empty asked)).run bound).1 = outcome ∧
      ((start m none (.empty asked)).run bound).2.machine = t.machine := by
  obtain ⟨enough, houtcome, hmachine, hout⟩ := h.run
  rw [run_eq_of_length_le (houtcome ▸ h.ended) (hout ▸ h.length_le) hb]
  exact ⟨houtcome, hmachine⟩

/-- The run of a tracer with a limit has ended after as many steps as it can write bytes. -/
theorem limited_run_ended (m : Machine) (asked : Option Level)
    (h : limit ≤ bound) : ((start m (some limit) (.empty asked)).run bound).1 ≠ .unfinished := by
  intro hu
  obtain ⟨_, hstands⟩ | hends := run_cases m (some limit) asked bound
  · have hfits := hstands.takes.fits limit rfl
    have hlt : bound < _ := Trace.lt_length_upTo m bound
    change (Trace.upTo m bound).length ≤ limit at hfits
    omega
  · rw [hu] at hends
    cases hends

/-- A traced run that can write so many bytes ends, and it writes the trace without a limit as far
as the limit. If that is the whole trace, the run ends as the one without a limit does. Otherwise
it fails because its sink is full, and it leaves the machine as the headings in front of the cut
tell. -/
theorem limited_run_is_cut (m : Machine) (limit : Nat) (asked : Option Level) :
    let full := start m none (.empty asked)
    let limited := start m (some limit) (.empty asked)
    (∀ n, m.Executes n → full.BeginsWith (Trace.upTo m n) ∧
      ((m.after n).instruction?.isSome → full.BeginsWith (Trace.headed m n))) ∧
    ∃ outcome t, outcome ≠ .unfinished ∧
      (∀ bound, limit ≤ bound → limited.run bound = (outcome, t)) ∧
      (∀ place byte, t.bytes[place]? = some byte ↔ place < limit ∧ full.Writes place byte) ∧
      ((∀ byte, ¬ full.Writes limit byte) → ∀ bound, limit ≤ bound →
        (full.run bound).1 = outcome ∧ (full.run bound).2.machine = t.machine) ∧
      ∀ byte, full.Writes limit byte →
        outcome = .failed .full ∧ Trace.LeavesAtCut m limit t.machine := by
  intro full limited
  have hended := limited_run_ended m asked (Nat.le_refl limit)
  refine ⟨?_, (limited.run limit).1, (limited.run limit).2, hended, ?_, ?_⟩
  · intro n hexec
    refine ⟨beginsWith_of_isPrefix (upTo_prefix_output asked hexec (Nat.le_refl n)), ?_⟩
    intro hsome
    obtain ⟨i, hi⟩ := Option.isSome_iff_exists.mp hsome
    exact beginsWith_of_isPrefix (headed_prefix_output asked hexec hi (Nat.lt_succ_self n))
  · intro bound hbound
    exact run_of_le hbound hended
  · have hends : EndsAs limited (limited.run limit).1 (limited.run limit).2 := by
      obtain ⟨hu, _⟩ | hends := run_cases m (some limit) asked limit
      · exact absurd hu hended
      · exact hends
    generalize (limited.run limit).1 = outcome, (limited.run limit).2 = t at hends
    obtain ⟨houtcome, hcut⟩ | hwhole := hends.cut_or_whole
    · obtain ⟨hbytes, byte, hbyte⟩ := hcut.getElem?_bytes_iff
      refine ⟨hbytes, ?_, ?_⟩
      · intro hnone
        exact absurd hbyte (hnone byte)
      · intro _ _
        exact ⟨houtcome, hcut.leaves⟩
    · obtain ⟨hbytes, hnone⟩ := hwhole.getElem?_bytes_iff
      refine ⟨hbytes, ?_, ?_⟩
      · intro _ bound hbound
        exact hwhole.run_eq hbound
      · intro byte hbyte
        exact absurd hbyte (hnone byte)

end Limited

end TracedMachine

end RandomAccessMachine
