import RandomAccessMachine.Source.Line

/-!
# The bytes of a text

A text is stored as the bytes of its characters, one after the other. They can
be decoded again, also in the middle of other characters, the byte of a line
feed belongs to no other character, and an ASCII character is a single byte.
-/

namespace RandomAccessMachine.Utf8

/-- The bytes of characters one after the other. -/
def bytes (chars : List Char) : List UInt8 := chars.flatMap String.utf8EncodeChar

@[simp] theorem bytes_nil : bytes [] = [] := rfl

@[simp] theorem bytes_append (a b : List Char) : bytes (a ++ b) = bytes a ++ bytes b :=
  List.flatMap_append

@[simp] theorem bytes_lineFeed : bytes ['\n'] = [10] := rfl

theorem toList_utf8Encode (chars : List Char) : chars.utf8Encode.data.toList = bytes chars := by
  simp [List.utf8Encode, bytes]

/-- The bytes of a string are those of its characters. -/
theorem toList_toUTF8 (text : String) : text.toUTF8.data.toList = bytes text.toList := by
  rw [← toList_utf8Encode, String.utf8Encode_toList, String.toUTF8_eq_toByteArray]

/-- The bytes of characters encode these characters. -/
theorem decode?_bytes (chars : List Char) : Source.decode? (bytes chars) = some chars := by
  have henc : (bytes chars).toByteArray = (String.ofList chars).toByteArray := by
    simp [bytes, List.utf8Encode]
  have hvalid : ((bytes chars).toByteArray).IsValidUTF8 := henc ▸ (String.ofList chars).isValidUTF8
  have hstring : String.fromUTF8 (bytes chars).toByteArray hvalid = String.ofList chars :=
    String.toByteArray_inj.mp henc
  rw [Source.decode?, String.fromUTF8?]
  simp [hvalid, hstring]

/-- Characters are not stored as nothing. -/
theorem bytes_ne_nil {chars : List Char} (h : chars ≠ []) : bytes chars ≠ [] := by
  intro hnil
  have hdecode := decode?_bytes chars
  rw [hnil, ← bytes_nil, decode?_bytes] at hdecode
  exact h (Option.some.inj hdecode).symm

/-- Every character is encoded by at least one byte. -/
theorem length_le_bytes (chars : List Char) : chars.length ≤ (bytes chars).length := by
  induction chars with
  | nil => exact Nat.le_refl 0
  | cons c rest ih =>
      have hpos : 0 < (bytes [c]).length := List.length_pos_iff.mpr (bytes_ne_nil (by simp))
      have hsplit : bytes (c :: rest) = bytes [c] ++ bytes rest := bytes_append [c] rest
      rw [hsplit, List.length_append, List.length_cons]
      omega

/-- Bytes that encode characters are the bytes of these. -/
theorem bytes_of_decode? {line : List UInt8} {chars : List Char}
    (h : Source.decode? line = some chars) : bytes chars = line := by
  rw [Source.decode?, Option.map_eq_some_iff] at h
  obtain ⟨text, htext, rfl⟩ := h
  have hbytes : text.toByteArray = line.toByteArray := by
    unfold String.fromUTF8? at htext
    split at htext
    · rw [← Option.some.inj htext]
      rfl
    · cases htext
  rw [← toList_utf8Encode, String.utf8Encode_toList, hbytes]
  simp

/-- Bytes are valid exactly if they are the bytes of characters. -/
theorem isValidUTF8_toByteArray_iff {line : List UInt8} :
    line.toByteArray.IsValidUTF8 ↔ ∃ chars, line = bytes chars := by
  have hencode (chars : List Char) : chars.utf8Encode = (bytes chars).toByteArray := by
    simp [List.utf8Encode, bytes]
  constructor
  · rintro ⟨chars, hchars⟩
    have hbytes := congrArg (fun array => array.data.toList) (hchars.trans (hencode chars))
    exact ⟨chars, by simpa using hbytes⟩
  · rintro ⟨chars, rfl⟩
    exact ⟨chars, (hencode chars).symm⟩

/-- Where the bytes of characters are cut, those in front of the cut are the bytes of characters
exactly if those behind it are. -/
theorem exists_bytes_iff_of_append {chars : List Char} {front back : List UInt8}
    (h : bytes chars = front ++ back) : (∃ a, front = bytes a) ↔ ∃ b, back = bytes b := by
  let text := String.ofList chars
  let cut : String.Pos.Raw := ⟨front.length⟩
  have htext : text.toByteArray = front.toByteArray ++ back.toByteArray := by
    rw [← List.toByteArray_append, ← h]
    simp [text, List.utf8Encode, bytes]
  have hsize : text.utf8ByteSize = front.length + back.length := by
    rw [← String.size_toByteArray, htext]
    simp
  have hcut : cut ≤ text.rawEndPos := by
    rw [String.Pos.Raw.le_iff, String.byteIdx_rawEndPos, hsize]
    exact Nat.le_add_right _ _
  have hfront : text.toByteArray.extract 0 cut.byteIdx = front.toByteArray := by
    rw [htext]
    exact ByteArray.extract_append_eq_left (by simp [cut])
  have hback : text.toByteArray.extract cut.byteIdx text.utf8ByteSize = back.toByteArray := by
    rw [htext, hsize]
    exact ByteArray.extract_append_eq_right (by simp [cut]) (by simp)
  calc (∃ a, front = bytes a) ↔ front.toByteArray.IsValidUTF8 := isValidUTF8_toByteArray_iff.symm
    _ ↔ cut.IsValid text := by
      rw [String.Pos.Raw.isValid_iff_isValidUTF8_extract_zero, hfront, and_iff_right hcut]
    _ ↔ back.toByteArray.IsValidUTF8 := by
      rw [String.Pos.Raw.isValid_iff_isValidUTF8_extract_utf8ByteSize, hback, and_iff_right hcut]
    _ ↔ ∃ b, back = bytes b := isValidUTF8_toByteArray_iff

/-- Characters around bytes are decoded along with them, and do not help if these encode none. -/
theorem decode?_around (front back : List Char) (line : List UInt8) :
    Source.decode? (bytes front ++ line ++ bytes back) =
      (Source.decode? line).map fun chars => front ++ chars ++ back := by
  cases hline : Source.decode? line with
  | some chars =>
      rw [← bytes_of_decode? hline, ← bytes_append, ← bytes_append, decode?_bytes]
      rfl
  | none =>
      cases hall : Source.decode? (bytes front ++ line ++ bytes back) with
      | none => rfl
      | some all =>
          have hfront := bytes_of_decode? hall
          rw [List.append_assoc] at hfront
          obtain ⟨rest, hrest⟩ := (exists_bytes_iff_of_append hfront).mp ⟨front, rfl⟩
          obtain ⟨chars, rfl⟩ := (exists_bytes_iff_of_append hrest.symm).mpr ⟨back, rfl⟩
          rw [decode?_bytes] at hline
          cases hline

/-- An ASCII character is one byte. -/
theorem utf8EncodeChar_of_lt {c : Char} (h : c.toNat < 128) :
    String.utf8EncodeChar c = [UInt8.ofNat c.toNat] := by
  have hle : c.toNat ≤ 127 := by omega
  simp [String.utf8EncodeChar, hle]

/-- The bytes of all other characters lie outside ASCII. -/
theorem le_of_mem_utf8EncodeChar {c : Char} (h : 128 ≤ c.toNat) {b : UInt8}
    (hb : b ∈ String.utf8EncodeChar c) : 128 ≤ b.toNat := by
  have hc : c.val.toNat = c.toNat := rfl
  have hbyte (x : Nat) (hx : 128 ≤ x ∧ x < 256) (he : b = UInt8.ofNat x) : 128 ≤ b.toNat := by
    rw [he, UInt8.toNat_ofNat', Nat.mod_eq_of_lt hx.2]
    exact hx.1
  unfold String.utf8EncodeChar at hb
  rw [hc, if_neg (by omega)] at hb
  split at hb
  · simp only [List.mem_cons, List.not_mem_nil, or_false] at hb
    rcases hb with hb | hb <;> exact hbyte _ (by omega) hb
  · split at hb
    · simp only [List.mem_cons, List.not_mem_nil, or_false] at hb
      rcases hb with hb | hb | hb <;> exact hbyte _ (by omega) hb
    · simp only [List.mem_cons, List.not_mem_nil, or_false] at hb
      rcases hb with hb | hb | hb | hb <;> exact hbyte _ (by omega) hb

/-- The byte of a line feed is part of no other character. -/
theorem ten_mem_utf8EncodeChar {c : Char} : 10 ∈ String.utf8EncodeChar c ↔ c = '\n' := by
  constructor
  · intro h
    obtain hc | hc := Nat.lt_or_ge c.toNat 128
    · rw [utf8EncodeChar_of_lt hc, List.mem_singleton] at h
      have hten : (10 : UInt8).toNat = (UInt8.ofNat c.toNat).toNat := congrArg UInt8.toNat h
      rw [UInt8.toNat_ofNat', Nat.mod_eq_of_lt (by omega)] at hten
      exact Char.toNat_inj.mp hten.symm
    · have := le_of_mem_utf8EncodeChar hc h
      simp at this
  · rintro rfl
    decide

theorem ten_notMem_bytes {chars : List Char} (h : '\n' ∉ chars) : 10 ∉ bytes chars := by
  intro hmem
  obtain ⟨c, hc, hten⟩ := List.mem_flatMap.mp hmem
  exact h (ten_mem_utf8EncodeChar.mp hten ▸ hc)

theorem lineFeed_notMem_of_bytes {chars : List Char} (h : 10 ∉ bytes chars) : '\n' ∉ chars := by
  intro hmem
  exact h (List.mem_flatMap.mpr ⟨'\n', hmem, ten_mem_utf8EncodeChar.mpr rfl⟩)

theorem lineFeed_notMem_of_decode? {line : List UInt8} {chars : List Char}
    (h : Source.decode? line = some chars) (hline : 10 ∉ line) : '\n' ∉ chars := by
  apply lineFeed_notMem_of_bytes
  rwa [bytes_of_decode? h]

/-- Characters whose last byte is that of a line feed end with a line feed. -/
theorem eq_lineFeed_of_bytes {chars : List Char} {c : Char} {body : List UInt8}
    (h : bytes (chars ++ [c]) = body ++ [10]) : c = '\n' := by
  obtain hnil | ⟨front, last, hc⟩ := List.eq_nil_or_concat (String.utf8EncodeChar c)
  · exact absurd hnil String.utf8EncodeChar_ne_nil
  · rw [List.concat_eq_append] at hc
    have hbytes : bytes (chars ++ [c]) = bytes chars ++ front ++ [last] := by
      simp [bytes, hc]
    rw [hbytes] at h
    have hlast : [last] = [10] := (List.append_inj' h rfl).2
    apply ten_mem_utf8EncodeChar.mp
    rw [hc, hlast]
    simp

/-- The bytes of an ASCII text are its characters. -/
theorem bytes_of_ascii {chars : List Char} (h : ∀ c ∈ chars, c.toNat < 128) :
    bytes chars = chars.map fun c => UInt8.ofNat c.toNat := by
  induction chars with
  | nil => rfl
  | cons c rest ih =>
      have hc := utf8EncodeChar_of_lt (h c (by simp))
      have hrest := ih fun d hd => h d (by simp [hd])
      simp only [bytes, List.flatMap_cons, List.map_cons] at hrest ⊢
      rw [hc, hrest, List.singleton_append]

theorem length_bytes_of_ascii {chars : List Char} (h : ∀ c ∈ chars, c.toNat < 128) :
    (bytes chars).length = chars.length := by
  rw [bytes_of_ascii h, List.length_map]

/-- A cut between characters of an ASCII text is a cut at the same place between its bytes. -/
theorem bytes_take_of_ascii {chars : List Char} (h : ∀ c ∈ chars, c.toNat < 128) (n : Nat) :
    bytes (chars.take n) = (bytes chars).take n := by
  rw [bytes_of_ascii h, bytes_of_ascii fun c hc => h c (List.mem_of_mem_take hc), List.map_take]

theorem bytes_isPrefix {a b : List Char} (h : a <+: b) : bytes a <+: bytes b := by
  obtain ⟨rest, rfl⟩ := h
  rw [bytes_append]
  exact List.prefix_append _ _

end RandomAccessMachine.Utf8
