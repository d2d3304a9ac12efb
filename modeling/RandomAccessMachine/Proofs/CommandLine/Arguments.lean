import Mathlib.Algebra.Group.Int.Defs
import Mathlib.Data.List.Forall2
import RandomAccessMachine.CommandLine.Session
import RandomAccessMachine.Proofs.Results
import RandomAccessMachine.Proofs.Text.Signed

/-!
# Command lines of values

A command line that gives values and nothing else, or the option for debugging
besides, is read as these values. A value denotes a word if it is written as
at most one sign and digits. The first value that does not is blamed.

## Implementation notes

An argument with a hyphen in front is a value if it looks like a negative
number, and behind two hyphens every argument is one. So every list of values
can be given on a command line.
-/

namespace RandomAccessMachine

theorem Word.ofInt?_eq_some_iff {n : Int} {w : Word} : ofInt? n = some w ↔ w.toInt = n := by
  simp only [ofInt?, Option.ite_none_right_eq_some, Option.some.injEq]
  constructor
  · intro h
    obtain ⟨⟨hle, hlt⟩, rfl⟩ := h
    exact Int64.toInt_ofInt_of_le hle hlt
  · intro h
    have hle := w.le_toInt
    have hlt := w.toInt_lt
    rw [← h]
    exact ⟨⟨hle, hlt⟩, Int64.ofInt_toInt w⟩

theorem Word.ofInt?_eq_none_iff {n : Int} : ofInt? n = none ↔ n < -2 ^ 63 ∨ 2 ^ 63 - 1 < n := by
  have hspan : (span : Int) = 2 ^ 63 := rfl
  simp only [ofInt?, hspan, ite_eq_right_iff, reduceCtorEq, imp_false, not_and]
  omega

namespace CommandLine

/-- A value that denotes an integer of 64 bits. -/
def IsNumber (value : String) : Prop :=
  ∃ n, Decimal.Denotes value.toList n ∧ -2 ^ 63 ≤ n ∧ n ≤ 2 ^ 63 - 1

/-- A value is read as the word that it denotes. -/
theorem parseValue?_eq_some_iff {value : String} {w : Word} :
    parseValue? value = some w ↔ Decimal.Denotes value.toList w.toInt := by
  rw [parseValue?, Option.bind_eq_some_iff]
  simp only [Decimal.signed?_eq_some_iff, Word.ofInt?_eq_some_iff]
  constructor
  · intro hgiven
    obtain ⟨n, hn, rfl⟩ := hgiven
    exact hn
  · intro h
    exact ⟨_, h, rfl⟩

/-- Values that denote no integer of 64 bits are not read. -/
theorem parseValue?_eq_none_of_not_isNumber {value : String} (h : ¬ IsNumber value) :
    parseValue? value = none := by
  rw [Option.eq_none_iff_forall_ne_some]
  intro w hw
  exact h ⟨w.toInt, parseValue?_eq_some_iff.mp hw, w.le_toInt, Int.le_sub_one_of_lt w.toInt_lt⟩

theorem exists_parseValue?_of_isNumber {value : String} (h : IsNumber value) :
    ∃ w, parseValue? value = some w := by
  obtain ⟨n, hn, hle, hlt⟩ := h
  cases hw : Word.ofInt? n with
  | none =>
      rw [Word.ofInt?_eq_none_iff] at hw
      omega
  | some w =>
      rw [← Word.ofInt?_eq_some_iff.mp hw] at hn
      exact ⟨w, parseValue?_eq_some_iff.mpr hn⟩

/-- Values that are numbers denote words. -/
theorem exists_denotes {values : List String} (h : ∀ value ∈ values, IsNumber value) :
    ∃ words : List Word,
      List.Forall₂ (fun value w => Decimal.Denotes value.toList w.toInt) values words := by
  induction values with
  | nil => exact ⟨[], .nil⟩
  | cons value values ih =>
      obtain ⟨hvalue, hvalues⟩ := List.forall_mem_cons.mp h
      obtain ⟨w, hw⟩ := exists_parseValue?_of_isNumber hvalue
      obtain ⟨words, hwords⟩ := ih hvalues
      exact ⟨w :: words, .cons (parseValue?_eq_some_iff.mp hw) hwords⟩

/-- Values that all denote words are the input registers with these words. -/
theorem parseInput_of_denotes {values : List String} {words : List Word}
    (h : List.Forall₂ (fun value w => Decimal.Denotes value.toList w.toInt) values words) :
    parseInput values = .ok ⟨words⟩ := by
  induction h with
  | nil => rfl
  | cons hvalue _ ih =>
      rw [parseInput, parseValue?_eq_some_iff.mpr hvalue, ih]
      rfl

/-- The first value that is no number is blamed. -/
theorem parseInput_of_not_isNumber {before after : List String} {bad : String}
    (hbefore : ∀ value ∈ before, IsNumber value) (hbad : ¬ IsNumber bad) :
    parseInput (before ++ bad :: after) = .error bad := by
  induction before with
  | nil => rw [List.nil_append, parseInput, parseValue?_eq_none_of_not_isNumber hbad]
  | cons value before ih =>
      obtain ⟨hvalue, hrest⟩ := List.forall_mem_cons.mp hbefore
      obtain ⟨w, hw⟩ := exists_parseValue?_of_isNumber hvalue
      rw [List.cons_append, parseInput, hw, ih hrest]
      rfl

/-- Whether an argument is taken for a value: it begins with no hyphen, is only a hyphen, or looks
like a negative number. -/
def isValue (arg : String) : Bool :=
  match arg.toList with
  | '-' :: rest => rest.isEmpty || Options.looksNumeric rest
  | _ => true

/-- Command lines that give values and, if asked for, the option for debugging. -/
inductive Gives : Bool → List String → List String → Prop
  | nil : Gives false [] []
  | value {debug : Bool} {args values : List String} {arg : String} (h : isValue arg = true)
      (rest : Gives debug args values) : Gives debug (arg :: args) (arg :: values)
  | debug {args values : List String} {arg : String} (h : arg = "-d" ∨ arg = "--debug")
      (rest : Gives false args values) : Gives true (arg :: args) values
  | hyphens (values : List String) : Gives false ("--" :: values) values

/-- Nothing that begins with two hyphens looks like a number. -/
theorem looksNumeric_hyphen (name : List Char) : Options.looksNumeric ('-' :: name) = false := by
  have hmantissa : ('-' :: name).takeWhile (fun c => !Options.beginsExponent c) =
      '-' :: name.takeWhile fun c => !Options.beginsExponent c := rfl
  unfold Options.looksNumeric
  rw [hmantissa]
  dsimp only
  split <;> simp

/-- An argument that is taken for a value is added to the values. -/
theorem readArgument_of_isValue {arg : String} (h : isValue arg = true) (o : Options) :
    o.readArgument arg = .ok (o.addValue arg) := by
  unfold isValue at h
  unfold Options.readArgument
  split
  · rename_i name hlist
    simp [hlist, looksNumeric_hyphen] at h
  · rename_i letter rest _ hlist
    have hnumeric : Options.looksNumeric (letter :: rest) = true := by simpa [hlist] using h
    rw [if_pos hnumeric]
  · rfl

theorem readArgument_of_debug {arg : String} (h : arg = "-d" ∨ arg = "--debug") {o : Options}
    (ho : o.debug = false) : o.readArgument arg = .ok { o with debug := true } := by
  have hfollow : o.follow .debug = .ok { o with debug := true } := by simp [Options.follow, ho]
  obtain rfl | rfl := h
  · have hread : o.readArgument "-d" = o.followLetters ['d'] := rfl
    rw [hread, Options.followLetters, Flag.ofLetter?]
    simp [hfollow, Options.followLetters]
  · exact hfollow

theorem Gives.readArguments {debug : Bool} {args values : List String}
    (h : Gives debug args values) (o : Options) (ho : debug = true → o.debug = false) :
    o.readArguments args =
      .ok { o with values := o.values ++ values, debug := o.debug || debug } := by
  induction h generalizing o with
  | nil => simp [Options.readArguments]
  | @value debug args values arg hvalue _ ih =>
      have hne : arg ≠ "--" := by
        rintro rfl
        exact absurd hvalue (by decide)
      have hrest := ih (o.addValue arg) ho
      rw [Options.readArguments, if_neg hne, readArgument_of_isValue hvalue]
      simpa [Options.addValue] using hrest
  | @debug args values arg harg _ ih =>
      have hne : arg ≠ "--" := by
        obtain rfl | rfl := harg <;> decide
      have hrest := ih { o with debug := true } nofun
      rw [Options.readArguments, if_neg hne, readArgument_of_debug harg (ho rfl)]
      simpa using hrest
  | hyphens values => simp [Options.readArguments]

/-- Such a command line is read as the values that it gives. -/
theorem Gives.ofArguments {debug : Bool} {args values : List String} (h : Gives debug args values) :
    Options.ofArguments args = .ok ⟨values, debug, false, 0⟩ :=
  h.readArguments Options.none fun _ => rfl

end CommandLine

end RandomAccessMachine
