import RandomAccessMachine.Assembly.Token
import RandomAccessMachine.Text.Blank

/-!
# The lexemes of a line

A lexeme is what the first characters of a line stand for: a token, or a
fault if they cannot be one. Numbers and names reach as far as they can, and
the character after them decides whether they are well formed.

## Implementation notes

`first` gives the lexeme together with the characters left for the next one.
A fault consumes the character that caused it, so reading can go on after it.
Past the last character of a line a line feed is taken. A number or a name that
takes it puts it back, so a line without a line feed can get one. `extent`
counts it from the beginning, and every lexeme lowers it. A line that is read
from a source ends with a line feed, and its lexemes leave ends of it.
-/

namespace RandomAccessMachine

/-- What can keep characters from being a token, or a line from being read. -/
inductive LexicalFault
  /-- No token starts with this character. -/
  | invalidSymbol (symbol : Char)
  /-- A number is followed by a character that cannot end it. -/
  | invalidNumber (digits : List Char) (symbol : Char)
  /-- A number is greater than every word. -/
  | numberOutOfRange (digits : List Char)
  /-- There is no such mnemonic. -/
  | unknownName (letters : List Char)
  /-- A name is followed by a character that cannot end it. -/
  | invalidName (letters : List Char) (symbol : Char)
  /-- The line could not be read. -/
  | unreadable (reason : String)
  deriving DecidableEq

namespace LexicalFault

def describe : LexicalFault → String
  | .invalidSymbol _ => "invalid symbol"
  | .invalidNumber _ _ => "not a valid number"
  | .numberOutOfRange _ => "number out of range"
  | .unknownName _ => "unknown instruction"
  | .invalidName _ _ => "not a valid instruction"
  | .unreadable _ => "unreadable input"

/-- The part of the program text that the fault lies in, or the reason of a failed read. -/
def context : LexicalFault → String
  | .invalidSymbol symbol => String.singleton symbol
  | .invalidNumber digits symbol => String.ofList (digits ++ [symbol])
  | .numberOutOfRange digits => String.ofList digits
  | .unknownName letters => String.ofList letters
  | .invalidName letters symbol => String.ofList (letters ++ [symbol])
  | .unreadable reason => reason

end LexicalFault

/-- A token, or the fault found in its place. -/
inductive Lexeme
  | token (token : Token)
  | fault (fault : LexicalFault)
  deriving DecidableEq

/-- The token that a single character stands for. -/
def Token.ofSymbol? : Char → Option Token
  | '\n' => some .newline
  | '(' => some .leftParen
  | ')' => some .rightParen
  | '=' => some .equals
  | _ => none

namespace Lexeme

/-- The number that a run of digits stands for. -/
def ofDigits (digits : List Char) : Lexeme :=
  match Word.ofNat? (Decimal.value digits) with
  | some value => .token (.number value)
  | none => .fault (.numberOutOfRange digits)

/-- The mnemonic that a run of letters stands for. -/
def ofLetters (letters : List Char) : Lexeme :=
  match Mnemonic.ofName? (String.ofList letters) with
  | some mnemonic => .token (.keyword mnemonic)
  | none => .fault (.unknownName letters)

/-- The lexeme of a run of digits before the rest of its line. A line feed or a closing
parenthesis is left for the next lexeme, also a line feed that the line lacks. -/
def number (digits : List Char) : List Char → Lexeme × List Char
  | [] => (ofDigits digits, ['\n'])
  | c :: rest =>
      if c = '\n' ∨ c = ')' then (ofDigits digits, c :: rest)
      else if isBlank c then (ofDigits digits, rest)
      else (.fault (.invalidNumber digits c), rest)

/-- The lexeme of a run of letters before the rest of its line. A line feed is left for the
next lexeme, also one that the line lacks. -/
def name (letters : List Char) : List Char → Lexeme × List Char
  | [] => (ofLetters letters, ['\n'])
  | c :: rest =>
      if c = '\n' then (ofLetters letters, c :: rest)
      else if isBlank c then (ofLetters letters, rest)
      else (.fault (.invalidName letters c), rest)

/-- The first lexeme of a line and the characters after it. -/
def first : List Char → Lexeme × List Char
  | [] => (.token .newline, [])
  | c :: rest =>
      match Token.ofSymbol? c with
      | some t => (.token t, rest)
      | none =>
          -- a comment reaches to the end of its line and takes the line feed along
          if c = '#' then (.token .newline, [])
          else if isBlank c then first rest
          else if c.isDigit then
            number (c :: rest.takeWhile Char.isDigit) (rest.dropWhile Char.isDigit)
          else if c.isAlpha then
            name (c :: rest.takeWhile Char.isAlpha) (rest.dropWhile Char.isAlpha)
          else (.fault (.invalidSymbol c), rest)

/-- The number of characters of a line, with a line feed at its end even if it lacks one. -/
def extent : List Char → Nat
  | [] => 0
  | [c] => if c = '\n' then 1 else 2
  | _ :: c :: rest => extent (c :: rest) + 1

@[simp] theorem extent_nil : extent [] = 0 := rfl

/-- A line that ends with a line feed has no more characters than it holds. -/
theorem extent_terminated (body : List Char) : extent (body ++ ['\n']) = body.length + 1 := by
  induction body with
  | nil => rfl
  | cons c body ih =>
      cases body with
      | nil => rfl
      | cons d body => exact congrArg (· + 1) ih

theorem extent_lt_cons (c : Char) (rest : List Char) : extent rest < extent (c :: rest) := by
  cases rest with
  | nil =>
      rw [extent_nil, extent]
      split <;> decide
  | cons d rest => exact Nat.lt_succ_self _

theorem one_lt_extent {c : Char} (h : c ≠ '\n') (rest : List Char) : 1 < extent (c :: rest) := by
  cases rest with
  | nil =>
      rw [extent, if_neg h]
      decide
  | cons d rest => exact Nat.succ_lt_succ (Nat.zero_lt_of_lt (extent_lt_cons d rest))

/-- A line has at least the extent of each of its ends. -/
theorem extent_le_of_suffix {left line : List Char} (h : left <:+ line) :
    extent left ≤ extent line := by
  obtain ⟨front, rfl⟩ := h
  induction front with
  | nil => exact Nat.le_refl _
  | cons c front ih => exact Nat.le_trans ih (Nat.le_of_lt (extent_lt_cons c (front ++ left)))

/-- A number leaves an end of what is behind its digits, or a line feed if that is nothing. -/
theorem number_leaves (digits rest : List Char) :
    (number digits rest).2 <:+ rest ∨ (rest = [] ∧ (number digits rest).2 = ['\n']) := by
  cases rest with
  | nil => exact .inr ⟨rfl, rfl⟩
  | cons c rest =>
      left
      rw [number]
      split
      · exact List.suffix_refl _
      · split
        · exact List.suffix_cons c rest
        · exact List.suffix_cons c rest

/-- A name leaves an end of what is behind its letters, or a line feed if that is nothing. -/
theorem name_leaves (letters rest : List Char) :
    (name letters rest).2 <:+ rest ∨ (rest = [] ∧ (name letters rest).2 = ['\n']) := by
  cases rest with
  | nil => exact .inr ⟨rfl, rfl⟩
  | cons c rest =>
      left
      rw [name]
      split
      · exact List.suffix_refl _
      · split
        · exact List.suffix_cons c rest
        · exact List.suffix_cons c rest

/-- What is left behind a run is an end of the line that the run begins, or a line feed if the run
reaches to the end of a line that lacks it. -/
theorem run_leaves {p : Char → Bool} {rest left : List Char} (hp : p '\n' = false)
    (h : left <:+ rest.dropWhile p ∨ (rest.dropWhile p = [] ∧ left = ['\n'])) :
    left <:+ rest ∨ ('\n' ∉ rest ∧ left = ['\n']) := by
  obtain hsuffix | ⟨hnil, hleft⟩ := h
  · exact .inl (hsuffix.trans (List.dropWhile_suffix p))
  · refine .inr ⟨fun hmem => ?_, hleft⟩
    have hrun := List.takeWhile_append_dropWhile (p := p) (l := rest)
    rw [hnil, List.append_nil] at hrun
    have hall := List.all_takeWhile (p := p) (l := rest)
    rw [hrun, List.all_eq_true] at hall
    exact Bool.false_ne_true (hp.symm.trans (hall _ hmem))

/-- A lexeme takes the first character of a line. What it leaves is an end of the others, or the
line feed that the line lacks. -/
theorem first_cons_leaves (c : Char) (rest : List Char) :
    (first (c :: rest)).2 <:+ rest ∨ ('\n' ∉ c :: rest ∧ (first (c :: rest)).2 = ['\n']) := by
  rw [first]
  split
  · exact .inl (List.suffix_refl rest)
  · rename_i hsymbol
    -- from here on the first character is not a line feed, so only the others can hold one
    have hbehind {left : List Char} (h : left <:+ rest ∨ ('\n' ∉ rest ∧ left = ['\n'])) :
        left <:+ rest ∨ ('\n' ∉ c :: rest ∧ left = ['\n']) := by
      refine h.imp_right fun ⟨hnone, hleft⟩ => ⟨List.not_mem_cons_of_ne_of_not_mem ?_ hnone, hleft⟩
      rintro rfl
      cases hsymbol
    split
    · exact .inl List.nil_suffix
    · split
      · apply hbehind
        match rest with
        | [] => exact .inl (List.suffix_refl [])
        | d :: rest =>
            exact (first_cons_leaves d rest).imp_left fun h => h.trans (List.suffix_cons d rest)
      · split
        · exact hbehind (run_leaves (by decide) (number_leaves _ _))
        · split
          · exact hbehind (run_leaves (by decide) (name_leaves _ _))
          · exact .inl (List.suffix_refl rest)

/-- Behind a number, a line without a line feed is left with one. -/
example : first ['4', '2'] = (.token (.number 42), ['\n']) := by decide

/-- Every lexeme takes something off a line. -/
theorem first_extent_lt {line : List Char} (h : line ≠ []) :
    extent (first line).2 < extent line := by
  cases line with
  | nil => exact absurd rfl h
  | cons c rest =>
      obtain hsuffix | ⟨hnone, hleft⟩ := first_cons_leaves c rest
      · exact Nat.lt_of_le_of_lt (extent_le_of_suffix hsuffix) (extent_lt_cons c rest)
      · rw [hleft]
        exact one_lt_extent (List.ne_of_not_mem_cons hnone).symm rest

end Lexeme

end RandomAccessMachine
