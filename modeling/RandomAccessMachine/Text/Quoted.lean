import RandomAccessMachine.Text.Blank

/-!
# Quoted texts

A quoted text stands between double quotes and fits on one line: quotes,
backslashes, control characters and blanks other than the space are escaped.
-/

namespace RandomAccessMachine.Quoted

/-- The lower case hexadecimal digits of a code point in braces. -/
def codePoint (c : Char) : List Char :=
  '\\' :: 'u' :: '\x7b' :: (Nat.toDigits 16 c.toNat ++ ['\x7d'])

/-- Whether a character is written by its code point. -/
def isHidden (c : Char) : Bool :=
  c.toNat < 0x20 || (0x7F ≤ c.toNat && c.toNat < 0xA0) || (isBlank c && c != ' ')

/-- A character as it stands inside a quoted text. -/
def escape (c : Char) : List Char :=
  match c with
  | '"' => ['\\', '"']
  | '\\' => ['\\', '\\']
  | '\n' => ['\\', 'n']
  | '\r' => ['\\', 'r']
  | '\t' => ['\\', 't']
  | '\x00' => ['\\', '0']
  | c => if isHidden c then codePoint c else [c]

/-- A text between double quotes. -/
def text (chars : List Char) : String :=
  String.ofList ('"' :: (chars.flatMap escape ++ ['"']))

/-- A quoted text is the quotes around the escaped characters. -/
@[simp] theorem toList_text (chars : List Char) :
    (text chars).toList = '"' :: (chars.flatMap escape ++ ['"']) := by
  simp [text]

end RandomAccessMachine.Quoted
