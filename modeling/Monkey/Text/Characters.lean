import Monkey.Text.Alphabetic

/-!
What single characters are to the language, and how they are shown.

The token rules know blanks, letters and digits. A word starts with a letter and goes on with letters
and ASCII digits; the underscore counts as a letter. Digits of other scripts belong to no class here,
unless they are alphabetic.

Quoted text stands between double quotes, with the quote, the backslash and the control characters
below U+0020 escaped. The journal makes control characters of a terminal visible: bell, backspace,
form feed, escape and delete are written as `\x` and two hex digits, the eight-bit controls as `\u`
and their code in braces. Every other character stands for itself in both.
-/

namespace Monkey.Text

/-! ### Classes -/

def isBlank (c : Char) : Bool := c == ' ' || c == '\t' || c == '\r' || c == '\n'

def isLetter (c : Char) : Bool := isAlphabetic c || c == '_'

def isDigit (c : Char) : Bool := '0' ≤ c && c ≤ '9'

def isWordChar (c : Char) : Bool := isLetter c || isDigit c

def digitValue (c : Char) : Nat := c.toNat - '0'.toNat

def decimalValue (digits : List Char) : Nat :=
  digits.foldl (fun n c => 10 * n + digitValue c) 0

/-! ### Quoted text -/

def hexDigit (n : Nat) : Char :=
  if n < 10 then Char.ofNat ('0'.toNat + n) else Char.ofNat ('a'.toNat + (n - 10))

def escapeChar (c : Char) : List Char :=
  if c = '"' then ['\\', '"']
  else if c = '\\' then ['\\', '\\']
  else if c = '\x08' then ['\\', 'b']
  else if c = '\x0c' then ['\\', 'f']
  else if c = '\n' then ['\\', 'n']
  else if c = '\r' then ['\\', 'r']
  else if c = '\t' then ['\\', 't']
  else if c.toNat < 0x20 then
    ['\\', 'u', '0', '0', hexDigit (c.toNat / 16), hexDigit (c.toNat % 16)]
  else [c]

def quoted (s : String) : String :=
  String.ofList ('"' :: s.toList.flatMap escapeChar ++ ['"'])

/-! ### Visible control characters -/

def hexPair (c : Char) : List Char := [hexDigit (c.toNat / 16 % 16), hexDigit (c.toNat % 16)]

def showControl (c : Char) : List Char :=
  if c = '\x07' ∨ c = '\x08' ∨ c = '\x0c' ∨ c = '\x1b' ∨ c = '\x7f' then
    '\\' :: 'x' :: hexPair c
  else if 0x80 ≤ c.toNat ∧ c.toNat ≤ 0x9f then
    '\\' :: 'u' :: '{' :: hexPair c ++ ['}']
  else [c]

def showControls (s : String) : String := String.ofList (s.toList.flatMap showControl)

end Monkey.Text
