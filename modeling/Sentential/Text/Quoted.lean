import Sentential.Text.Combining
import Sentential.Text.Unprintable

/-!
# Quoted names

How a name or a character from the input appears in a message: between double quotes, with every
character that would not stand for itself on the page written by an escape.
-/

namespace Sentential.Text

/-- The number of `c` in lower-case hexadecimal digits: `\u{301}`. -/
def codePointEscape (c : Char) : List Char :=
  ['\\', 'u', '\x7b'] ++ Nat.toDigits 16 c.toNat ++ ['\x7d']

/-- How one character appears inside quotation marks. The quotation mark and the backslash get a
backslash, four controls have a letter, and what has no shape of its own gets its number. -/
def escaped (c : Char) : List Char :=
  if c = '"' ∨ c = '\\' then ['\\', c]
  else if c = '\n' then ['\\', 'n']
  else if c = '\r' then ['\\', 'r']
  else if c = '\t' then ['\\', 't']
  else if c = '\x00' then ['\\', '0']
  else if isCombining c || isUnprintable c then codePointEscape c
  else [c]

/-- `text` between double quotes, each character as `escaped` shows it. -/
def quoted (text : String) : String :=
  String.ofList ('"' :: text.toList.flatMap escaped ++ ['"'])

end Sentential.Text
