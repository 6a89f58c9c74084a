/-
Quoted text for messages.

Quotes and backslashes are escaped, the usual control characters have their short escapes, and the
other characters that do not show on their own are written as a code point in braces. All other text
stays as it is.
-/
import SexpEdit.Text.Printable

namespace SexpEdit.Text

/-- The code point of a character in lower-case hexadecimal, in braces after the escape letter. -/
def codeEscape (c : Char) : List Char :=
  ['\\', 'u', '\x7b'] ++ Nat.toDigits 16 c.toNat ++ ['\x7d']

/-- A character as it stands in a quoted text, see `quote`. -/
def quoteChar (c : Char) : List Char :=
  if c == '"' then ['\\', '"']
  else if c == '\\' then ['\\', '\\']
  else if c == '\n' then ['\\', 'n']
  else if c == '\t' then ['\\', 't']
  else if c == '\r' then ['\\', 'r']
  else if c == '\x00' then ['\\', '0']
  else if isPrintable c then [c]
  else codeEscape c

/-- The text `cs` in double quotes, with what cannot be printed written as an escape. -/
def quote (cs : List Char) : List Char :=
  '"' :: (cs.flatMap quoteChar ++ ['"'])

end SexpEdit.Text
