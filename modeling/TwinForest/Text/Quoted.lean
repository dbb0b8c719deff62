import TwinForest.Text.GraphemeExtend
import TwinForest.Text.Printable

/-!
# Quoted text

Text between double quotes on one line, so that every character can be told from every other. Quotes
and backslashes are escaped, some controls have a letter of their own, and whatever cannot be shown
as it stands is written by its code point in hexadecimal.
-/

namespace TwinForest.Text

/-- The character as its code point, `\u{1f}` for instance. -/
def codePointEscape (c : Char) : List Char :=
  ['\\', 'u', '\x7b'] ++ Nat.toDigits 16 c.toNat ++ ['\x7d']

def escape (c : Char) : List Char :=
  if c = '"' then ['\\', '"']
  else if c = '\\' then ['\\', '\\']
  else if c = '\n' then ['\\', 'n']
  else if c = '\r' then ['\\', 'r']
  else if c = '\t' then ['\\', 't']
  else if c = '\x00' then ['\\', '0']
  else if joinsPrevious c || !isPrintable c then codePointEscape c
  else [c]

def quoteChars (cs : List Char) : List Char :=
  '"' :: cs.flatMap escape ++ ['"']

def quote (s : String) : String :=
  String.ofList (quoteChars s.toList)

end TwinForest.Text
