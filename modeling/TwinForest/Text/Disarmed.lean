import TwinForest.Text.Quoted

/-!
# Text for a terminal

Log lines may hold text from outside. Characters that a terminal could take for the start of a command
are written as escapes, so that the text cannot do more than be read.
-/

namespace TwinForest.Text

/-- The character, or an escape for it if a terminal might obey it: the bell, the backspace, the form
feed, the escape character, the delete character, and the controls above it. -/
def disarmChar (c : Char) : List Char :=
  if c = '\x07' then ['\\', 'x', '0', '7']
  else if c = '\x08' then ['\\', 'x', '0', '8']
  else if c = '\x0c' then ['\\', 'x', '0', 'c']
  else if c = '\x1b' then ['\\', 'x', '1', 'b']
  else if c = '\x7f' then ['\\', 'x', '7', 'f']
  else if 0x80 ≤ c.toNat ∧ c.toNat ≤ 0x9f then codePointEscape c
  else [c]

def disarm (s : String) : String :=
  String.ofList (s.toList.flatMap disarmChar)

end TwinForest.Text
