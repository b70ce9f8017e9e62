import AtomLines.Text.Hex
import AtomLines.Text.Unprintable
/-!
# Text made visible

Messages show a text between quotation marks, with an escape for every character
that a reader could not see or could mistake for the end of the text.
-/

namespace AtomLines.Text

/-- The escape of one character, or the character itself. -/
def visibleChar (c : Char) : List Char :=
  if c = '\\' then ['\\', '\\']
  else if c = '"' then ['\\', '"']
  else if c = '\n' then ['\\', 'n']
  else if c = '\r' then ['\\', 'r']
  else if c = '\t' then ['\\', 't']
  else if c.toNat = 0 then ['\\', '0']
  else if isUnprintable c then '\\' :: 'u' :: '\x7b' :: (hexDigits c.toNat ++ ['\x7d'])
  else [c]

def visible (s : String) : String :=
  String.ofList ('"' :: (s.toList.flatMap visibleChar ++ ['"']))

end AtomLines.Text
