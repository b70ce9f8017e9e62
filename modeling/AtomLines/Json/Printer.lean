import AtomLines.Json.Value
import AtomLines.Text.Hex
/-!
# Writing JSON

Compact text: no white space, keys in insertion order. Strings escape the
quotation mark, the backslash and the characters below the space.
-/

namespace AtomLines.Json

def escapeChar (c : Char) : List Char :=
  if c = '"' then ['\\', '"']
  else if c = '\\' then ['\\', '\\']
  else if c = '\x08' then ['\\', 'b']
  else if c = '\x0c' then ['\\', 'f']
  else if c = '\n' then ['\\', 'n']
  else if c = '\r' then ['\\', 'r']
  else if c = '\t' then ['\\', 't']
  else if c.toNat < 0x20 then '\\' :: 'u' :: Text.hexPadded 4 c.toNat
  else [c]

def stringChars (s : String) : List Char :=
  '"' :: (s.toList.flatMap escapeChar ++ ['"'])

def Scalar.chars : Scalar → List Char
  | string s => stringChars s
  | number n => n.chars
  | boolean true => "true".toList
  | boolean false => "false".toList
  | null => "null".toList

namespace Value

mutual

def chars : Value → List Char
  | scalar s => s.chars
  | sequence items => '[' :: (itemChars items ++ [']'])
  | mapping entries => '\x7b' :: (entryChars entries ++ ['\x7d'])

def itemChars : List Value → List Char
  | [] => []
  | [v] => chars v
  | v :: rest => chars v ++ ',' :: itemChars rest

def entryChars : List (String × Value) → List Char
  | [] => []
  | [(k, v)] => stringChars k ++ ':' :: chars v
  | (k, v) :: rest => stringChars k ++ ':' :: (chars v ++ ',' :: entryChars rest)

end

/-- The compact text of a value. -/
def text (v : Value) : String :=
  String.ofList v.chars

end Value

end AtomLines.Json
