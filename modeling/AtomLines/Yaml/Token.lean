/-!
# Tokens

What a text says apart from the places of its characters. The tokens that open
and close blocks stand for indentation, and a key is announced before it comes.
-/

namespace AtomLines.Yaml

/-- How a scalar is written. -/
inductive Style where
  | plain
  | single
  | double
  | literal
  | folded
deriving DecidableEq, Repr

/-- The bytes of a tag or of its beginning. Nearly all stand for characters, but a
tag may spell out any bytes in the form of UTF-8, even such as no text has. -/
abbrev TagBytes := List UInt8

def TagBytes.ofString (s : String) : TagBytes := s.toUTF8.toList

inductive Token where
  /-- The version of the language, announced before a document. -/
  | version (major minor : Nat)
  /-- A handle for tags, announced before a document. -/
  | handle (name : String) (start : TagBytes)
  | documentStart
  | documentEnd
  | openBracket
  | closeBracket
  | openBrace
  | closeBrace
  | comma
  | openSequence
  | openMapping
  | closeBlock
  | dash
  | key
  | value
  | anchor (name : String)
  | reference (name : String)
  /-- A tag with the name of its handle; without one if that is empty. -/
  | tag (handle : String) (suffix : TagBytes)
  | scalar (style : Style) (text : String)
deriving DecidableEq, Repr

end AtomLines.Yaml
