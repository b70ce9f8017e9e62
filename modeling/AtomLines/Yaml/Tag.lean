import AtomLines.Text.Hex
import AtomLines.Text.Numeral
import AtomLines.Yaml.Source
import AtomLines.Yaml.Token
/-!
# Names, tags and directives

Anchors and aliases have names of letters and digits. A tag is written in full,
or with a handle that stands for its beginning. Directives before a document give
the version of the language and declare handles.
-/

namespace AtomLines.Yaml

/-- A run of word characters, which may be empty. -/
def word (src : Source) : List Char × Source :=
  span (fun s => !isWordChar s.char) src

/-- The name of an anchor or an alias after its mark. -/
def readName (src : Source) : Option (String × Source) :=
  let (name, rest) := word src
  let ends := startsBlank rest || rest.head?.any fun s => "?:,]\x7d%@`".toList.contains s.char
  if name ≠ [] && ends then some (String.ofList name, rest) else none

/-! ## Encoded bytes -/

/-- A byte as a percent sign and two hexadecimal digits. -/
def percentByte? : Source → Option (UInt8 × Source)
  | ⟨'%', _, _, _⟩ :: a :: b :: rest => (Text.hexRun? [a.char, b.char]).map fun n => (.ofNat n, rest)
  | _ => none

/-- How many continuation bytes follow the first byte of a character. -/
def continuations? (first : UInt8) : Option Nat :=
  if first < 0x80 then some 0
  else if first / 0x20 = 6 then some 1
  else if first / 0x10 = 14 then some 2
  else if first / 0x08 = 30 then some 3
  else none

def continuationBytes? : (count : Nat) → Source → Option (TagBytes × Source)
  | 0, src => some ([], src)
  | count + 1, src => do
    let (b, rest) ← percentByte? src
    if b / 0x40 = 2 then
      (continuationBytes? count rest).map fun (bs, rest) => (b :: bs, rest)
    else none

/-- The bytes of a character. Only their form is looked at. -/
def percentBytes? (src : Source) : Option (TagBytes × Source) := do
  let (first, rest) ← percentByte? src
  let (bs, rest) ← continuationBytes? (← continuations? first) rest
  return (first :: bs, rest)

/-! ## Tags -/

/-- The characters of a tag; some only stand in one that is written in full. -/
def isTagChar (full : Bool) (c : Char) : Bool :=
  isWordChar c || ";/?:@&=+$.%!~*'()".toList.contains c || (full && (c = ',' || c = '[' || c = ']'))

/-- The bytes of a tag; each character takes a unit of fuel. -/
def tagRest (full : Bool) : (fuel : Nat) → Source → Option (TagBytes × Source)
  | 0, src => some ([], src)
  | fuel + 1, src =>
    match src with
    | [] => some ([], [])
    | s :: rest =>
      if s.char = '%' then do
        let (bs, rest) ← percentBytes? src
        let (more, rest) ← tagRest full fuel rest
        return (bs ++ more, rest)
      else if isTagChar full s.char then
        (tagRest full fuel rest).map fun (bs, rest) => (.ofNat s.char.toNat :: bs, rest)
      else some ([], src)

/-- A tag ends before a zero byte, whatever is spelled after it. -/
def beforeZero (bs : TagBytes) : TagBytes := bs.takeWhile (· ≠ 0)

def tagText (full : Bool) (src : Source) : Option (TagBytes × Source) :=
  (tagRest full src.length src).map fun (bs, rest) => (beforeZero bs, rest)

/-- A text that takes one character or more. -/
def someTagText (full : Bool) (src : Source) : Option (TagBytes × Source) :=
  if src.head?.any fun s => isTagChar full s.char then tagText full src else none

/-- A mark, a word, and maybe another mark. -/
def tagHandle : Source → Option (List Char × Source)
  | ⟨'!', _, _, _⟩ :: rest =>
    match word rest with
    | (name, ⟨'!', _, _, _⟩ :: rest) => some ('!' :: (name ++ ['!']), rest)
    | (name, rest) => some ('!' :: name, rest)
  | _ => none

/-- The tag whose first mark comes next. -/
def readTag (inBrackets : Bool) (src : Source) : Option (Token × Source) := do
  let (tag, rest) ← match src with
    | _ :: ⟨'<', _, _, _⟩ :: rest =>
      match ← someTagText true rest with
      | (bs, ⟨'>', _, _, _⟩ :: rest) => some (Token.tag "" bs, rest)
      | _ => none
    | _ =>
      let (handle, rest) ← tagHandle src
      if 1 < handle.length && handle.getLast? = some '!' then
        (someTagText false rest).map fun (bs, rest) => (Token.tag (String.ofList handle) bs, rest)
      else do
        let (bs, rest) ← tagText false rest
        match TagBytes.ofString (String.ofList (handle.drop 1)) ++ bs with
        | [] => some (Token.tag "" (.ofString "!"), rest)
        | suffix => some (Token.tag "!" suffix, rest)
  if startsBlank rest || (inBrackets && startsWith ',' rest) then some (tag, rest) else none

/-! ## Directives -/

/-- A decimal number of at most nine digits. -/
def versionNumber (src : Source) : Option (Nat × Source) :=
  let (ds, rest) := span (fun s => !s.char.isDigit) src
  if ds = [] || 9 < ds.length then none else some (Text.naturalValue ds, rest)

def readVersion (src : Source) : Option (Token × Source) := do
  let (major, rest) ← versionNumber (skipBlanks src)
  match rest with
  | ⟨'.', _, _, _⟩ :: rest =>
    let (minor, rest) ← versionNumber rest
    return (.version major minor, rest)
  | _ => none

def readHandle (src : Source) : Option (Token × Source) := do
  let (handle, rest) ← tagHandle (skipBlanks src)
  if handle ≠ ['!'] && handle.getLast? ≠ some '!' then none
  else if !rest.head?.any Spot.isBlank then none
  else
    let (start, rest) ← someTagText true (skipBlanks rest)
    if startsBlank rest then some (.handle (String.ofList handle) start, rest) else none

/-- A directive after its mark, to the end of its line. -/
def readDirective (src : Source) : Option (Token × Source) := do
  let (name, rest) := word src
  let (token, rest) ←
    if !startsBlank rest then none
    else if name = "YAML".toList then readVersion rest
    else if name = "TAG".toList then readHandle rest
    else none
  return (token, ← afterLine? rest)

end AtomLines.Yaml
