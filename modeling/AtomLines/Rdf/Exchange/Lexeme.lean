import AtomLines.Rdf.Label
import AtomLines.Rdf.LanguageTag
import AtomLines.Text.Blank
import AtomLines.Text.Hex
/-!
# Lexemes of RDF texts

Each function reads one lexeme at the front of a text and returns it with what
follows, or nothing where the text is wrong.
-/

namespace AtomLines.Rdf.Exchange

/-- A lexeme and the text after it. -/
abbrev Lexed (α : Type) := Option (α × List Char)

/-- Puts characters in front of a lexeme. -/
def Lexed.before (cs : List Char) (l : Lexed (List Char)) : Lexed (List Char) :=
  l.map fun (found, rest) => (cs ++ found, rest)

/-! ## Escapes -/

/-- The character of a single escape letter in a string. -/
def stringEscape? : Char → Option Char
  | 't' => some '\t'
  | 'b' => some '\x08'
  | 'n' => some '\n'
  | 'r' => some '\r'
  | 'f' => some '\x0c'
  | '"' => some '"'
  | '\'' => some '\''
  | '\\' => some '\\'
  | _ => none

/-! ## IRIs and strings -/

/-- The text between angle brackets, the first of them already read. -/
def iriBody : List Char → Lexed (List Char)
  | [] => none
  | '\\' :: 'u' :: a :: b :: c :: d :: rest =>
    (Text.hexChar? [a, b, c, d]).bind fun x => (iriBody rest).before [x]
  | '\\' :: 'U' :: a :: b :: c :: d :: e :: f :: g :: h :: rest =>
    (Text.hexChar? [a, b, c, d, e, f, g, h]).bind fun x => (iriBody rest).before [x]
  | c :: rest =>
    if c = '>' then some ([], rest)
    else if c = '\\' then none
    else (iriBody rest).before [c]

/-- The text of a string after its opening mark. A short string has one mark and
no line end, a long one has three marks. -/
def stringBody (mark : Char) (long : Bool) : List Char → Lexed (List Char)
  | [] => none
  | '\\' :: 'u' :: a :: b :: c :: d :: rest =>
    (Text.hexChar? [a, b, c, d]).bind fun x => (stringBody mark long rest).before [x]
  | '\\' :: 'U' :: a :: b :: c :: d :: e :: f :: g :: h :: rest =>
    (Text.hexChar? [a, b, c, d, e, f, g, h]).bind fun x => (stringBody mark long rest).before [x]
  | '\\' :: e :: rest =>
    (stringEscape? e).bind fun x => (stringBody mark long rest).before [x]
  | c :: rest =>
    if c = '\\' then none
    else if c = mark then
      if !long then some ([], rest)
      else if [mark, mark].isPrefixOf rest then some ([], rest.drop 2)
      else (stringBody mark long rest).before [c]
    else if !long && (c = '\n' || c = '\r') then none
    else (stringBody mark long rest).before [c]

/-- The text of a string of either length after the first character of its mark. -/
def anyString (mark : Char) (cs : List Char) : Lexed (List Char) :=
  if [mark, mark].isPrefixOf cs then stringBody mark true (cs.drop 2) else stringBody mark false cs

/-! ## Names -/

/-- A character inside a name. -/
def isNameChar (c : Char) : Bool :=
  c.isDigit || c = '_' || c = '-' || isNameBase c || isNameMark c

def isAscii (c : Char) : Bool := c.toNat < 128

/-- A point belongs to a name if this follows it. -/
def continuesName : List Char → Bool
  | [] => false
  | c :: _ => isNameChar c || !isAscii c

/-- The rest of a label after its first character. -/
def nameRest : List Char → List Char × List Char
  | [] => ([], [])
  | c :: rest =>
    if isNameChar c || (c = '.' && continuesName rest) then
      let (name, after) := nameRest rest
      (c :: name, after)
    else ([], c :: rest)

/-- A blank node label after its mark `_:`. -/
def blankLabel : List Char → Lexed (List Char)
  | [] => none
  | c :: rest =>
    if c.isDigit || c = '_' || isNameBase c then
      let (name, after) := nameRest rest
      some (c :: name, after)
    else none

/-- A prefix label and its colon. -/
def prefixLabel : List Char → Lexed (List Char)
  | [] => none
  | c :: rest =>
    if c = ':' then some ([], rest)
    else if isNameBase c then
      match nameRest rest with
      | (name, ':' :: after) => some (c :: name, after)
      | _ => none
    else none

/-- The characters that a backslash makes part of a local name. -/
def isLocalEscape (c : Char) : Bool :=
  "_~.-!$&'()*+,;=/?#@%".toList.contains c

/-- Points belong to a local name if this follows all of them. -/
def continuesLocal : List Char → Bool
  | [] => false
  | c :: rest =>
    if c = '.' then continuesLocal rest else isNameChar c || c = ':' || c = '%' || c = '\\'

def localRest : List Char → Lexed (List Char)
  | [] => some ([], [])
  | '%' :: a :: b :: rest =>
    if Text.isHex a && Text.isHex b then (localRest rest).before ['%', a, b] else none
  | '\\' :: c :: rest => if isLocalEscape c then (localRest rest).before [c] else none
  | c :: rest =>
    if c = '%' || c = '\\' then none
    else if isNameChar c || c = ':' || (c = '.' && continuesLocal rest) then (localRest rest).before [c]
    else some ([], c :: rest)

/-- A local name, which may be empty. -/
def localName : List Char → Lexed (List Char)
  | [] => some ([], [])
  | c :: rest =>
    if c.isDigit || c = '_' || c = ':' || c = '%' || c = '\\' || isNameBase c then localRest (c :: rest)
    else some ([], c :: rest)

/-- A language tag after its mark `@`. -/
def languageTag (cs : List Char) : Lexed LanguageTag :=
  let isTagChar (c : Char) : Bool := c.isAlphanum || c = '-'
  match LanguageTag.ofString (String.ofList (cs.takeWhile isTagChar)) with
  | .ok tag => some (tag, cs.dropWhile isTagChar)
  | .error _ => none

/-! ## Numbers -/

inductive NumberKind where
  | integer
  | decimal
  | double
deriving DecidableEq, Repr

def isExponentMark (c : Char) : Bool := c = 'e' || c = 'E'

/-- An exponent after its mark: an optional sign and digits. -/
def exponent (cs : List Char) : Lexed (List Char) :=
  let (sign, rest) := match cs with
    | '+' :: rest => (['+'], rest)
    | '-' :: rest => (['-'], rest)
    | _ => ([], cs)
  match rest.takeWhile Char.isDigit with
  | [] => none
  | ds => some (sign ++ ds, rest.dropWhile Char.isDigit)

/-- A number after its sign. A point that no digit and no exponent mark follows
ends the number before it. -/
def unsignedNumber (cs : List Char) : Lexed (List Char × NumberKind) :=
  let whole := cs.takeWhile Char.isDigit
  let rest := cs.dropWhile Char.isDigit
  let (text, fraction, rest) :=
    match rest with
    | '.' :: d :: more =>
      if d.isDigit || isExponentMark d then
        let ds := (d :: more).takeWhile Char.isDigit
        (whole ++ '.' :: ds, some ds, (d :: more).dropWhile Char.isDigit)
      else (whole, none, rest)
    | _ => (whole, none, rest)
  if whole = [] && fraction.getD [] = [] then none
  else
    match rest with
    | e :: more =>
      if isExponentMark e then
        (exponent more).map fun (digits, after) => ((text ++ e :: digits, .double), after)
      else some ((text, if fraction.isSome then .decimal else .integer), rest)
    | [] => some ((text, if fraction.isSome then .decimal else .integer), rest)

def signedNumber (cs : List Char) : Lexed (List Char × NumberKind) :=
  match cs with
  | c :: rest =>
    if c = '+' || c = '-' then
      (unsignedNumber rest).map fun ((text, kind), after) => ((c :: text, kind), after)
    else unsignedNumber cs
  | [] => none

/-! ## White space -/

/-- Blanks of a line. -/
def skipBlanks (cs : List Char) : List Char :=
  cs.dropWhile fun c => c = ' ' || c = '\t'

mutual

/-- Drops white space and comments; a comment ends at the end of its line. -/
def skipSpace : List Char → List Char
  | [] => []
  | c :: rest =>
    if Text.isGap c then skipSpace rest
    else if c = '#' then skipRemark rest
    else c :: rest

def skipRemark : List Char → List Char
  | [] => []
  | c :: rest => if c = '\n' || c = '\r' then skipSpace rest else skipRemark rest

end

end AtomLines.Rdf.Exchange
