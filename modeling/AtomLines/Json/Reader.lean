import AtomLines.Json.Value
import AtomLines.Text.Blank
import AtomLines.Text.Hex
import AtomLines.Text.Line
/-!
# Reading JSON

Strict JSON text: no comments, no raw control characters in strings, no
unpaired surrogate escapes, containers nested less than 128 deep. A repeated key
keeps its first place and takes its last value.
-/

namespace AtomLines.Json

/-! ## Strings -/

/-- The character of a single escape letter. -/
def plainEscape? : Char → Option Char
  | '"' => some '"'
  | '\\' => some '\\'
  | '/' => some '/'
  | 'b' => some '\x08'
  | 'f' => some '\x0c'
  | 'n' => some '\n'
  | 'r' => some '\r'
  | 't' => some '\t'
  | _ => none

def isLeadingSurrogate (n : Nat) : Bool := 0xD800 ≤ n && n ≤ 0xDBFF

def isTrailingSurrogate (n : Nat) : Bool := 0xDC00 ≤ n && n ≤ 0xDFFF

/-- The character that a pair of surrogates stands for. -/
def surrogatePair (high low : Nat) : Char :=
  Char.ofNat (0x10000 + (high - 0xD800) * 0x400 + (low - 0xDC00))

/-- The rest of a string after its opening quotation mark, and what follows its
closing one. -/
def readString : List Char → Option (List Char × List Char)
  | [] => none
  | '"' :: rest => some ([], rest)
  | '\\' :: 'u' :: a :: b :: c :: d :: rest => do
    let n ← Text.hexRun? [a, b, c, d]
    if isTrailingSurrogate n then none
    else if isLeadingSurrogate n then
      match rest with
      | '\\' :: 'u' :: a' :: b' :: c' :: d' :: rest' =>
        let m ← Text.hexRun? [a', b', c', d']
        if isTrailingSurrogate m then
          (readString rest').map fun (s, after) => (surrogatePair n m :: s, after)
        else none
      | _ => none
    else (readString rest).map fun (s, after) => (Char.ofNat n :: s, after)
  | '\\' :: e :: rest => do
    let c ← plainEscape? e
    (readString rest).map fun (s, after) => (c :: s, after)
  | c :: rest =>
    if c = '\\' ∨ c.toNat < 0x20 then none
    else (readString rest).map fun (s, after) => (c :: s, after)

/-! ## Numbers and words -/

def isNumberChar (c : Char) : Bool :=
  c.isDigit || c = '-' || c = '+' || c = '.' || c = 'e' || c = 'E'

def readNumber (cs : List Char) : Option (Number × List Char) :=
  let run := cs.takeWhile isNumberChar
  if Text.isNumeral run then
    (Number.ofNumeral? run).map fun n => (n, cs.dropWhile isNumberChar)
  else none

def skipSpace (cs : List Char) : List Char :=
  cs.dropWhile Text.isGap

/-! ## Containers -/

/-- Containers nest at most this deep. -/
def maxDepth : Nat := 127

mutual

/-- One value at the front of a text. Each call takes a unit of fuel. -/
def readValue : (fuel depth : Nat) → List Char → Option (Value × List Char)
  | 0, _, _ => none
  | fuel + 1, depth, cs =>
    match skipSpace cs with
    | '"' :: rest => (readString rest).map fun (s, after) => (.scalar (.string (String.ofList s)), after)
    | '[' :: rest =>
      if depth = maxDepth then none
      else
        match skipSpace rest with
        | ']' :: after => some (.sequence [], after)
        | _ => (readItems fuel (depth + 1) rest).map fun (items, after) => (.sequence items, after)
    | '\x7b' :: rest =>
      if depth = maxDepth then none
      else
        match skipSpace rest with
        | '\x7d' :: after => some (.mapping [], after)
        | _ => (readEntries fuel (depth + 1) rest []).map fun (entries, after) => (.mapping entries, after)
    | 't' :: 'r' :: 'u' :: 'e' :: after => some (.scalar (.boolean true), after)
    | 'f' :: 'a' :: 'l' :: 's' :: 'e' :: after => some (.scalar (.boolean false), after)
    | 'n' :: 'u' :: 'l' :: 'l' :: after => some (.scalar .null, after)
    | rest => (readNumber rest).map fun (n, after) => (.scalar (.number n), after)

def readItems : (fuel depth : Nat) → List Char → Option (List Value × List Char)
  | 0, _, _ => none
  | fuel + 1, depth, cs => do
    let (v, after) ← readValue fuel depth cs
    match skipSpace after with
    | ',' :: rest => (readItems fuel depth rest).map fun (vs, after) => (v :: vs, after)
    | ']' :: rest => some ([v], rest)
    | _ => none

def readEntries : (fuel depth : Nat) → List Char → List (String × Value) →
    Option (List (String × Value) × List Char)
  | 0, _, _, _ => none
  | fuel + 1, depth, cs, entries =>
    match skipSpace cs with
    | '"' :: rest => do
      let (key, after) ← readString rest
      match skipSpace after with
      | ':' :: rest =>
        let (v, after) ← readValue fuel depth rest
        let entries := Keyed.put (String.ofList key) v entries
        match skipSpace after with
        | ',' :: rest => readEntries fuel depth rest entries
        | '\x7d' :: rest => some (entries, rest)
        | _ => none
      | _ => none
    | _ => none

end

/-- The value of a text that holds one value and white space. -/
def readChars? (cs : List Char) : Option Value := do
  let (v, rest) ← readValue (2 * cs.length + 2) 0 cs
  if skipSpace rest = [] then some v else none

namespace Value

def read? (text : String) : Option Value :=
  readChars? text.toList

/-- One value per line that is not blank. -/
def readLines? (text : String) : Option (List Value) :=
  ((Text.lines text.toList).filter (!Text.isBlankText ·)).mapM readChars?

end Value

end AtomLines.Json
