import AtomLines.Rdf.Iri.Address
/-!
# IRIs

An IRI is checked as it is written, from left to right, and the first problem is
reported. Nothing is normalized, so an IRI is its text together with the fact
that the check finds no problem in it.
-/

namespace AtomLines.Rdf

inductive IriProblem where
  | noScheme
  | hostChar (c : Char)
  | hostAddress
  | portChar (c : Char)
  | codePoint (c : Char)
  /-- A percent sign with the next two characters, or with fewer at the end. -/
  | percent (found : List Char)
  | doubleSlash
deriving DecidableEq, Repr

def IriProblem.message : IriProblem → String
  | noScheme => "No scheme found in an absolute IRI"
  | hostChar c => "Invalid character '" ++ String.singleton c ++ "' in host"
  | hostAddress => "Invalid host IP (invalid IPv6 address syntax)"
  | portChar c => "Invalid character '" ++ String.singleton c ++ "'"
  | codePoint c => "Invalid IRI code point '" ++ String.singleton c ++ "'"
  | percent found => "Invalid IRI percent encoding '" ++ String.ofList found ++ "'"
  | doubleSlash => "An IRI path is not allowed to start with //"

/-! ## Characters -/

/-- Unreserved characters, of ASCII and beyond. -/
def isIUnreserved (c : Char) : Bool :=
  let n := c.toNat
  isUnreserved c ||
    (0xA0 ≤ n && n ≤ 0xD7FF) || (0xF900 ≤ n && n ≤ 0xFDCF) || (0xFDF0 ≤ n && n ≤ 0xFFEF) ||
    (0x10000 ≤ n && n ≤ 0xDFFFD && n % 0x10000 ≤ 0xFFFD) || (0xE1000 ≤ n && n ≤ 0xEFFFD)

def isPrivateUse (c : Char) : Bool :=
  let n := c.toNat
  (0xE000 ≤ n && n ≤ 0xF8FF) || (0xF0000 ≤ n && n ≤ 0xFFFFD) || (0x100000 ≤ n && n ≤ 0x10FFFD)

def isHostChar (c : Char) : Bool := isIUnreserved c || isSubDelimiter c

def isSegmentChar (c : Char) : Bool := isHostChar c || c = ':' || c = '@'

def isPathChar (c : Char) : Bool := isSegmentChar c || c = '/'

def isFragmentChar (c : Char) : Bool := isPathChar c || c = '?'

def isQueryChar (c : Char) : Bool := isFragmentChar c || isPrivateUse c

def isSchemeChar (c : Char) : Bool :=
  c.isAlphanum || c = '+' || c = '-' || c = '.'

/-! ## The check -/

/-- Skips allowed characters and percent encodings up to a character that stops
the scan; returns the text that starts there. -/
def scan (allowed stops : Char → Bool) : List Char → Except IriProblem (List Char)
  | [] => .ok []
  | '%' :: a :: b :: rest =>
    if Text.isHex a && Text.isHex b then scan allowed stops rest else .error (.percent ['%', a, b])
  | c :: rest =>
    if stops c then .ok (c :: rest)
    else if c = '%' then .error (.percent (c :: rest))
    else if allowed c then scan allowed stops rest
    else .error (.codePoint c)

def checkFragment (cs : List Char) : Except IriProblem Unit :=
  (scan isFragmentChar (fun _ => false) cs).map fun _ => ()

/-- What follows a path: a query, a fragment or nothing. -/
def checkTail : List Char → Except IriProblem Unit
  | '?' :: rest => do
    match ← scan isQueryChar (· = '#') rest with
    | [] => return
    | _ :: rest => checkFragment rest
  | '#' :: rest => checkFragment rest
  | _ => return

def endsPath (c : Char) : Bool := c = '?' || c = '#'

def checkPath (cs : List Char) : Except IriProblem Unit := do
  checkTail (← scan isPathChar endsPath cs)

/-- A path whose first segment holds no colon. -/
def checkRelativePath (cs : List Char) : Except IriProblem Unit := do
  checkPath (← scan (fun c => isSegmentChar c && c ≠ ':') (fun c => endsPath c || c = '/') cs)

def endsAuthority (c : Char) : Bool := endsPath c || c = '/'

def checkPort (cs : List Char) : Except IriProblem Unit :=
  match cs.dropWhile Char.isDigit with
  | [] => .ok ()
  | c :: rest => if endsAuthority c then checkPath (c :: rest) else .error (.portChar c)

def checkHost : List Char → Except IriProblem Unit
  | '[' :: rest =>
    match rest.dropWhile (· ≠ ']') with
    | [] => .error (.hostChar '[')
    | _ :: after =>
      let address := rest.takeWhile (· ≠ ']')
      let problem? : Option IriProblem :=
        match address with
        | v :: future =>
          if v = 'v' ∨ v = 'V' then (Address.futureProblem? future).map .hostChar
          else if Address.isVersion6 address then none else some .hostAddress
        | [] => some .hostAddress
      match problem?, after with
      | some p, _ => .error p
      | none, [] => .ok ()
      | none, ':' :: rest => checkPort rest
      | none, c :: rest => if endsAuthority c then checkPath (c :: rest) else .error (.hostChar c)
  | cs => do
    match ← scan isHostChar (fun c => endsAuthority c || c = ':') cs with
    | ':' :: rest => checkPort rest
    | rest => checkPath rest

/-- The host starts after the first `@` of the authority. -/
def checkAuthority (cs : List Char) : Except IriProblem Unit := do
  match ← scan (fun c => isHostChar c || c = ':') (fun c => endsAuthority c || c = '@' || c = '[') cs with
  | '@' :: rest => checkHost rest
  | _ => checkHost cs

/-- What follows a scheme, or the whole of a reference that starts with a slash. -/
def checkHierarchy : List Char → Except IriProblem Unit
  | '/' :: '/' :: rest => checkAuthority rest
  | cs => checkPath cs

/-- The text after a scheme and its colon. -/
def afterScheme? : List Char → Option (List Char)
  | [] => none
  | c :: rest =>
    match c.isAlpha, rest.dropWhile isSchemeChar with
    | true, ':' :: rest => some rest
    | _, _ => none

/-- A reference without scheme. -/
def checkRelative : List Char → Except IriProblem Unit
  | ':' :: _ => .error .noScheme
  | '/' :: rest => checkHierarchy ('/' :: rest)
  | cs => checkRelativePath cs

def checkAbsolute (cs : List Char) : Except IriProblem Unit :=
  match afterScheme? cs with
  | some rest => checkHierarchy rest
  | none => do
    checkRelative cs
    .error .noScheme

/-- The first problem of a text as an absolute IRI. -/
def iriProblem? (cs : List Char) : Option IriProblem :=
  match checkAbsolute cs with
  | .ok () => none
  | .error p => some p

/-! ## IRIs as values -/

structure Iri where
  text : String
  valid : iriProblem? text.toList = none
deriving DecidableEq

namespace Iri

def ofString (s : String) : Except IriProblem Iri :=
  match h : iriProblem? s.toList with
  | none => .ok ⟨s, h⟩
  | some p => .error p

theorem ofString_text (i : Iri) : ofString i.text = .ok i := by
  unfold ofString
  split
  · rfl
  · rename_i h
    rw [i.valid] at h
    cases h

theorem text_of_ofString {s : String} {i : Iri} (h : ofString s = .ok i) : i.text = s := by
  unfold ofString at h
  split at h
  · cases h
    rfl
  · cases h

/-! ## Names of the data model -/

def xsdString : Iri := ⟨"http://www.w3.org/2001/XMLSchema#string", by decide +kernel⟩

def xsdBoolean : Iri := ⟨"http://www.w3.org/2001/XMLSchema#boolean", by decide +kernel⟩

def xsdInteger : Iri := ⟨"http://www.w3.org/2001/XMLSchema#integer", by decide +kernel⟩

def xsdDecimal : Iri := ⟨"http://www.w3.org/2001/XMLSchema#decimal", by decide +kernel⟩

def xsdDouble : Iri := ⟨"http://www.w3.org/2001/XMLSchema#double", by decide +kernel⟩

def rdfLangString : Iri := ⟨"http://www.w3.org/1999/02/22-rdf-syntax-ns#langString", by decide +kernel⟩

def rdfType : Iri := ⟨"http://www.w3.org/1999/02/22-rdf-syntax-ns#type", by decide +kernel⟩

def rdfFirst : Iri := ⟨"http://www.w3.org/1999/02/22-rdf-syntax-ns#first", by decide +kernel⟩

def rdfRest : Iri := ⟨"http://www.w3.org/1999/02/22-rdf-syntax-ns#rest", by decide +kernel⟩

def rdfNil : Iri := ⟨"http://www.w3.org/1999/02/22-rdf-syntax-ns#nil", by decide +kernel⟩

end Iri

end AtomLines.Rdf
