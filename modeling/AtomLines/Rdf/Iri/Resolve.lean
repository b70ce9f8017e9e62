import AtomLines.Rdf.Iri.Basic
/-!
# Resolving references

A reference without scheme is completed from a base. Segments `.` and `..` are
removed while the path of the reference is appended to the directory of the base,
whose own segments stay as they are.
-/

namespace AtomLines.Rdf.Iri

/-! ## Parts of an IRI -/

/-- The scheme with its colon, and the authority with its two slashes. -/
structure Parts where
  scheme : List Char
  authority : List Char
  path : List Char
  query : List Char
  fragment : List Char

/-- Cuts a text before the first character that stops. -/
def cut (stops : Char → Bool) (cs : List Char) : List Char × List Char :=
  (cs.takeWhile (!stops ·), cs.dropWhile (!stops ·))

/-- The parts of a reference that the check accepts. -/
def Parts.of (cs : List Char) : Parts :=
  let rest := (afterScheme? cs).getD cs
  let scheme := cs.take (cs.length - rest.length)
  let (authority, rest) :=
    match rest with
    | '/' :: '/' :: more =>
      let (authority, rest) := cut endsAuthority more
      ('/' :: '/' :: authority, rest)
    | _ => ([], rest)
  let (path, rest) := cut endsPath rest
  let (query, fragment) := cut (· = '#') rest
  ⟨scheme, authority, path, query, fragment⟩

/-! ## Paths -/

/-- A reversed path without its last segment and the slash before it. -/
def popSegment (path : List Char) : List Char :=
  match path.dropWhile (· ≠ '/') with
  | [] => path
  | _ :: rest => rest

/-- A reversed path without a last segment `.` or `..`, and for the latter also
without the segment before; says whether there was one. -/
def popDots (path : List Char) : Bool × List Char :=
  match path with
  | '.' :: '.' :: '/' :: _ => (true, popSegment (popSegment path))
  | '.' :: '/' :: _ => (true, popSegment path)
  | _ => (false, path)

/-- Appends the path of a reference to a reversed path; returns it reversed. -/
def appendPath (path : List Char) : List Char → List Char
  | [] =>
    match popDots path with
    | (true, path) => '/' :: path
    | (false, path) => path
  | c :: rest => if c = '/' then appendPath ('/' :: (popDots path).2) rest else appendPath (c :: path) rest

/-- The directory of the base's path, reversed. -/
def directory (base : Parts) : List Char :=
  match base.path.reverse.dropWhile (· ≠ '/') with
  | [] => if base.authority = [] then [] else ['/']
  | dir => dir

/-! ## References -/

/-- The text of a reference completed from a base, both of them accepted by the
check; nothing where the path would read as an authority. -/
def complete (base reference : List Char) : Option (List Char) :=
  let b := Parts.of base
  let r := Parts.of reference
  let front := b.scheme ++ b.authority
  if r.authority ≠ [] then some (b.scheme ++ reference)
  else
    match r.path with
    | [] =>
      let query := if r.query = [] then b.query else r.query
      some (front ++ b.path ++ query ++ r.fragment)
    | c :: rest =>
      let path := if c = '/' then (appendPath ['/'] rest).reverse else (appendPath (directory b) (c :: rest)).reverse
      if b.authority = [] ∧ ['/', '/'].isPrefixOf path then none
      else some (front ++ path ++ r.query ++ r.fragment)

/-- The IRI that a reference stands for, with a base or without one. -/
def resolve (base : Option (List Char)) (reference : List Char) : Option (List Char) :=
  match base, afterScheme? reference with
  | _, some rest =>
    match checkHierarchy rest with
    | .ok () => some reference
    | .error _ => none
  | none, none => none
  | some base, none =>
    match checkRelative reference with
    | .ok () => complete base reference
    | .error _ => none

end AtomLines.Rdf.Iri
