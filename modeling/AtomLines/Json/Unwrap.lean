import AtomLines.Json.Error
/-!
# Paths from expressions

Reads back what `Path.wrap` writes. A list starts with a key and ends with what
the key holds; the atoms between them are indices. Keys may be spelled as any
atom.
-/

namespace AtomLines.Json.Path

/-- The indices under a key, at most `maxSequenceDepth` of them. -/
def readIndices (key : String) (atoms : List SExpr) : Except Malformation (List Nat) :=
  if maxSequenceDepth < atoms.length then .error (.manyIndices key atoms.length)
  else atoms.mapM fun a =>
    match a.index? with
    | some i => .ok i
    | none => .error (.notIndex key a)

mutual

/-- The steps around the innermost expression that is not a list. -/
def peel : SExpr → Except Malformation (Path × SExpr)
  | .list [] => .error .missingKey
  | .list (head :: rest) =>
    match head.name? with
    | none => .error (.notKey head)
    | some key => peelHeld key [] rest
  | leaf => .ok ([], leaf)

/-- The rest of a list after its key and after the atoms `seen`. -/
def peelHeld (key : String) (seen : List SExpr) : List SExpr → Except Malformation (Path × SExpr)
  | [] => .error (.missingValue key)
  | [inner] => do
    let indices ← readIndices key seen
    let (steps, leaf) ← peel inner
    return (Step.of key indices :: steps, leaf)
  | atom :: rest => peelHeld key (seen ++ [atom]) rest

end

/-- The path and the leaf of a wrapped leaf; the path has a step. -/
def unwrap (e : SExpr) : Except Malformation (Path × SExpr) := do
  match ← peel e with
  | ([], leaf) => .error (.leafWithoutKey leaf)
  | found => return found

end AtomLines.Json.Path
