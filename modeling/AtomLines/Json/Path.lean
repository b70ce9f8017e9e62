import AtomLines.SExpr.Printer
/-!
# Paths

A path leads from a mapping to a leaf. Each step names a key; where sequences lie
directly under the key, the step carries one index for each of them. Wrapping
writes a leaf inside the steps of its path, the first step outermost.
-/

namespace AtomLines.Json

/-- A key alone, or a key with the indices of the sequences under it. -/
inductive Step where
  | key (name : String)
  | indexed (name : String) (indices : List Nat)
deriving DecidableEq, Repr

namespace Step

def name : Step → String
  | key k | indexed k _ => k

def indices : Step → List Nat
  | key _ => []
  | indexed _ is => is

/-- The step of a key: without indices it is the key alone. -/
def of (name : String) (indices : List Nat) : Step :=
  if indices.isEmpty then key name else indexed name indices

def wrap (s : Step) (inner : SExpr) : SExpr :=
  .list (.symbol s.name :: (s.indices.map SExpr.ofIndex ++ [inner]))

/-- The key with its indices in brackets. -/
def text (s : Step) : String :=
  s.indices.foldl (fun t i => t ++ "[" ++ toString i ++ "]") s.name

end Step

abbrev Path := List Step

/-- Sequences nest at most this deep under one key. -/
def maxSequenceDepth : Nat := 4

namespace Path

def wrap (p : Path) (leaf : SExpr) : SExpr :=
  p.foldr Step.wrap leaf

/-- Steps separated by points. -/
def text (p : Path) : String :=
  ".".intercalate (p.map Step.text)

end Path

end AtomLines.Json
