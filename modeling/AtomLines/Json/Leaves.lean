import AtomLines.Json.Leaf
/-!
# The leaves of a value

A mapping is walked depth first: entries in the order of their keys, items by
ascending index. Each leaf comes with its record and its path. The walk ends at
the first sequence that lies inside `maxSequenceDepth` sequences under one key.
-/

namespace AtomLines.Json

/-- A leaf of a record and where it stands. -/
structure PlacedLeaf where
  record : Nat
  path : Path
  leaf : Value
deriving Repr

/-- The leaf inside its path. -/
def PlacedLeaf.line (l : PlacedLeaf) : SExpr :=
  l.path.wrap l.leaf.toAtom

abbrev Leaves := List (Except RecordError PlacedLeaf)

/-- The list up to its first error, which ends it. -/
def upToError {ε α : Type} : List (Except ε α) → List (Except ε α)
  | [] => []
  | .error e :: _ => [.error e]
  | .ok a :: rest => .ok a :: upToError rest

mutual

/-- The leaves of the value that lies under a key and indices. -/
def leavesAt (record : Nat) (path : Path) (key : String) (indices : List Nat) : Value → Leaves
  | .sequence items =>
    if maxSequenceDepth ≤ indices.length then [.error (.depthExceeded record key (indices.length + 1))]
    else if items.isEmpty then [.ok ⟨record, path ++ [Step.of key indices], .sequence []⟩]
    else itemLeaves record path key indices 0 items
  | .mapping entries =>
    if entries.isEmpty then [.ok ⟨record, path ++ [Step.of key indices], .mapping []⟩]
    else entryLeaves record (path ++ [Step.of key indices]) entries
  | .scalar s => [.ok ⟨record, path ++ [Step.of key indices], .scalar s⟩]

def itemLeaves (record : Nat) (path : Path) (key : String) (indices : List Nat) (next : Nat) :
    List Value → Leaves
  | [] => []
  | v :: rest =>
    leavesAt record path key (indices ++ [next]) v ++ itemLeaves record path key indices (next + 1) rest

def entryLeaves (record : Nat) (path : Path) : List (String × Value) → Leaves
  | [] => []
  | (k, v) :: rest => leavesAt record path k [] v ++ entryLeaves record path rest

end

/-- The leaves of a record that is a mapping, up to the first error. -/
def Value.leaves (record : Nat) : Value → Except RecordError Leaves
  | .mapping entries => .ok (upToError (entryLeaves record [] entries))
  | _ => .error (.notMapping record)

end AtomLines.Json
