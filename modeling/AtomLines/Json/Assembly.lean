import AtomLines.Json.Leaf
import AtomLines.Json.Unwrap
/-!
# Values from leaves

Leaves are put into a tree of slots one by one, in any order. A slot becomes a
mapping, a sequence or a leaf when it is first used and stays that; no leaf
replaces another. A finished tree is a value if no sequence has a gap.
-/

namespace AtomLines.Json

inductive Slot where
  | vacant
  | leaf (value : Value)
  | mapping (entries : List (String × Slot))
  /-- Items by ascending index. -/
  | sequence (items : List (Nat × Slot))
deriving Inhabited

/-- One move into a tree: to the entry of a key or to the item of an index. -/
inductive Access where
  | key (name : String)
  | index (i : Nat)
deriving DecidableEq, Repr

def Step.accesses (s : Step) : List Access :=
  .key s.name :: s.indices.map .index

def Path.accesses (p : Path) : List Access :=
  p.flatMap Step.accesses

/-- Why a leaf has no place in a tree. -/
inductive Clash where
  | mappingNeeded
  | sequenceNeeded
  | assignedAgain
deriving DecidableEq, Repr

def Clash.at (path : Path) : Clash → Malformation
  | mappingNeeded => .mappingNeeded path.text
  | sequenceNeeded => .sequenceNeeded path.text
  | assignedAgain => .assignedAgain path.text

namespace Slot

def isVacant : Slot → Bool
  | vacant => true
  | _ => false

/-- Puts a leaf where the moves lead; the slot there has to be vacant. -/
def insert (v : Value) : List Access → Slot → Except Clash Slot
  | [], vacant => .ok (leaf v)
  | [], _ => .error .assignedAgain
  | .key k :: rest, vacant => (insert v rest vacant).map fun s => mapping [(k, s)]
  | .key k :: rest, mapping entries =>
    (insert v rest ((Keyed.get? k entries).getD vacant)).map fun s => mapping (Keyed.put k s entries)
  | .key _ :: _, _ => .error .mappingNeeded
  | .index i :: rest, vacant => (insert v rest vacant).map fun s => sequence [(i, s)]
  | .index i :: rest, sequence items =>
    (insert v rest ((Keyed.get? i items).getD vacant)).map fun s => sequence (Keyed.putIndex i s items)
  | .index _ :: _, _ => .error .sequenceNeeded

/-- Puts one wrapped leaf, or the whole of an empty record. -/
def insertLine (body : SExpr) (root : Slot) : Except Malformation Slot :=
  if body = .symbol emptyMapping then
    if root.isVacant then .ok (leaf (.mapping [])) else .error .emptyWithEntries
  else do
    let (path, atom) ← Path.unwrap body
    let v ← Value.ofAtom atom
    (root.insert v path.accesses).mapError (Clash.at path)

/-! ## The finished value -/

/-- The name of an entry inside a place. -/
def childPlace (place key : String) : String :=
  if place.isEmpty then key else place ++ "." ++ key

def itemPlace (place : String) (i : Nat) : String :=
  place ++ "[" ++ toString i ++ "]"

mutual

def valueAt (place : String) : Slot → Except Malformation Value
  | vacant => .error (.vacant place)
  | leaf v => .ok v
  | mapping entries => (entryValues place entries).map .mapping
  | sequence items => (itemValues place 0 items).map .sequence

def entryValues (place : String) : List (String × Slot) → Except Malformation (List (String × Value))
  | [] => .ok []
  | (k, s) :: rest => do
    let v ← valueAt (childPlace place k) s
    let vs ← entryValues place rest
    return (k, v) :: vs

/-- Items whose indices count up from `expected`. -/
def itemValues (place : String) (expected : Nat) : List (Nat × Slot) → Except Malformation (List Value)
  | [] => .ok []
  | (i, s) :: rest =>
    if i = expected then do
      let v ← valueAt (itemPlace place i) s
      let vs ← itemValues place (expected + 1) rest
      return v :: vs
    else .error (.indexGap place expected)

end

/-- The value of a tree; without any leaf it is the empty mapping. -/
def finish (root : Slot) : Except Malformation Value :=
  if root.isVacant then .ok (.mapping []) else root.valueAt ""

end Slot

end AtomLines.Json
