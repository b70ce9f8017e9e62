import AtomLines.Rdf.Term
/-!
# Emitted ids

Quoted graphs are renumbered when a document is written: each gets the next free
number when it is first referred to. The number of a graph is its place in the
order of first references, with the asserted graph in front.
-/

namespace AtomLines.Rdf

/-- What has happened to a graph that has an emitted id. -/
inductive GraphState where
  | allocated (id : GraphId)
  | flattened (id : GraphId)
deriving DecidableEq

structure Identities where
  /-- The graphs with an emitted id, by that id. -/
  order : List GraphId
  flattened : List GraphId
deriving DecidableEq

namespace Identities

/-- Only the asserted graph has an id. -/
def start : Identities := ⟨[.top], []⟩

def emitted? (ids : Identities) (source : GraphId) : Option GraphId :=
  (ids.order.idxOf? source).map UInt64.ofNat

def state? (ids : Identities) (source : GraphId) : Option GraphState :=
  (ids.emitted? source).map fun id =>
    if source ∈ ids.flattened then .flattened id else .allocated id

/-- The emitted id of a graph, whether it is a fresh one, and the table with it. -/
def resolve (ids : Identities) (source : GraphId) : GraphId × Bool × Identities :=
  match ids.emitted? source with
  | some id => (id, false, ids)
  | none => (UInt64.ofNat ids.order.length, true, { ids with order := ids.order ++ [source] })

/-- Marks a graph as written out; one without an id stays without state. -/
def markFlattened (ids : Identities) (source : GraphId) : Identities :=
  if source ∈ ids.order then { ids with flattened := source :: ids.flattened } else ids

/-- Graphs with their emitted ids, ascending. -/
def assignments (ids : Identities) : List (GraphId × GraphId) :=
  ids.order.zipIdx.map fun (source, k) => (source, UInt64.ofNat k)

/-- The first graph that has an id and is not written out yet. -/
def pending? (ids : Identities) : Option GraphId :=
  ids.order.find? (· ∉ ids.flattened)

/-- The emitted id of a graph, its own where it has none. -/
def rename (ids : Identities) (source : GraphId) : GraphId :=
  (ids.emitted? source).getD source

end Identities

/-! ## Counting -/

/-- Hands out ids in order; none of them is that of the asserted graph. -/
structure Allocator where
  next : GraphId

namespace Allocator

def start : Allocator := ⟨1⟩

def allocate (a : Allocator) : GraphId × Allocator := (a.next, ⟨a.next + 1⟩)

end Allocator

end AtomLines.Rdf
