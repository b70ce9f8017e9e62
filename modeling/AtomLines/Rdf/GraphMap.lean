import AtomLines.Keyed
import AtomLines.Rdf.Document
/-!
# Graphs under keys

The graphs of a document as a map from ids to graphs. A graph brings its own id, which
need not be the key that it stands under; it is the operations that keep them equal.
-/

namespace AtomLines.Rdf

/-- A set of triples with one more at its end, and whether that one was absent. -/
def insertTriple (t : Triple) : List Triple → Bool × List Triple
  | [] => (true, [t])
  | u :: rest =>
    if u = t then (false, u :: rest)
    else
      let (added, rest) := insertTriple t rest
      (added, u :: rest)

/-- The keys keep the order in which they came. -/
structure GraphMap where
  graphs : List (GraphId × Graph)
deriving DecidableEq

namespace GraphMap

def new : GraphMap := ⟨[(.top, .empty .top)]⟩

def graph? (m : GraphMap) (id : GraphId) : Option Graph := Keyed.get? id m.graphs

/-- Adds a triple to the graph under a key, which is created if there is none; tells
whether the triple was absent. -/
def insert (m : GraphMap) (id : GraphId) (t : Triple) : Bool × GraphMap :=
  let g := (m.graph? id).getD (.empty id)
  let (added, triples) := insertTriple t g.triples
  (added, ⟨Keyed.put id { g with triples } m.graphs⟩)

/-- Stores a whole graph, in the place of the one under its id if there is one. -/
def insertGraph (m : GraphMap) (g : Graph) : GraphMap := ⟨Keyed.put g.id g m.graphs⟩

/-- A new empty graph under one more than the largest key. -/
def newGraph (m : GraphMap) : GraphId × GraphMap :=
  let id := (Keyed.keys m.graphs).max?.getD 0 + 1
  (id, ⟨Keyed.put id (.empty id) m.graphs⟩)

def tripleCount (m : GraphMap) : Nat :=
  m.graphs.foldl (fun n e => n + e.2.triples.length) 0

end GraphMap

end AtomLines.Rdf
