import AtomLines.Rdf.Namespace
import AtomLines.Rdf.Term
/-!
# Documents

A document holds graphs, one of which has the asserted triples, and a table of
namespaces. Graphs, triples and prefixes keep the order in which they came; two
documents are the same if they differ only in that order.
-/

namespace AtomLines.Rdf

/-- A graph without repeated triples, in the order of their insertion. -/
structure Graph where
  id : GraphId
  triples : List Triple
deriving DecidableEq

namespace Graph

def empty (id : GraphId) : Graph := ⟨id, []⟩

def insert (g : Graph) (t : Triple) : Graph :=
  if t ∈ g.triples then g else { g with triples := g.triples ++ [t] }

def isEmpty (g : Graph) : Bool := g.triples.isEmpty

/-- The graphs that the triples refer to, in triple and term order. -/
def references (g : Graph) : List GraphId := g.triples.flatMap Triple.references

def mapGraph (f : GraphId → GraphId) (g : Graph) : Graph :=
  { g with triples := g.triples.map (Triple.mapGraph f) }

/-- Equality of the id and of the sets of triples. -/
def same (a b : Graph) : Bool :=
  a.id = b.id && a.triples.length = b.triples.length && a.triples.all (· ∈ b.triples)

end Graph

structure Document where
  graphs : List Graph
  namespaces : Namespaces
deriving DecidableEq

namespace Document

/-- A document without triples. -/
def new (namespaces : Namespaces) : Document :=
  ⟨[.empty .top], namespaces⟩

def graph? (d : Document) (id : GraphId) : Option Graph :=
  d.graphs.find? (·.id = id)

/-- The graph of the asserted triples. -/
def asserted (d : Document) : Graph :=
  (d.graph? .top).getD (.empty .top)

def ids (d : Document) : List GraphId := d.graphs.map Graph.id

/-- The graphs with one in the place of that with its id, or at the end. -/
def putGraph (g : Graph) : List Graph → List Graph
  | [] => [g]
  | h :: rest => if h.id = g.id then g :: rest else h :: putGraph g rest

def put (d : Document) (g : Graph) : Document :=
  { d with graphs := putGraph g d.graphs }

/-- The document with a graph of that id, an empty one if it had none. -/
def touch (d : Document) (id : GraphId) : Document :=
  match d.graph? id with
  | some _ => d
  | none => d.put (.empty id)

/-- Adds a triple to a graph, which is created if there is none. -/
def insert (d : Document) (id : GraphId) (t : Triple) : Document :=
  d.put (((d.graph? id).getD (.empty id)).insert t)

def contains (d : Document) (id : GraphId) (t : Triple) : Bool :=
  match d.graph? id with
  | some g => t ∈ g.triples
  | none => false

/-- One more than the largest id. -/
def freshId (d : Document) : GraphId :=
  d.ids.foldl max 0 + 1

/-- A new empty quoted graph. -/
def newGraph (d : Document) : GraphId × Document :=
  (d.freshId, d.put (.empty d.freshId))

def tripleCount (d : Document) : Nat :=
  d.graphs.foldl (fun n g => n + g.triples.length) 0

def same (a b : Document) : Bool :=
  a.namespaces.same b.namespaces && a.graphs.length = b.graphs.length &&
    a.graphs.all fun g =>
      match b.graph? g.id with
      | some h => g.same h
      | none => false

theorem id_of_graph? {d : Document} {id : GraphId} {g : Graph} (h : d.graph? id = some g) : g.id = id := by
  simpa using List.find?_some h

theorem mem_of_graph? {d : Document} {id : GraphId} {g : Graph} (h : d.graph? id = some g) : g ∈ d.graphs :=
  List.mem_of_find?_eq_some h

end Document

end AtomLines.Rdf
