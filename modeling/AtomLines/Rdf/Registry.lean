import AtomLines.Keyed
import AtomLines.Rdf.Identity
/-!
# Emitted ids by a counter

The same table of ids in three parts: a counter that hands out the next id, the state of
every graph that has one, and the graphs in the order in which they got theirs.
-/

namespace AtomLines.Rdf

def GraphState.id : GraphState → GraphId
  | allocated id | flattened id => id

structure Registry where
  counter : Allocator
  states : List (GraphId × GraphState)
  order : List GraphId

namespace Registry

/-- The asserted graph has its own id; the counter starts behind it. -/
def start : Registry := ⟨.start, [(.top, .allocated .top)], [.top]⟩

def state? (r : Registry) (source : GraphId) : Option GraphState :=
  Keyed.get? source r.states

/-- The emitted id of a graph, whether the counter handed it out for this call, and the
registry after it. -/
def resolve (r : Registry) (source : GraphId) : GraphId × Bool × Registry :=
  match r.state? source with
  | some state => (state.id, false, r)
  | none =>
    let (id, counter) := r.counter.allocate
    (id, true, ⟨counter, Keyed.put source (.allocated id) r.states, r.order ++ [source]⟩)

def markFlattened (r : Registry) (source : GraphId) : Registry :=
  match r.state? source with
  | some state => { r with states := Keyed.put source (.flattened state.id) r.states }
  | none => r

/-- The graphs of the order that have a state, with their emitted ids. -/
def assignments (r : Registry) : List (GraphId × GraphId) :=
  r.order.filterMap fun source => (r.state? source).map fun state => (source, state.id)

end Registry

end AtomLines.Rdf
