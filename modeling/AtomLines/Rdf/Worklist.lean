import AtomLines.Rdf.Flatten
import AtomLines.Rdf.Registry
/-!
# Graphs in a queue

The same lines with a queue in place of the recursion. A graph joins the queue when the
registry hands out an id for it and is written when it has come to the front. Either a
reference to a graph without an id is met or the queue has one graph less, so it runs dry.
-/

namespace AtomLines.Rdf

/-- The references in a document to graphs that have no state. -/
def Registry.unmet (r : Registry) (d : Document) : List GraphId :=
  (d.graphs.flatMap Graph.references).filter fun id => (r.state? id).isNone

structure Worklist where
  /-- The graphs that wait, each with its emitted id. -/
  queue : List (GraphId × GraphId)
  registry : Registry
  lines : List SExpr

namespace Worklist

/-- The asserted graph waits, under its own id. -/
def start : Worklist := ⟨[(.top, .top)], .start, []⟩

/-- The emitted id of a graph, which has to wait if the id is a fresh one. -/
def refer (w : Worklist) (source : GraphId) : GraphId × Worklist :=
  let (id, fresh, registry) := w.registry.resolve source
  (id, { w with registry, queue := if fresh then w.queue ++ [(source, id)] else w.queue })

def emitTerm (ns : Namespaces) (w : Worklist) : Term → SExpr × Worklist
  | .graph id =>
    let (emitted, w) := w.refer id
    (emitted.atom, w)
  | t => (t.atom ns, w)

/-- A line for a triple under the label of its graph. -/
def emitTriple (ns : Namespaces) (label : SExpr) (w : Worklist) (t : Triple) : Worklist :=
  let (s, w) := w.emitTerm ns t.subject
  let (p, w) := w.emitTerm ns t.predicate
  let (o, w) := w.emitTerm ns t.object
  { w with lines := w.lines ++ [.list [label, .list [s, p, o]]] }

/-- All lines of a graph under its emitted id; then it counts as written out. -/
def emitGraph (ns : Namespaces) (w : Worklist) (source emitted : GraphId) (g : Graph) : Worklist :=
  let label := emitted.atom
  let w := if g.isEmpty && source ≠ .top then { w with lines := w.lines ++ [.list [label]] } else w
  let w := g.triples.foldl (emitTriple ns label) w
  { w with registry := w.registry.markFlattened source }

/-! ## The queue runs dry -/

/-- Fewer references are without an id, or no graph has joined the queue. -/
def Nears (d : Document) (w w' : Worklist) : Prop :=
  (w'.registry.unmet d).length < (w.registry.unmet d).length ∨
    (w'.registry.unmet d).length = (w.registry.unmet d).length ∧ w'.queue = w.queue

section
variable {d : Document} {w w' w'' : Worklist}

theorem Nears.refl (d : Document) (w : Worklist) : w.Nears d w := .inr ⟨rfl, rfl⟩

theorem Nears.trans (h : w.Nears d w') (h' : w'.Nears d w'') : w.Nears d w'' := by
  rcases h with h | ⟨h, hq⟩
  · rcases h' with h' | ⟨h', -⟩
    · exact .inl (Nat.lt_trans h' h)
    · exact .inl (h' ▸ h)
  · rcases h' with h' | ⟨h', hq'⟩
    · exact .inl (h ▸ h')
    · exact .inr ⟨h'.trans h, hq'.trans hq⟩

/-- A state for a graph that is referred to and had none. -/
theorem unmet_put_lt {r : Registry} {source : GraphId} (state : GraphState) (hs : r.state? source = none)
    (hm : source ∈ d.graphs.flatMap Graph.references) (counter : Allocator) (order : List GraphId) :
    (Registry.unmet ⟨counter, Keyed.put source state r.states, order⟩ d).length < (r.unmet d).length := by
  have hf : Registry.unmet ⟨counter, Keyed.put source state r.states, order⟩ d =
      (r.unmet d).filter fun id => id ≠ source := by
    rw [Registry.unmet, Registry.unmet, List.filter_filter]
    refine List.filter_congr fun id _ => ?_
    by_cases h : id = source
    · simp [Registry.state?, h, Keyed.get?_put_self]
    · simp [Registry.state?, h, Keyed.get?_put_of_ne (Ne.symm h)]
  rw [hf]
  refine List.length_filter_lt_length_iff_exists.2 ⟨source, ?_, by simp⟩
  exact List.mem_filter.2 ⟨hm, by simp [hs]⟩

theorem nears_refer {source : GraphId} (hm : source ∈ d.graphs.flatMap Graph.references) :
    w.Nears d (w.refer source).2 := by
  rw [refer, Registry.resolve]
  cases hs : w.registry.state? source with
  | some state => exact .refl d w
  | none => exact .inl (unmet_put_lt _ hs hm ..)

theorem nears_emitTerm (ns : Namespaces) {t : Term} (hm : ∀ id ∈ t.graph?, id ∈ d.graphs.flatMap Graph.references) :
    w.Nears d (w.emitTerm ns t).2 := by
  cases t with
  | graph id => exact nears_refer (hm id rfl)
  | _ => exact .refl d w

theorem nears_emitTriple (ns : Namespaces) (label : SExpr) {t : Triple}
    (hm : ∀ id ∈ t.references, id ∈ d.graphs.flatMap Graph.references) : w.Nears d (w.emitTriple ns label t) := by
  have ht : ∀ x ∈ t.terms, ∀ id ∈ x.graph?, id ∈ d.graphs.flatMap Graph.references :=
    fun x hx id hid => hm id (List.mem_filterMap.2 ⟨x, hx, hid⟩)
  have hs := nears_emitTerm (w := w) ns (ht t.subject (by simp [Triple.terms]))
  have hp := nears_emitTerm (w := (w.emitTerm ns t.subject).2) ns (ht t.predicate (by simp [Triple.terms]))
  exact (hs.trans hp).trans (nears_emitTerm ns (ht t.object (by simp [Triple.terms])))

theorem nears_emitTriples (ns : Namespaces) (label : SExpr) {ts : List Triple}
    (hm : ∀ id ∈ ts.flatMap Triple.references, id ∈ d.graphs.flatMap Graph.references) :
    w.Nears d (ts.foldl (emitTriple ns label) w) := by
  induction ts generalizing w with
  | nil => exact .refl d w
  | cons t ts ih =>
    rw [List.flatMap_cons, List.forall_mem_append] at hm
    exact (nears_emitTriple ns label hm.1).trans (ih hm.2)

theorem isNone_state?_markFlattened (r : Registry) (source id : GraphId) :
    ((r.markFlattened source).state? id).isNone = (r.state? id).isNone := by
  rw [Registry.markFlattened]
  cases hs : r.state? source with
  | none => rfl
  | some state =>
    by_cases h : id = source
    · rw [h, hs, Registry.state?, Keyed.get?_put_self, Option.isNone_some, Option.isNone_some]
    · rw [Registry.state?, Keyed.get?_put_of_ne (Ne.symm h), Registry.state?]

theorem nears_markFlattened (d : Document) (w : Worklist) (source : GraphId) :
    w.Nears d { w with registry := w.registry.markFlattened source } :=
  .inr ⟨by simp only [Registry.unmet, isNone_state?_markFlattened], rfl⟩

theorem nears_emitGraph {g : Graph} (hg : g ∈ d.graphs) (source emitted : GraphId) :
    w.Nears d (w.emitGraph d.namespaces source emitted g) := by
  have hm : ∀ id ∈ g.triples.flatMap Triple.references, id ∈ d.graphs.flatMap Graph.references :=
    fun id hid => List.mem_flatMap.2 ⟨g, hg, hid⟩
  refine Nears.trans ?_ (nears_markFlattened ..)
  split
  · exact Nears.trans (.inr ⟨rfl, rfl⟩) (nears_emitTriples _ _ hm)
  · exact nears_emitTriples _ _ hm

/-- One turn of the run: the front of the queue is a graph that is there. -/
theorem nears_next {source emitted : GraphId} {rest : List (GraphId × GraphId)} {g : Graph}
    (hq : w.queue = (source, emitted) :: rest) (hg : d.graph? source = some g) :
    let w' := { w with queue := rest }.emitGraph d.namespaces source emitted g
    (w'.registry.unmet d).length < (w.registry.unmet d).length ∨
      (w'.registry.unmet d).length = (w.registry.unmet d).length ∧ w'.queue.length < w.queue.length := by
  rcases nears_emitGraph (w := { w with queue := rest }) (Document.mem_of_graph? hg) source emitted with h | ⟨h, hrest⟩
  · exact .inl h
  · refine .inr ⟨h, ?_⟩
    rw [hrest, hq]
    exact Nat.lt_succ_self _

end

/-- Writes the graphs that wait, and those that come to wait. -/
def run (d : Document) (w : Worklist) : Except GraphError Worklist :=
  match hq : w.queue with
  | [] => .ok w
  | (source, emitted) :: rest =>
    match hg : d.graph? source with
    | none => .error (.dangling source .top)
    | some g =>
      have := nears_next hq hg
      run d ({ w with queue := rest }.emitGraph d.namespaces source emitted g)
termination_by ((w.registry.unmet d).length, w.queue.length)
decreasing_by exact Prod.lex_def.2 this

section
variable {d : Document} {w : Worklist} {source emitted : GraphId} {rest : List (GraphId × GraphId)} {g : Graph}

theorem run_end (hq : w.queue = []) : w.run d = .ok w := by
  rw [run]
  split
  · rfl
  · rename_i hq'
    cases hq.symm.trans hq'

theorem run_missing (hq : w.queue = (source, emitted) :: rest) (hg : d.graph? source = none) :
    w.run d = .error (.dangling source .top) := by
  rw [run]
  split
  · rename_i hq'
    cases hq.symm.trans hq'
  · rename_i hq'
    cases hq.symm.trans hq'
    split
    · rfl
    · rename_i hg'
      cases hg.symm.trans hg'

theorem run_next (hq : w.queue = (source, emitted) :: rest) (hg : d.graph? source = some g) :
    w.run d = ({ w with queue := rest }.emitGraph d.namespaces source emitted g).run d := by
  rw [run]
  split
  · rename_i hq'
    cases hq.symm.trans hq'
  · rename_i hq'
    cases hq.symm.trans hq'
    split
    · rename_i hg'
      cases hg.symm.trans hg'
    · rename_i hg'
      cases hg.symm.trans hg'
      rfl

end

end Worklist

/-- All graphs reached from the asserted one, written from the queue. -/
def Document.flattenQueued (d : Document) : Except GraphError Worklist := do
  let _ ← d.checkReferences
  Worklist.start.run d

end AtomLines.Rdf
