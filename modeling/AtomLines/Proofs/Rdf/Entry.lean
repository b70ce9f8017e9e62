import AtomLines.Proofs.Rdf.Term
import AtomLines.Rdf.Lines.Read
/-!
# Entries of a document

An entry is what a line says, before it is spelled as an expression. The line of an
entry is read, also after it has been written as text, as a line of the same kind
with the same parts.
-/

namespace AtomLines.Rdf

def Triple.atom (ns : Namespaces) (t : Triple) : SExpr :=
  .list [t.subject.atom ns, t.predicate.atom ns, t.object.atom ns]

inductive Entry where
  | definition (graph : GraphId)
  | statement (graph : GraphId) (triple : Triple)
  | binding (label iri : String)

/-- The entries of a graph: an empty quoted graph is only defined. -/
def Graph.entries (g : Graph) : List Entry :=
  if g.isEmpty && g.id ≠ .top then [.definition g.id] else g.triples.map (.statement g.id)

/-- The bindings of the prefixes, and of the local namespace last. -/
def Namespaces.entries (ns : Namespaces) : List Entry :=
  (ns.prefixes.filter (·.1 ≠ localLabel)).map (fun (label, iri) => .binding label iri) ++
    (ns.own.map fun own => Entry.binding localLabel own.name).toList

namespace Entry

def graph? : Entry → Option GraphId
  | definition g | statement g _ => some g
  | binding _ _ => none

def statement? : Entry → Option (GraphId × Triple)
  | statement g t => some (g, t)
  | _ => none

/-- The line of an entry. -/
def line (ns : Namespaces) : Entry → SExpr
  | definition g => .list [g.atom]
  | statement g t => .list [g.atom, t.atom ns]
  | binding label iri => bindingLine label iri

/-- The line as the reader tells it apart, its terms still expressions. -/
def seen (ns : Namespaces) : Entry → GraphLine
  | definition g => .definition g
  | statement g t =>
    .statement g (t.subject.atom ns).reread (t.predicate.atom ns).reread (t.object.atom ns).reread
  | binding label iri => .binding label iri

theorem proper_line (ns : Namespaces) (e : Entry) : (e.line ns).Proper := by
  cases e with
  | definition g => exact .list (by simp [g.proper_atom])
  | statement g t =>
    have ht : (t.atom ns).Proper := .list (by simp [Term.proper_atom])
    exact .list (by simp [g.proper_atom, ht])
  | binding label iri =>
    have hb : (SExpr.list [.string label, .string iri]).Proper := .list (by simp [SExpr.Proper.string])
    exact .list (by simp [SExpr.Proper.symbol, hb])

theorem ofExpr_reread_line (ns : Namespaces) (e : Entry) :
    GraphLine.ofExpr .quoted (e.line ns).reread = .ok (e.seen ns) := by
  have hg (g : GraphId) (rest : List SExpr) : (SExpr.list (g.atom.reread :: rest)).hasHead "Namespace" = false := by
    rw [GraphId.atom, SExpr.reread_list]
    rfl
  cases e with
  | definition g =>
    simp only [line, SExpr.reread_list, List.map_cons, List.map_nil, GraphLine.ofExpr, hg, GraphLine.quoted?,
      g.ofAtom?_reread_atom]
    rfl
  | statement g t =>
    simp only [line, Triple.atom, SExpr.reread_list, List.map_cons, List.map_nil, GraphLine.ofExpr, hg,
      GraphLine.quoted?, g.ofAtom?_reread_atom]
    rfl
  | binding label iri =>
    have hk : (SExpr.symbol "Namespace").reread = .symbol "Namespace" := SExpr.reread_symbol (by decide) (by decide)
    simp only [line, bindingLine, SExpr.reread_list, List.map_cons, List.map_nil, hk, SExpr.reread_string]
    rfl

/-- Lines that are told apart one by one. -/
theorem ofLines_map {encoding : GraphEncoding} {ns : Namespaces} {line : Entry → SExpr} {es : List Entry}
    (h : ∀ e ∈ es, GraphLine.ofExpr encoding (line e).reread = .ok (e.seen ns)) :
    GraphLine.ofLines encoding ((es.map line).map SExpr.reread) = .ok (es.map (seen ns)) := by
  rw [GraphLine.ofLines]
  generalize 1 = start
  induction es generalizing start with
  | nil => rfl
  | cons e es ih =>
    rw [List.forall_mem_cons] at h
    rw [List.map_cons, List.map_cons, List.zipIdx_cons, List.mapM_cons, ih h.2]
    dsimp only
    rw [h.1]
    rfl

theorem ofLines_reread_lines (ns : Namespaces) (es : List Entry) :
    GraphLine.ofLines .quoted ((es.map (line ns)).map SExpr.reread) = .ok (es.map (seen ns)) :=
  ofLines_map fun e _ => e.ofExpr_reread_line ns

end Entry

theorem Namespaces.lines_eq (ns ns' : Namespaces) : ns.lines = ns.entries.map (Entry.line ns') := by
  rw [lines, entries, List.map_append, List.map_map]
  congr 1
  cases ns.own <;> rfl

end AtomLines.Rdf
