import AtomLines.Rdf.Identity
import AtomLines.Rdf.References
/-!
# Statements with graph labels

A document is written graph by graph, the asserted one first and each quoted one
in the order of first references. Every triple becomes a line that carries the
emitted id of its graph; an empty quoted graph has one line without a triple.
-/

namespace AtomLines.Rdf

/-- The expression of a term; a reference is written with its emitted id. -/
def Term.emit (ns : Namespaces) (ids : Identities) : Term → SExpr × Identities
  | graph id =>
    let (emitted, _, ids) := ids.resolve id
    (emitted.atom, ids)
  | t => (t.atom ns, ids)

def Triple.emit (ns : Namespaces) (ids : Identities) (t : Triple) : SExpr × Identities :=
  let (s, ids) := t.subject.emit ns ids
  let (p, ids) := t.predicate.emit ns ids
  let (o, ids) := t.object.emit ns ids
  (.list [s, p, o], ids)

/-- A line for each triple under the label of a graph. -/
def emitTriples (ns : Namespaces) (label : SExpr) (ids : Identities) : List Triple → List SExpr × Identities
  | [] => ([], ids)
  | t :: rest =>
    let (statement, ids) := t.emit ns ids
    let (lines, ids) := emitTriples ns label ids rest
    (.list [label, statement] :: lines, ids)

/-- All lines of a graph. -/
def Graph.emit (ns : Namespaces) (ids : Identities) (g : Graph) : List SExpr × Identities :=
  let label := (ids.rename g.id).atom
  if g.isEmpty && g.id ≠ .top then ([.list [label]], ids) else emitTriples ns label ids g.triples

/-! ## Only numbers are added -/

theorem Term.flattened_emit (ns : Namespaces) (ids : Identities) (t : Term) :
    (t.emit ns ids).2.flattened = ids.flattened := by
  cases t <;> simp only [Term.emit]
  simp only [Identities.resolve]
  split <;> rfl

theorem Triple.flattened_emit (ns : Namespaces) (ids : Identities) (t : Triple) :
    (t.emit ns ids).2.flattened = ids.flattened := by
  simp [Triple.emit, Term.flattened_emit]

theorem flattened_emitTriples (ns : Namespaces) (label : SExpr) (ids : Identities) (ts : List Triple) :
    (emitTriples ns label ids ts).2.flattened = ids.flattened := by
  induction ts generalizing ids with
  | nil => rfl
  | cons t rest ih => simp [emitTriples, ih, Triple.flattened_emit]

theorem Graph.flattened_emit (ns : Namespaces) (ids : Identities) (g : Graph) :
    (g.emit ns ids).2.flattened = ids.flattened := by
  simp only [Graph.emit]
  split
  · rfl
  · exact flattened_emitTriples ..

theorem Term.order_emit (ns : Namespaces) (ids : Identities) (t : Term) {id : GraphId}
    (h : id ∈ ids.order) : id ∈ (t.emit ns ids).2.order := by
  cases t <;> simp only [Term.emit] <;> try exact h
  simp only [Identities.resolve]
  split
  · exact h
  · exact List.mem_append_left _ h

theorem Triple.order_emit (ns : Namespaces) (ids : Identities) (t : Triple) {id : GraphId}
    (h : id ∈ ids.order) : id ∈ (t.emit ns ids).2.order := by
  simp only [Triple.emit]
  exact Term.order_emit _ _ _ (Term.order_emit _ _ _ (Term.order_emit _ _ _ h))

theorem order_emitTriples (ns : Namespaces) (label : SExpr) (ids : Identities) (ts : List Triple)
    {id : GraphId} (h : id ∈ ids.order) : id ∈ (emitTriples ns label ids ts).2.order := by
  induction ts generalizing ids with
  | nil => exact h
  | cons t rest ih => exact ih _ (Triple.order_emit _ _ _ h)

theorem Graph.order_emit (ns : Namespaces) (ids : Identities) (g : Graph) {id : GraphId}
    (h : id ∈ ids.order) : id ∈ (g.emit ns ids).2.order := by
  simp only [Graph.emit]
  split
  · exact h
  · exact order_emitTriples _ _ _ _ h

theorem Identities.mem_of_pending? {ids : Identities} {id : GraphId} (h : ids.pending? = some id) :
    id ∈ ids.order ∧ id ∉ ids.flattened :=
  ⟨List.mem_of_find?_eq_some h, by simpa using List.find?_some h⟩

/-! ## All graphs -/

namespace Document

/-- Writes the graphs that have an emitted id and are not written out yet. -/
def flattenFrom (d : Document) (ids : Identities) : Except GraphError (List SExpr × Identities) :=
  match h : ids.pending? with
  | none => .ok ([], ids)
  | some source =>
    match hg : d.graph? source with
    | none => .error (.dangling source .top)
    | some g =>
      let step := g.emit d.namespaces ids
      have : d.offPath (step.2.markFlattened source).flattened < d.offPath ids.flattened := by
        have hp := Identities.mem_of_pending? h
        have ho : source ∈ step.2.order := Graph.order_emit _ _ _ hp.1
        have hf : step.2.flattened = ids.flattened := Graph.flattened_emit ..
        simp only [Identities.markFlattened, ho, if_true, hf]
        exact offPath_cons_lt hg hp.2
      match flattenFrom d (step.2.markFlattened source) with
      | .error e => .error e
      | .ok (lines, ids) => .ok (step.1 ++ lines, ids)
termination_by d.offPath ids.flattened

section
variable {d : Document} {ids : Identities} {source : GraphId} {g : Graph}

theorem flattenFrom_end (h : ids.pending? = none) : d.flattenFrom ids = .ok ([], ids) := by
  rw [flattenFrom]
  split
  · rfl
  · rename_i h'
    rw [h] at h'
    cases h'

theorem flattenFrom_missing (h : ids.pending? = some source) (hg : d.graph? source = none) :
    d.flattenFrom ids = .error (.dangling source .top) := by
  rw [flattenFrom]
  split
  · rename_i h'
    rw [h] at h'
    cases h'
  · rename_i source' h'
    rw [h, Option.some.injEq] at h'
    subst h'
    split
    · rfl
    · rename_i hg'
      rw [hg] at hg'
      cases hg'

theorem flattenFrom_next (h : ids.pending? = some source) (hg : d.graph? source = some g) :
    d.flattenFrom ids = (d.flattenFrom ((g.emit d.namespaces ids).2.markFlattened source)).map
      fun r => ((g.emit d.namespaces ids).1 ++ r.1, r.2) := by
  rw [flattenFrom]
  split
  · rename_i h'
    rw [h] at h'
    cases h'
  · rename_i source' h'
    rw [h, Option.some.injEq] at h'
    subst h'
    split
    · rename_i hg'
      rw [hg] at hg'
      cases hg'
    · rename_i g' hg'
      rw [hg, Option.some.injEq] at hg'
      subst hg'
      dsimp only
      cases d.flattenFrom ((g.emit d.namespaces ids).2.markFlattened source) <;> rfl

end

/-- The lines of all graphs reached from the asserted one, and their ids. -/
def flatten (d : Document) : Except GraphError (List SExpr × Identities) := do
  let _ ← d.checkReferences
  d.flattenFrom .start

/-- The document with its reached graphs renumbered in the order in which they
are written, and without the others. -/
def canonicalize (d : Document) : Except GraphError Document := do
  let (_, ids) ← d.flatten
  return ids.assignments.foldl (fun c (source, emitted) =>
    match d.graph? source with
    | some g => c.put ((g.mapGraph ids.rename).triples.foldl Graph.insert (.empty emitted))
    | none => c) (.new d.namespaces)

end Document

end AtomLines.Rdf
