import AtomLines.Proofs.Rdf.Contents
import AtomLines.Rdf.GraphMap
import Mathlib.Algebra.Group.Nat.Defs
/-!
# Operations on a document

Every operation stores one graph, the one that it names. So the asserted graph stays in
front, nothing comes twice, and the other graphs are what they were. In a map from keys
to graphs the same operations keep every graph under its own id.
-/

namespace AtomLines.Rdf

inductive Operation where
  /-- Adds a triple to the graph of an id, which is created if there is none. -/
  | insert (id : GraphId) (t : Triple)
  /-- Stores a whole graph, in the place of the one with its id if there is one. -/
  | insertGraph (g : Graph) (distinct : g.triples.Nodup)
  | newGraph

namespace Document

variable {d : Document} {g : Graph} {id : GraphId} {t : Triple} {op : Operation} {ops : List Operation}

/-! ## One operation -/

def apply (d : Document) : Operation → Document
  | .insert id t => d.insert id t
  | .insertGraph g _ => d.put g
  | .newGraph => d.newGraph.2

/-- The id of the graph that an operation names. -/
def target (d : Document) : Operation → GraphId
  | .insert id _ => id
  | .insertGraph g _ => g.id
  | .newGraph => d.newGraph.1

/-- The graph that an operation leaves under that id. -/
def stored (d : Document) : Operation → Graph
  | .insert id t => ((d.graph? id).getD (.empty id)).insert t
  | .insertGraph g _ => g
  | .newGraph => .empty d.newGraph.1

theorem apply_eq_put (d : Document) (op : Operation) : d.apply op = d.put (d.stored op) := by
  cases op <;> rfl

theorem id_stored (d : Document) (op : Operation) : (d.stored op).id = d.target op := by
  cases op with
  | insert id t => exact (Graph.id_insert _ t).trans (id_getD_graph? d id)
  | insertGraph g _ => rfl
  | newGraph => rfl

theorem Intact.apply (h : d.Intact) (op : Operation) : (d.apply op).Intact := by
  cases op with
  | insert id t => exact h.insert id t
  | insertGraph g hg => exact h.put hg
  | newGraph => exact h.put List.nodup_nil

theorem graph?_target (d : Document) (op : Operation) : (d.apply op).graph? (d.target op) = some (d.stored op) := by
  rw [apply_eq_put, graph?_put, id_stored, if_pos rfl]

theorem graph?_apply_of_ne (h : id ≠ d.target op) : (d.apply op).graph? id = d.graph? id := by
  rw [apply_eq_put, graph?_put, id_stored, if_neg h]

theorem Intact.ids_apply (h : d.Intact) (op : Operation) :
    (d.apply op).ids = if d.target op ∈ d.ids then d.ids else d.ids ++ [d.target op] := by
  rw [apply_eq_put, ids_put h.ids, id_stored]

/-- The asserted graph is there and comes first. -/
theorem Intact.head?_graphs (h : d.Intact) : d.graphs.head? = some d.asserted ∧ d.graph? .top = some d.asserted := by
  have ht : d.graphs.head?.map Graph.id = some .top := by
    rw [← List.head?_map]
    exact h.top
  obtain ⟨g, hg, hid⟩ := Option.map_eq_some_iff.1 ht
  obtain ⟨rest, hr⟩ := List.head?_eq_some_iff.1 hg
  have hf : d.graph? .top = some g := by
    rw [graph?, hr, List.find?_cons_of_pos (by simpa using hid)]
  rw [asserted, hf]
  exact ⟨hg, rfl⟩

/-! ## Fresh ids -/

theorem toNat_foldl_max (l : List GraphId) (a : GraphId) :
    (l.foldl max a).toNat = (l.map UInt64.toNat).foldl max a.toNat := by
  induction l generalizing a with
  | nil => rfl
  | cons b l ih => rw [List.foldl_cons, ih, UInt64.toNat_max, List.map_cons, List.foldl_cons]

/-- While the largest number is not in use, a new id is above all others. -/
theorem lt_freshId (h : ∀ id ∈ d.ids, id.toNat < 2 ^ 64 - 1) : d.freshId ≠ .top ∧ ∀ id ∈ d.ids, id < d.freshId := by
  let largest := (d.ids.map UInt64.toNat).max?.getD 0
  have hle : ∀ id ∈ d.ids, id.toNat ≤ largest := fun id hid => List.le_max?_getD_of_mem (List.mem_map_of_mem hid)
  have hlt : largest < 2 ^ 64 - 1 := by
    cases hm : (d.ids.map UInt64.toNat).max? with
    | none => simp [largest, hm]
    | some m =>
      obtain ⟨id, hid, rfl⟩ := List.mem_map.1 (List.max?_mem hm)
      simpa [largest, hm] using h id hid
  have hf : d.freshId.toNat = largest + 1 := by
    have hl : (d.ids.foldl max 0).toNat = largest := by
      rw [toNat_foldl_max, List.foldl_max]
      exact Nat.zero_max _
    rw [freshId, UInt64.toNat_add, hl, UInt64.toNat_one]
    exact Nat.mod_eq_of_lt (by omega)
  refine ⟨fun he => ?_, fun id hid => ?_⟩
  · rw [he] at hf
    cases hf
  · rw [UInt64.lt_iff_toNat_lt, hf]
    exact Nat.lt_succ_of_le (hle id hid)

/-! ## Runs -/

/-- When an operation may be carried out: a new graph needs a number above the others. -/
def Fits (d : Document) : Operation → Prop
  | .newGraph => ∀ id ∈ d.ids, id.toNat < 2 ^ 64 - 1
  | _ => True

instance (d : Document) : (op : Operation) → Decidable (d.Fits op)
  | .insert _ _ | .insertGraph _ _ => isTrue trivial
  -- Over the ids of the document: there is also an instance over all ids.
  | .newGraph => List.decidableBAll (fun id : GraphId => id.toNat < 2 ^ 64 - 1) d.ids

/-- Operations that fit one after another. -/
def FitsAll (d : Document) : List Operation → Prop
  | [] => True
  | op :: ops => d.Fits op ∧ (d.apply op).FitsAll ops

instance decidableFitsAll (d : Document) : (ops : List Operation) → Decidable (d.FitsAll ops)
  | [] => isTrue trivial
  | op :: ops =>
    have := decidableFitsAll (d.apply op) ops
    inferInstanceAs (Decidable (d.Fits op ∧ (d.apply op).FitsAll ops))

def run (d : Document) (ops : List Operation) : Document := ops.foldl apply d

theorem Intact.run (h : d.Intact) (ops : List Operation) : (d.run ops).Intact := by
  induction ops generalizing d with
  | nil => exact h
  | cons op ops ih => exact ih (h.apply op)

theorem FitsAll.at {before after : List Operation} (h : d.FitsAll (before ++ op :: after)) : (d.run before).Fits op := by
  induction before generalizing d with
  | nil => exact h.1
  | cons op' before ih => exact ih h.2

end Document

/-! ## Graphs under keys -/

theorem insertTriple_eq (t : Triple) (ts : List Triple) :
    insertTriple t ts = (decide (t ∉ ts), if t ∈ ts then ts else ts ++ [t]) := by
  induction ts with
  | nil => simp [insertTriple]
  | cons u ts ih =>
    rw [insertTriple]
    by_cases hu : u = t
    · simp [hu]
    · rw [if_neg hu, ih]
      by_cases ht : t ∈ ts <;> simp [ht, Ne.symm hu]

theorem Graph.triples_insert (g : Graph) (t : Triple) :
    (g.insert t).triples = if t ∈ g.triples then g.triples else g.triples ++ [t] := by
  rw [insert]
  split <;> rfl

namespace GraphMap

variable {d : Document} {m : GraphMap} {id : GraphId} {t : Triple}

/-! ### Inserting a triple -/

theorem insert_eq (m : GraphMap) (id : GraphId) (t : Triple) :
    let g := (m.graph? id).getD (.empty id)
    m.insert id t = (decide (t ∉ g.triples), ⟨Keyed.put id (g.insert t) m.graphs⟩) := by
  intro g
  have hg : { g with triples := (g.insert t).triples } = g.insert t := by
    rw [Graph.mk.injEq]
    exact ⟨(g.id_insert t).symm, rfl⟩
  rw [insert, insertTriple_eq, ← Graph.triples_insert]
  exact congrArg (fun g' => (decide (t ∉ g.triples), (⟨Keyed.put id g' m.graphs⟩ : GraphMap))) hg

theorem tripleCount_eq (m : GraphMap) : m.tripleCount = (m.graphs.flatMap fun e => e.2.triples).length := by
  rw [tripleCount, List.length_flatMap, List.sum_eq_foldl, List.foldl_map]

/-- There is one triple more if the inserted one was absent. -/
theorem tripleCount_insert (m : GraphMap) (id : GraphId) (t : Triple) :
    (m.insert id t).2.tripleCount = m.tripleCount + (m.insert id t).1.toNat := by
  let g := (m.graph? id).getD (.empty id)
  have hold : ((Keyed.get? id m.graphs).map (id, ·)).toList.flatMap (fun e => e.2.triples) = g.triples := by
    cases hf : m.graph? id with
    | none =>
      rw [graph?] at hf
      simp [g, graph?, hf, Graph.empty]
    | some g' =>
      rw [graph?] at hf
      simp [g, graph?, hf]
  have hgain : (g.insert t).triples.Perm ((if t ∈ g.triples then [] else [t]) ++ g.triples) := by
    rw [Graph.triples_insert]
    split
    · exact List.Perm.refl _
    · exact List.perm_append_comm
  have hp : ((Keyed.put id (g.insert t) m.graphs).flatMap fun e => e.2.triples).Perm
      ((if t ∈ g.triples then [] else [t]) ++ m.graphs.flatMap fun e => e.2.triples) := by
    refine Keyed.flatMap_put ?_
    rw [hold]
    exact hgain
  rw [insert_eq, tripleCount_eq, tripleCount_eq, hp.length_eq, List.length_append, Nat.add_comm]
  congr 1
  by_cases ht : t ∈ g.triples <;> simp [g, ht]

/-! ### Maps from documents -/

/-- The graphs of a document, each under its own id. -/
def ofDocument (d : Document) : GraphMap := ⟨d.graphs.map fun g => (g.id, g)⟩

theorem graph?_ofDocument (d : Document) (id : GraphId) : (ofDocument d).graph? id = d.graph? id := by
  rw [graph?, ofDocument, Document.graph?]
  induction d.graphs with
  | nil => rfl
  | cons g gs ih =>
    rw [List.map_cons, Keyed.get?, List.find?_cons, ih]
    by_cases h : g.id = id <;> simp [h]

theorem keys_ofDocument (d : Document) : Keyed.keys (ofDocument d).graphs = d.ids := by
  rw [Keyed.keys, ofDocument, List.map_map]
  rfl

theorem ofDocument_put (d : Document) (g : Graph) : ofDocument (d.put g) = (ofDocument d).insertGraph g := by
  rw [ofDocument, Document.put, insertGraph, ofDocument, mk.injEq]
  induction d.graphs with
  | nil => rfl
  | cons a gs ih =>
    rw [Document.putGraph, List.map_cons, Keyed.put]
    split
    · rfl
    · rw [List.map_cons, ih]

theorem insert_ofDocument (d : Document) (id : GraphId) (t : Triple) :
    (ofDocument d).insert id t = (!d.contains id t, ofDocument (d.insert id t)) := by
  have hc : decide (t ∉ ((d.graph? id).getD (.empty id)).triples) = !d.contains id t := by
    rw [Document.contains]
    cases d.graph? id <;> simp [Graph.empty]
  rw [insert_eq, graph?_ofDocument, hc, Document.insert, ofDocument_put, insertGraph, Graph.id_insert,
    Document.id_getD_graph?]

theorem newGraph_ofDocument (d : Document) :
    (ofDocument d).newGraph = (d.newGraph.1, ofDocument d.newGraph.2) := by
  have hm : d.ids.max?.getD 0 = d.ids.foldl max 0 := by
    cases d.ids with
    | nil => rfl
    | cons id ids =>
      have h0 : max 0 id = id := by simp [UInt64.max_def]
      rw [List.foldl_cons, h0]
      rfl
  rw [newGraph, keys_ofDocument, hm, Document.newGraph, ofDocument_put]
  rfl

theorem tripleCount_ofDocument (d : Document) : (ofDocument d).tripleCount = d.tripleCount := by
  rw [tripleCount, ofDocument, Document.tripleCount, List.foldl_map]

/-! ### Runs -/

def apply (m : GraphMap) : Operation → GraphMap
  | .insert id t => (m.insert id t).2
  | .insertGraph g _ => m.insertGraph g
  | .newGraph => m.newGraph.2

def run (m : GraphMap) (ops : List Operation) : GraphMap := ops.foldl apply m

theorem apply_ofDocument (d : Document) (op : Operation) : (ofDocument d).apply op = ofDocument (d.apply op) := by
  cases op with
  | insert id t => rw [apply, insert_ofDocument]; rfl
  | insertGraph g _ => exact (ofDocument_put d g).symm
  | newGraph => rw [apply, newGraph_ofDocument]; rfl

theorem run_ofDocument (d : Document) (ops : List Operation) : (ofDocument d).run ops = ofDocument (d.run ops) := by
  induction ops generalizing d with
  | nil => rfl
  | cons op ops ih => rw [run, List.foldl_cons, apply_ofDocument, ← run, ih]; rfl

theorem run_new (ns : Namespaces) (ops : List Operation) : new.run ops = ofDocument ((Document.new ns).run ops) :=
  run_ofDocument (Document.new ns) ops

end GraphMap

/-! ## All runs -/

namespace Document

variable {d : Document} {op : Operation}

/-- What one operation does to a document, and what a map with the same graphs answers. -/
structure Step (d : Document) (m : GraphMap) (op : Operation) : Prop where
  target : (d.apply op).graph? (d.target op) = some (d.stored op)
  others : ∀ id, id ≠ d.target op → (d.apply op).graph? id = d.graph? id
  ids : (d.apply op).ids = if d.target op ∈ d.ids then d.ids else d.ids ++ [d.target op]
  /-- A new graph is empty, under an id that no graph had. -/
  fresh : op = .newGraph →
    m.newGraph.1 ≠ .top ∧ m.newGraph.1 ∉ d.ids ∧ (d.apply op).graph? m.newGraph.1 = some (.empty m.newGraph.1)
  /-- Where a triple was absent it is reported so, and there is one triple more. -/
  inserted : ∀ id t, op = .insert id t →
    ((m.insert id t).1 = true ↔ d.contains id t = false) ∧
      (d.apply op).contains id t = true ∧
        (d.apply op).tripleCount = d.tripleCount + if d.contains id t = true then 0 else 1

theorem tripleCount_insert (d : Document) (id : GraphId) (t : Triple) :
    (d.insert id t).tripleCount = d.tripleCount + if d.contains id t = true then 0 else 1 := by
  have h := (GraphMap.ofDocument d).tripleCount_insert id t
  rw [GraphMap.insert_ofDocument, GraphMap.tripleCount_ofDocument, GraphMap.tripleCount_ofDocument] at h
  rw [h]
  cases d.contains id t <;> rfl

theorem Intact.step (h : d.Intact) (hf : d.Fits op) : d.Step (.ofDocument d) op where
  target := graph?_target d op
  others _ := graph?_apply_of_ne
  ids := h.ids_apply op
  fresh ho := by
    subst ho
    obtain ⟨ht, hlt⟩ := lt_freshId hf
    rw [GraphMap.newGraph_ofDocument]
    exact ⟨ht, fun hm => UInt64.lt_irrefl _ (hlt _ hm), graph?_target d .newGraph⟩
  inserted id t ho := by
    subst ho
    refine ⟨by rw [GraphMap.insert_ofDocument, Bool.not_eq_true'], ?_, tripleCount_insert d id t⟩
    exact contains_insert.2 (.inr ⟨rfl, rfl⟩)

/-- What holds of a document after operations on a new one. -/
structure Kept (ns : Namespaces) (ops : List Operation) : Prop where
  intact : ((new ns).run ops).Intact
  /-- The asserted graph is there and comes first. -/
  asserted : ((new ns).run ops).graphs.head? = some ((new ns).run ops).asserted ∧
    (GraphMap.new.run ops).graph? .top = some ((new ns).run ops).asserted
  /-- A map has the same graphs, each under its own id. -/
  keyed : (GraphMap.new.run ops).graphs = ((new ns).run ops).graphs.map fun g => (g.id, g)
  steps : ∀ before op after, ops = before ++ op :: after →
    ((new ns).run before).Step (GraphMap.new.run before) op

/-- Operations that fit one after another keep a new document intact, and each of them
changes the graph that it names and no other. -/
theorem operations_keep_intact (ns : Namespaces) (ops : List Operation) (h : (new ns).FitsAll ops) : Kept ns ops := by
  have hi := (Intact.new ns).run ops
  obtain ⟨hhead, htop⟩ := hi.head?_graphs
  exact {
    intact := hi
    asserted := ⟨hhead, by rw [GraphMap.run_new ns, GraphMap.graph?_ofDocument, htop]⟩
    keyed := by
      rw [GraphMap.run_new ns]
      rfl
    steps := by
      rintro before op after rfl
      rw [GraphMap.run_new ns]
      exact ((Intact.new ns).run before).step h.at }

theorem operations_keep_intact_mixed :
    let t : Triple := ⟨.iri .xsdString, .iri .xsdInteger, .iri .xsdString⟩
    let ops : List Operation :=
      [.insert 5 t, .newGraph, .insertGraph ⟨.top, [t]⟩ (List.nodup_singleton t), .insert 5 t, .newGraph]
    (new .empty).FitsAll ops ∧ Kept .empty ops ∧ ((new .empty).run ops).ids = [.top, 5, 6, 7] ∧
      ((new .empty).run ops).tripleCount = 2 := by
  intro t ops
  have h : (new .empty).FitsAll ops := by decide
  exact ⟨h, operations_keep_intact .empty ops h, by decide, by decide⟩

end Document

end AtomLines.Rdf
