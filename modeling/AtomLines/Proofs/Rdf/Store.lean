import AtomLines.Proofs.Keyed
import AtomLines.Rdf.Document
import Mathlib.Data.List.Nodup
/-!
# Documents as stores of graphs

A graph is found by its id. Storing a graph under a present id replaces the graph
there and changes no other; a new id goes to the end. What holds of every document in
memory is `WellFormed`.
-/

namespace AtomLines.Rdf

/-- A graph with triples added one by one. -/
def Graph.insertAll (g : Graph) (ts : List Triple) : Graph := ts.foldl Graph.insert g

/-- The graph with every triple at its first place only. -/
def Graph.distinct (g : Graph) : Graph := (Graph.empty g.id).insertAll g.triples

namespace Graph

theorem id_insert (g : Graph) (t : Triple) : (g.insert t).id = g.id := by
  rw [insert]
  split <;> rfl

@[simp]
theorem id_insertAll (g : Graph) (ts : List Triple) : (g.insertAll ts).id = g.id := by
  induction ts generalizing g with
  | nil => rfl
  | cons t ts ih => rw [insertAll, List.foldl_cons, ← insertAll, ih, id_insert]

@[simp]
theorem id_distinct (g : Graph) : g.distinct.id = g.id := id_insertAll _ _

theorem mem_insert {g : Graph} {t u : Triple} : u ∈ (g.insert t).triples ↔ u ∈ g.triples ∨ u = t := by
  rw [insert]
  split
  · rename_i h
    constructor
    · exact .inl
    · rintro (hu | rfl)
      · exact hu
      · exact h
  · simp

theorem mem_insertAll {g : Graph} {ts : List Triple} {u : Triple} :
    u ∈ (g.insertAll ts).triples ↔ u ∈ g.triples ∨ u ∈ ts := by
  induction ts generalizing g with
  | nil => simp [insertAll]
  | cons t ts ih => rw [insertAll, List.foldl_cons, ← insertAll, ih, mem_insert, List.mem_cons, or_assoc]

@[simp]
theorem mem_distinct {g : Graph} {u : Triple} : u ∈ g.distinct.triples ↔ u ∈ g.triples := by
  simp [distinct, mem_insertAll, empty]

theorem mem_references {g : Graph} {r : GraphId} : r ∈ g.references ↔ ∃ t ∈ g.triples, r ∈ t.references := by
  rw [references, List.mem_flatMap]

end Graph

namespace Document

/-- What holds of every document in memory: the asserted graph comes first, and no
id, triple or label comes twice. -/
structure WellFormed (d : Document) : Prop where
  top : d.ids.head? = some .top
  ids : d.ids.Nodup
  triples : ∀ g ∈ d.graphs, g.triples.Nodup
  labels : (Keyed.keys d.namespaces.prefixes).Nodup

/-- The part of `WellFormed` that is about graphs. -/
structure Intact (d : Document) : Prop where
  top : d.ids.head? = some .top
  ids : d.ids.Nodup
  triples : ∀ g ∈ d.graphs, g.triples.Nodup

variable {d : Document}

theorem wellFormed_iff : d.WellFormed ↔ d.Intact ∧ (Keyed.keys d.namespaces.prefixes).Nodup :=
  ⟨fun h => ⟨⟨h.top, h.ids, h.triples⟩, h.labels⟩, fun h => ⟨h.1.top, h.1.ids, h.1.triples, h.2⟩⟩

theorem WellFormed.intact (h : d.WellFormed) : d.Intact := (wellFormed_iff.1 h).1

/-! ## Finding graphs -/

theorem isSome_graph? {id : GraphId} : (d.graph? id).isSome ↔ id ∈ d.ids := by
  simp [graph?, ids]

theorem exists_graph? {id : GraphId} (h : id ∈ d.ids) : ∃ g, d.graph? id = some g :=
  Option.isSome_iff_exists.1 (isSome_graph?.2 h)

theorem Intact.top_mem (h : d.Intact) : GraphId.top ∈ d.ids := List.mem_of_mem_head? h.top

theorem WellFormed.top_mem (h : d.WellFormed) : GraphId.top ∈ d.ids := h.intact.top_mem

/-! ## Storing graphs -/

theorem putGraph_of_notMem {g : Graph} {gs : List Graph} (h : g.id ∉ gs.map Graph.id) : putGraph g gs = gs ++ [g] := by
  induction gs with
  | nil => rfl
  | cons a gs ih =>
    rw [List.map_cons, List.mem_cons, not_or] at h
    rw [putGraph, if_neg (Ne.symm h.1), ih h.2, List.cons_append]

theorem putGraph_of_mem {g : Graph} {gs : List Graph} (hn : (gs.map Graph.id).Nodup) (h : g.id ∈ gs.map Graph.id) :
    putGraph g gs = gs.map fun a => if a.id = g.id then g else a := by
  induction gs with
  | nil => cases h
  | cons a gs ih =>
    rw [List.map_cons, List.nodup_cons] at hn
    rw [putGraph, List.map_cons]
    by_cases ha : a.id = g.id
    · have hs : ∀ b ∈ gs, (if b.id = g.id then g else b) = b := by
        intro b hb
        rw [if_neg]
        exact fun e => hn.1 (ha.trans e.symm ▸ List.mem_map_of_mem hb)
      rw [if_pos ha, if_pos ha, List.map_congr_left hs, List.map_id']
    · rw [if_neg ha, if_neg ha, ih hn.2 ((List.mem_cons.1 h).resolve_left (Ne.symm ha))]

theorem put_of_notMem {g : Graph} (h : g.id ∉ d.ids) : d.put g = { d with graphs := d.graphs ++ [g] } := by
  rw [put, putGraph_of_notMem h]

theorem put_of_mem (hn : d.ids.Nodup) {g : Graph} (h : g.id ∈ d.ids) :
    d.put g = { d with graphs := d.graphs.map fun a => if a.id = g.id then g else a } := by
  rw [put, putGraph_of_mem hn h]

/-- The document with each graph changed. -/
def change (d : Document) (f : Graph → Graph) : Document := { d with graphs := d.graphs.map f }

@[simp]
theorem ids_change {f : Graph → Graph} (h : ∀ g, (f g).id = g.id) : (d.change f).ids = d.ids := by
  simp [change, ids, h]

theorem change_change (f f' : Graph → Graph) : (d.change f).change f' = d.change fun g => f' (f g) := by
  simp [change]

theorem change_congr {f f' : Graph → Graph} (h : ∀ g ∈ d.graphs, f g = f' g) : d.change f = d.change f' := by
  rw [change, change, List.map_congr_left h]

/-- A triple for a graph that is there changes that graph only. -/
theorem insert_eq_change (hn : d.ids.Nodup) {id : GraphId} (h : id ∈ d.ids) (t : Triple) :
    d.insert id t = d.change fun g => if g.id = id then g.insert t else g := by
  obtain ⟨g, hg⟩ := exists_graph? h
  obtain rfl := id_of_graph? hg
  have hi : (g.insert t).id ∈ d.ids := by rwa [Graph.id_insert]
  rw [insert, hg, Option.getD_some, put_of_mem hn hi]
  refine change_congr fun a ha => ?_
  rw [Graph.id_insert]
  by_cases e : a.id = g.id
  · rw [if_pos e, if_pos e, List.inj_on_of_nodup_map hn ha (mem_of_graph? hg) e]
  · rw [if_neg e, if_neg e]

/-- The triples that are meant for a graph. -/
def triplesFor (id : GraphId) (statements : List (GraphId × Triple)) : List Triple :=
  (statements.filter (·.1 = id)).map Prod.snd

theorem triplesFor_append (id : GraphId) (ss ss' : List (GraphId × Triple)) :
    triplesFor id (ss ++ ss') = triplesFor id ss ++ triplesFor id ss' := by
  simp [triplesFor]

theorem triplesFor_map_self (id : GraphId) (ts : List Triple) : triplesFor id (ts.map fun t => (id, t)) = ts := by
  simp [triplesFor, List.filter_map, Function.comp_def]

theorem triplesFor_map_of_ne {id id' : GraphId} (h : id' ≠ id) (ts : List Triple) :
    triplesFor id (ts.map fun t => (id', t)) = [] := by
  simp [triplesFor, List.filter_map, Function.comp_def, h]

theorem foldl_insert (hn : d.ids.Nodup) {statements : List (GraphId × Triple)} (h : ∀ s ∈ statements, s.1 ∈ d.ids) :
    statements.foldl (fun d s => d.insert s.1 s.2) d = d.change fun g => g.insertAll (triplesFor g.id statements) := by
  induction statements generalizing d with
  | nil =>
    have hc : (d.change fun g => g.insertAll (triplesFor g.id [])) = d := by
      simp [change, triplesFor, Graph.insertAll]
    exact hc.symm
  | cons s statements ih =>
    rw [List.forall_mem_cons] at h
    have hid : ∀ g : Graph, (if g.id = s.1 then g.insert s.2 else g).id = g.id := by
      intro g
      split
      · exact g.id_insert s.2
      · rfl
    rw [List.foldl_cons, insert_eq_change hn h.1, ih, change_change]
    · refine change_congr fun g _ => ?_
      rw [hid]
      by_cases e : g.id = s.1
      · simp [triplesFor, e, Graph.insertAll]
      · simp [triplesFor, e, Ne.symm e, Graph.insertAll]
    · rwa [ids_change hid]
    · rw [ids_change hid]
      exact h.2

/-! ## Adding graphs -/

theorem touch_of_mem {id : GraphId} (h : id ∈ d.ids) : d.touch id = d := by
  obtain ⟨g, hg⟩ := exists_graph? h
  rw [touch, hg]

theorem touch_of_notMem {id : GraphId} (h : id ∉ d.ids) :
    d.touch id = { d with graphs := d.graphs ++ [.empty id] } := by
  have hn : d.graph? id = none := by
    rw [← Option.not_isSome_iff_eq_none, isSome_graph?]
    exact h
  rw [touch, hn]
  exact put_of_notMem h

theorem mem_ids_touch {id id' : GraphId} : id' ∈ (d.touch id).ids ↔ id' ∈ d.ids ∨ id' = id := by
  by_cases h : id ∈ d.ids
  · rw [touch_of_mem h]
    constructor
    · exact .inl
    · rintro (h' | rfl)
      · exact h'
      · exact h
  · rw [touch_of_notMem h]
    simp [ids, Graph.empty]

theorem foldl_touch_of_mem {old : List GraphId} (h : ∀ id ∈ old, id ∈ d.ids) : old.foldl touch d = d := by
  induction old with
  | nil => rfl
  | cons id old ih =>
    rw [List.forall_mem_cons] at h
    rw [List.foldl_cons, touch_of_mem h.1, ih h.2]

/-- Touching ids that are new and distinct adds empty graphs in their order. -/
theorem foldl_touch {new : List GraphId} (hn : new.Nodup) (h : ∀ id ∈ new, id ∉ d.ids) :
    new.foldl touch d = { d with graphs := d.graphs ++ new.map Graph.empty } := by
  induction new generalizing d with
  | nil => simp
  | cons id new ih =>
    rw [List.nodup_cons] at hn
    rw [List.forall_mem_cons] at h
    rw [List.foldl_cons, touch_of_notMem h.1, ih hn.2]
    · simp
    · intro id' hm
      simp only [ids, List.map_append, List.map_singleton, Graph.empty, List.mem_append, List.mem_singleton, not_or]
      exact ⟨h.2 id' hm, fun e => hn.1 (e ▸ hm)⟩

/-- Graphs that are new and distinct are stored as they come. -/
theorem foldl_put {gs : List Graph} (hn : (gs.map Graph.id).Nodup) (h : ∀ g ∈ gs, g.id ∉ d.ids) :
    gs.foldl put d = { d with graphs := d.graphs ++ gs } := by
  induction gs generalizing d with
  | nil => simp
  | cons g gs ih =>
    rw [List.map_cons, List.nodup_cons] at hn
    rw [List.forall_mem_cons] at h
    rw [List.foldl_cons, put_of_notMem h.1, ih hn.2]
    · simp
    · intro g' hm
      simp only [ids, List.map_append, List.map_singleton, List.mem_append, List.mem_singleton, not_or]
      exact ⟨h.2 g' hm, fun e => hn.1 (e ▸ List.mem_map_of_mem hm)⟩

/-- The asserted graph that a new document starts with is replaced, and the other
graphs follow. -/
theorem foldl_put_new {gs : List Graph} (hn : (gs.map Graph.id).Nodup) (ht : (gs.map Graph.id).head? = some .top)
    (ns : Namespaces) : gs.foldl put (.new ns) = ⟨gs, ns⟩ := by
  cases gs with
  | nil => cases ht
  | cons g gs =>
    have hg : g.id = .top := by simpa using ht
    rw [List.map_cons, List.nodup_cons] at hn
    have hp : (new ns).put g = ⟨[g], ns⟩ := by simp [new, put, putGraph, Graph.empty, hg]
    rw [List.foldl_cons, hp, foldl_put hn.2]
    · rfl
    · intro g' hm e
      exact hn.1 (List.mem_singleton.1 e ▸ List.mem_map_of_mem hm)

end Document

end AtomLines.Rdf
