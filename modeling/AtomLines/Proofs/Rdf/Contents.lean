import AtomLines.Proofs.Rdf.Store
/-!
# What documents contain

A document is seen through its ids and through the triples that it contains under
each of them. Every operation says what it adds to this view, and keeps a document
well formed.
-/

namespace AtomLines.Rdf

theorem Graph.nodup_insert {g : Graph} (h : g.triples.Nodup) (t : Triple) : (g.insert t).triples.Nodup := by
  rw [insert]
  split
  · exact h
  · rename_i ht
    rw [← List.concat_eq_append]
    exact h.concat ht

theorem Graph.nodup_distinct (g : Graph) : g.distinct.triples.Nodup :=
  List.foldlRecOn (motive := fun g : Graph => g.triples.Nodup) _ _ List.nodup_nil fun _ h t _ => nodup_insert h t

namespace Document

variable {d : Document} {g : Graph} {id id' : GraphId} {t t' : Triple}

theorem mem_ids_of_graph? (h : d.graph? id = some g) : id ∈ d.ids :=
  isSome_graph?.1 (by rw [h]; rfl)

theorem contains_iff : d.contains id t = true ↔ ∃ g, d.graph? id = some g ∧ t ∈ g.triples := by
  rw [contains]
  cases d.graph? id <;> simp

/-! ## Storing a graph -/

theorem find?_putGraph (g : Graph) (gs : List Graph) (id : GraphId) :
    (putGraph g gs).find? (·.id = id) = if id = g.id then some g else gs.find? (·.id = id) := by
  induction gs with
  | nil => simp [putGraph, eq_comm]
  | cons a gs ih =>
    rw [putGraph]
    by_cases ha : a.id = g.id
    · by_cases h : id = g.id
      · simp [ha, h]
      · simp [ha, h, Ne.symm h]
    · rw [if_neg ha, List.find?_cons, ih, List.find?_cons]
      by_cases h : id = g.id
      · simp [ha, h]
      · simp [h]

theorem graph?_put (d : Document) (g : Graph) (id : GraphId) :
    (d.put g).graph? id = if id = g.id then some g else d.graph? id :=
  find?_putGraph g d.graphs id

theorem mem_ids_put : id ∈ (d.put g).ids ↔ id ∈ d.ids ∨ id = g.id := by
  rw [← isSome_graph?, graph?_put, ← isSome_graph?]
  by_cases h : id = g.id <;> simp [h]

theorem contains_put : (d.put g).contains id t = if id = g.id then decide (t ∈ g.triples) else d.contains id t := by
  rw [contains, graph?_put, contains]
  by_cases h : id = g.id <;> simp [h]

theorem mem_putGraph {a : Graph} {gs : List Graph} (h : a ∈ putGraph g gs) : a = g ∨ a ∈ gs := by
  induction gs with
  | nil => exact .inl (List.mem_singleton.1 h)
  | cons b gs ih =>
    rw [putGraph] at h
    split at h
    · rcases List.mem_cons.1 h with rfl | h
      · exact .inl rfl
      · exact .inr (List.mem_cons_of_mem _ h)
    · rcases List.mem_cons.1 h with rfl | h
      · exact .inr List.mem_cons_self
      · exact (ih h).imp_right (List.mem_cons_of_mem _)

theorem ids_put (hn : d.ids.Nodup) (g : Graph) :
    (d.put g).ids = if g.id ∈ d.ids then d.ids else d.ids ++ [g.id] := by
  by_cases hm : g.id ∈ d.ids
  · rw [if_pos hm, put_of_mem hn hm, Document.ids, List.map_map]
    refine List.map_congr_left fun a _ => ?_
    by_cases ha : a.id = g.id <;> simp [ha]
  · rw [if_neg hm, put_of_notMem hm, Document.ids, List.map_append]
    rfl

theorem Intact.put (h : d.Intact) (hg : g.triples.Nodup) : (d.put g).Intact where
  top := by
    rw [ids_put h.ids]
    split
    · exact h.top
    · rw [List.head?_append, h.top]
      rfl
  ids := by
    rw [ids_put h.ids]
    split
    · exact h.ids
    · rename_i hm
      rw [← List.concat_eq_append]
      exact h.ids.concat hm
  triples a ha := by
    rcases mem_putGraph ha with rfl | ha
    · exact hg
    · exact h.triples a ha

theorem WellFormed.put (h : d.WellFormed) (hg : g.triples.Nodup) : (d.put g).WellFormed :=
  wellFormed_iff.2 ⟨h.intact.put hg, h.labels⟩

theorem Intact.new (ns : Namespaces) : (Document.new ns).Intact where
  top := rfl
  ids := List.nodup_singleton _
  triples := by simp [Document.new, Graph.empty]

theorem WellFormed.new {ns : Namespaces} (h : (Keyed.keys ns.prefixes).Nodup) : (Document.new ns).WellFormed :=
  wellFormed_iff.2 ⟨.new ns, h⟩

/-! ## Touching an id -/

theorem contains_touch : (d.touch id).contains id' t = d.contains id' t := by
  rw [touch]
  cases h : d.graph? id with
  | some g => rfl
  | none =>
    dsimp only
    rw [contains_put]
    by_cases he : id' = id
    · subst he
      rw [contains, h]
      simp [Graph.empty]
    · exact if_neg he

theorem WellFormed.touch (h : d.WellFormed) (id : GraphId) : (d.touch id).WellFormed := by
  rw [Document.touch]
  split
  · exact h
  · exact h.put List.nodup_nil

theorem namespaces_touch (d : Document) (id : GraphId) : (d.touch id).namespaces = d.namespaces := by
  rw [touch]
  split <;> rfl

theorem contains_new (ns : Namespaces) (id : GraphId) (t : Triple) : (new ns).contains id t = false := by
  rw [contains]
  split
  · rename_i g hg
    rw [List.mem_singleton.1 (mem_of_graph? hg)]
    rfl
  · rfl

theorem namespaces_foldl_touch (l : List GraphId) (d : Document) : (l.foldl touch d).namespaces = d.namespaces := by
  induction l generalizing d with
  | nil => rfl
  | cons id l ih => rw [List.foldl_cons, ih, namespaces_touch]

theorem mem_ids_foldl_touch {l : List GraphId} : id ∈ (l.foldl touch d).ids ↔ id ∈ d.ids ∨ id ∈ l := by
  induction l generalizing d with
  | nil => simp
  | cons id' l ih => rw [List.foldl_cons, ih, mem_ids_touch, List.mem_cons, or_assoc]

theorem contains_foldl_touch {l : List GraphId} : (l.foldl touch d).contains id t = d.contains id t := by
  induction l generalizing d with
  | nil => rfl
  | cons id' l ih => rw [List.foldl_cons, ih, contains_touch]

theorem WellFormed.foldl_touch (h : d.WellFormed) (l : List GraphId) : (l.foldl Document.touch d).WellFormed := by
  induction l generalizing d with
  | nil => exact h
  | cons id l ih => exact ih (h.touch id)

/-! ## Inserting a triple -/

theorem id_getD_graph? (d : Document) (id : GraphId) : ((d.graph? id).getD (.empty id)).id = id := by
  cases h : d.graph? id with
  | none => rfl
  | some g => exact id_of_graph? h

theorem mem_ids_insert : id' ∈ (d.insert id t).ids ↔ id' ∈ d.ids ∨ id' = id := by
  rw [insert, mem_ids_put, Graph.id_insert, id_getD_graph?]

theorem contains_insert : (d.insert id t).contains id' t' = true ↔ d.contains id' t' = true ∨ id' = id ∧ t' = t := by
  rw [insert, contains_put, Graph.id_insert, id_getD_graph?]
  by_cases he : id' = id
  · subst he
    have hc : t' ∈ ((d.graph? id').getD (.empty id')).triples ↔ d.contains id' t' = true := by
      rw [contains]
      cases d.graph? id' <;> simp [Graph.empty]
    rw [if_pos rfl, decide_eq_true_iff, Graph.mem_insert, hc]
    simp
  · simp [he]

theorem Intact.insert (h : d.Intact) (id : GraphId) (t : Triple) : (d.insert id t).Intact := by
  refine h.put (Graph.nodup_insert ?_ t)
  cases hg : d.graph? id with
  | none => exact List.nodup_nil
  | some g => exact h.triples g (mem_of_graph? hg)

theorem WellFormed.insert (h : d.WellFormed) (id : GraphId) (t : Triple) : (d.insert id t).WellFormed :=
  wellFormed_iff.2 ⟨h.intact.insert id t, h.labels⟩

end Document

end AtomLines.Rdf
