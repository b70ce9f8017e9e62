import AtomLines.Proofs.Outcome
import AtomLines.Proofs.Rdf.Entry
import AtomLines.Proofs.Rdf.Reachability
import AtomLines.Proofs.Rdf.Store
/-!
# Reading the lines of graphs

The lines of graphs that refer to each other only, with the bindings of a table of
namespaces after them, are read as the document of these graphs and that table. At an
address that gives another base the same lines are read with other terms, or a term is
refused and the lines with it.
-/

namespace AtomLines.Rdf

/-- Graphs that can stand in one document: the asserted one first, no id twice, and
every reference to a quoted graph among them. -/
structure Together (gs : List Graph) : Prop where
  top : (gs.map Graph.id).head? = some .top
  nodup : (gs.map Graph.id).Nodup
  references : ∀ g ∈ gs, ∀ r ∈ g.references, r ≠ .top ∧ r ∈ gs.map Graph.id

/-- Every literal of the language datatype has its tag. -/
def Graph.Complete (g : Graph) : Prop := ∀ t ∈ g.triples, ∀ x ∈ t.terms, x.Complete

/-- A table whose bindings say all of it at an address: no label comes twice, none is
that of the local namespace, and the base is the one that the address gives. -/
structure Namespaces.Bound (ns : Namespaces) (address : Option String) : Prop where
  nodup : (Keyed.keys ns.prefixes).Nodup
  notLocal : localLabel ∉ Keyed.keys ns.prefixes
  base : address.bind (fun a => (LocalNamespace.ofDocument a).base) = ns.own.bind LocalNamespace.base

/-- A table as its bindings are read at an address: there is none for a prefix with the
label of the local namespace, and the base is the one that the address gives. -/
def Namespaces.readAt (ns : Namespaces) (address : Option String) : Namespaces where
  prefixes := ns.prefixes.filter (·.1 ≠ localLabel)
  own :=
    match ns.own with
    | some own => some ⟨own.name, (address.map LocalNamespace.ofDocument).bind LocalNamespace.base⟩
    | none => address.map LocalNamespace.ofDocument

theorem Namespaces.prefixes_readAt {ns : Namespaces} (h : localLabel ∉ Keyed.keys ns.prefixes)
    (address : Option String) : (ns.readAt address).prefixes = ns.prefixes := by
  refine List.filter_eq_self.2 fun p hp => ?_
  have hne : p.1 ≠ localLabel := fun e => h (e ▸ List.mem_map_of_mem hp)
  simpa using hne

theorem Namespaces.Bound.readAt_eq {ns : Namespaces} {address : Option String} (h : ns.Bound address) :
    ns.readAt address = ns := by
  have hp := prefixes_readAt h.notLocal address
  have ho : (ns.readAt address).own = ns.own := by
    have hb := h.base
    rw [readAt]
    cases hn : ns.own with
    | none =>
      rw [hn] at hb
      cases address with
      | none => rfl
      | some a => cases hb
    | some own =>
      rw [hn] at hb
      show some (LocalNamespace.mk own.name ((address.map LocalNamespace.ofDocument).bind LocalNamespace.base)) = _
      rw [Option.bind_map, Function.comp_def, hb]
      rfl
  cases ns
  exact congr (congrArg Namespaces.mk hp) ho

/-- Graphs without triples, under the ids of graphs. -/
def blank (gs : List Graph) (ns : Namespaces) : Document := ⟨gs.map fun g => .empty g.id, ns⟩

theorem ids_blank (gs : List Graph) (ns : Namespaces) : (blank gs ns).ids = gs.map Graph.id := by
  simp [blank, Document.ids, Graph.empty]

/-! ## Graphs with other terms -/

def Triple.map (m : Term → Term) (t : Triple) : Triple := ⟨m t.subject, m t.predicate, m t.object⟩

def Graph.map (m : Term → Term) (g : Graph) : Graph := { g with triples := g.triples.map (Triple.map m) }

theorem Triple.references_map {m : Term → Term} (hm : ∀ x, (m x).graph? = x.graph?) (t : Triple) :
    (t.map m).references = t.references := by
  have ht : (t.map m).terms = t.terms.map m := rfl
  rw [references, ht, List.filterMap_map, references]
  exact List.filterMap_congr fun x _ => hm x

theorem Graph.references_map {m : Term → Term} (hm : ∀ x, (m x).graph? = x.graph?) (g : Graph) :
    (g.map m).references = g.references := by
  rw [references, map, List.flatMap_map, references]
  exact List.flatMap_congr fun t _ => t.references_map hm

theorem Graph.map_same (g : Graph) : g.map (fun x => x) = g := by
  show Graph.mk g.id (g.triples.map fun t => t) = g
  rw [List.map_id']

theorem Graph.mem_references_distinct {g : Graph} {r : GraphId} : r ∈ g.distinct.references ↔ r ∈ g.references := by
  simp only [mem_references, mem_distinct]

namespace Entry

variable {ns : Namespaces} {es : List Entry} {gs : List Graph} {address : Option String}

/-! ## Namespaces -/

theorem eq_binding_of_mem_entries {e : Entry} (h : e ∈ ns.entries) : ∃ label iri, e = binding label iri := by
  rw [Namespaces.entries] at h
  rcases List.mem_append.1 h with h | h
  · obtain ⟨p, -, rfl⟩ := List.mem_map.1 h
    exact ⟨_, _, rfl⟩
  · cases ho : ns.own with
    | none => rw [ho] at h; cases h
    | some own =>
      rw [ho] at h
      exact ⟨_, _, List.mem_singleton.1 h⟩

theorem graph?_of_mem_entries {g : Graph} {e : Entry} (h : e ∈ g.entries) : e.graph? = some g.id := by
  rw [Graph.entries] at h
  split at h
  · rw [List.mem_singleton.1 h]
    rfl
  · obtain ⟨t, -, rfl⟩ := List.mem_map.1 h
    rfl

theorem graph?_seen (ns : Namespaces) (e : Entry) : (e.seen ns).graph? = e.graph? := by
  cases e <;> rfl

/-- What only bindings change stays as it is over the lines of graphs. -/
theorem foldl_graphs {α : Type} {f : α → GraphLine → α} (hf : ∀ a l, l.graph? ≠ none → f a l = a)
    (gs : List Graph) (a : α) : ((gs.flatMap Graph.entries).map (seen ns)).foldl f a = a := by
  have h : ∀ e ∈ gs.flatMap Graph.entries, e.graph? ≠ none := by
    intro e he
    obtain ⟨g, -, hg⟩ := List.mem_flatMap.1 he
    simp [graph?_of_mem_entries hg]
  generalize gs.flatMap Graph.entries = es at h
  induction es with
  | nil => rfl
  | cons e es ih =>
    rw [List.forall_mem_cons] at h
    rw [List.map_cons, List.foldl_cons, hf _ _ (by rw [graph?_seen]; exact h.1), ih h.2]

/-- The lines of graphs and of a table, told apart. -/
def seenLines (gs : List Graph) (ns : Namespaces) : List GraphLine :=
  (gs.flatMap Graph.entries ++ ns.entries).map (seen ns)

theorem Namespaces.seen_entries (ns : Namespaces) :
    ns.entries.map (seen ns) = (ns.prefixes.filter (·.1 ≠ localLabel)).map (fun p => .binding p.1 p.2) ++
      (ns.own.map fun own => GraphLine.binding localLabel own.name).toList := by
  rw [Namespaces.entries, List.map_append, List.map_map]
  congr 1
  cases ns.own <;> rfl

theorem ne_local_of_mem {p : String × String} (h : p ∈ ns.prefixes.filter (·.1 ≠ localLabel)) : p.1 ≠ localLabel := by
  simpa using (List.mem_filter.1 h).2

theorem prefixes_seenLines (hn : (Keyed.keys ns.prefixes).Nodup) :
    GraphLine.prefixes (seenLines gs ns) = ns.prefixes.filter (·.1 ≠ localLabel) := by
  have hk : (Keyed.keys (ns.prefixes.filter (·.1 ≠ localLabel))).Nodup := hn.sublist (List.filter_sublist.map _)
  rw [seenLines, GraphLine.prefixes, List.map_append, List.foldl_append, foldl_graphs,
    Namespaces.seen_entries, List.foldl_append, List.foldl_map]
  · have hb : (ns.prefixes.filter (·.1 ≠ localLabel)).foldl
        (fun bound p => if p.1 = localLabel then bound else Keyed.put p.1 p.2 bound) [] =
          [] ++ ns.prefixes.filter (·.1 ≠ localLabel) := by
      rw [List.foldl_ext _ _ _ fun bound p hm => if_neg (ne_local_of_mem hm)]
      exact Keyed.foldl_put hk (by simp [Keyed.keys])
    rw [hb, List.nil_append]
    cases ns.own <;> rfl
  · intro bound l hg
    cases l with
    | binding label iri => exact absurd rfl hg
    | _ => rfl

theorem localName?_seenLines (gs : List Graph) (ns : Namespaces) :
    GraphLine.localName? (seenLines gs ns) = ns.own.map LocalNamespace.name := by
  rw [seenLines, GraphLine.localName?, List.map_append, List.foldl_append, foldl_graphs,
    Namespaces.seen_entries, List.foldl_append, List.foldl_map]
  · have hb : (ns.prefixes.filter (·.1 ≠ localLabel)).foldl
        (fun found p => if p.1 = localLabel then some p.2 else found) none = none := by
      rw [List.foldl_ext _ _ _ fun found p hm => if_neg (ne_local_of_mem hm)]
      exact List.foldl_fixed _
    rw [hb]
    cases ns.own <;> rfl
  · intro found l hg
    cases l with
    | binding label iri => exact absurd rfl hg
    | _ => rfl

theorem namespaces_seenLines (hn : (Keyed.keys ns.prefixes).Nodup) (gs : List Graph) (address : Option String) :
    GraphLine.namespaces (seenLines gs ns) address = ns.readAt address := by
  rw [GraphLine.namespaces, prefixes_seenLines hn, GraphLine.own, localName?_seenLines, Namespaces.readAt]
  cases ns.own <;> rfl

/-! ## The frame -/

theorem id_of_entries_nil {g : Graph} (h : g.entries = []) : g.id = .top := by
  rw [Graph.entries] at h
  split at h
  · cases h
  · rename_i hc
    rw [List.map_eq_nil_iff] at h
    simpa [Graph.isEmpty, h] using hc

/-- Each graph is named by its lines, but for the asserted one without triples, which
is there anyway. -/
theorem foldl_touch_entries {d : Document} (ht : GraphId.top ∈ d.ids) (g : Graph) :
    (g.entries.filterMap graph?).foldl Document.touch d = d.touch g.id := by
  have hr : g.entries.filterMap graph? = g.entries.map fun _ => g.id := by
    rw [List.filterMap_congr fun e he => graph?_of_mem_entries he]
    exact congrFun List.filterMap_eq_map _
  rw [hr]
  cases hg : g.entries with
  | nil =>
    rw [id_of_entries_nil hg, Document.touch_of_mem ht]
    rfl
  | cons e es =>
    rw [List.map_cons, List.foldl_cons]
    -- After the first line the graph is there.
    refine Document.foldl_touch_of_mem fun id hid => ?_
    obtain ⟨-, -, rfl⟩ := List.mem_map.1 hid
    exact Document.mem_ids_touch.2 (.inr rfl)

theorem foldl_touch_graphs {d : Document} (ht : GraphId.top ∈ d.ids) (gs : List Graph) :
    ((gs.flatMap Graph.entries).filterMap graph?).foldl Document.touch d = (gs.map Graph.id).foldl Document.touch d := by
  induction gs generalizing d with
  | nil => rfl
  | cons g gs ih =>
    rw [List.flatMap_cons, List.filterMap_append, List.foldl_append, foldl_touch_entries ht, List.map_cons,
      List.foldl_cons, ih (Document.mem_ids_touch.2 (.inl ht))]

theorem graphs_seenLines (gs : List Graph) (ns : Namespaces) :
    (seenLines gs ns).filterMap GraphLine.graph? = (gs.flatMap Graph.entries).filterMap graph? := by
  have hb : ns.entries.filterMap graph? = [] := by
    rw [List.filterMap_eq_nil_iff]
    intro e he
    obtain ⟨label, iri, rfl⟩ := eq_binding_of_mem_entries he
    rfl
  rw [seenLines, List.filterMap_map, ← List.append_nil (List.filterMap graph? _), ← hb, ← List.filterMap_append]
  exact List.filterMap_congr fun e _ => graph?_seen ns e

theorem skeleton_seenLines (hn : (Keyed.keys ns.prefixes).Nodup) (ht : Together gs) (address : Option String) :
    GraphLine.skeleton (seenLines gs ns) address = blank gs (ns.readAt address) := by
  have htop : GraphId.top ∈ (Document.new (ns.readAt address)).ids := List.mem_singleton_self _
  obtain ⟨rest, hr⟩ := List.head?_eq_some_iff.1 ht.top
  have hd := ht.nodup
  rw [hr, List.nodup_cons] at hd
  have hg : gs.map (fun g => Graph.empty g.id) = (gs.map Graph.id).map Graph.empty := by simp
  rw [GraphLine.skeleton, namespaces_seenLines hn, graphs_seenLines, foldl_touch_graphs htop, hr, List.foldl_cons,
    Document.touch_of_mem htop, Document.foldl_touch hd.2, blank, hg, hr]
  · rfl
  · intro id hid e
    have h : id = .top := List.mem_singleton.1 e
    exact hd.1 (h ▸ hid)

/-! ## The statements -/

theorem statements_entries (g : Graph) : g.entries.filterMap statement? = g.triples.map fun t => (g.id, t) := by
  rw [Graph.entries]
  split
  · rename_i h
    rw [Bool.and_eq_true] at h
    rw [List.isEmpty_iff.1 h.1]
    rfl
  · rw [List.filterMap_map]
    exact congrFun List.filterMap_eq_map _

theorem statements_bindings (ns : Namespaces) : ns.entries.filterMap statement? = [] := by
  rw [List.filterMap_eq_nil_iff]
  intro e he
  obtain ⟨label, iri, rfl⟩ := eq_binding_of_mem_entries he
  rfl

theorem mem_of_statement {id : GraphId} {t : Triple} (h : statement id t ∈ gs.flatMap Graph.entries ++ ns.entries) :
    ∃ g ∈ gs, g.id = id ∧ t ∈ g.triples := by
  rcases List.mem_append.1 h with h | h
  · obtain ⟨g, hg, h⟩ := List.mem_flatMap.1 h
    have hm : (id, t) ∈ g.entries.filterMap statement? := List.mem_filterMap.2 ⟨_, h, rfl⟩
    rw [statements_entries] at hm
    obtain ⟨t', ht, e⟩ := List.mem_map.1 hm
    cases e
    exact ⟨g, hg, rfl, ht⟩
  · obtain ⟨label, iri, e⟩ := eq_binding_of_mem_entries h
    cases e

theorem statement_mem {g : Graph} (hg : g ∈ gs) {t : Triple} (ht : t ∈ g.triples) :
    statement g.id t ∈ gs.flatMap Graph.entries ++ ns.entries := by
  have hm : (g.id, t) ∈ g.entries.filterMap statement? := by
    rw [statements_entries]
    exact List.mem_map_of_mem ht
  obtain ⟨e, he, hs⟩ := List.mem_filterMap.1 hm
  cases e with
  | statement id t' =>
    cases hs
    exact List.mem_append_left _ (List.mem_flatMap.2 ⟨g, hg, he⟩)
  | _ => cases hs

theorem triplesFor_of_notMem {id : GraphId} (h : id ∉ gs.map Graph.id) :
    Document.triplesFor id ((gs.flatMap Graph.entries).filterMap statement?) = [] := by
  induction gs with
  | nil => rfl
  | cons g gs ih =>
    rw [List.map_cons, List.mem_cons, not_or] at h
    rw [List.flatMap_cons, List.filterMap_append, Document.triplesFor_append, statements_entries,
      Document.triplesFor_map_of_ne (Ne.symm h.1), ih h.2]
    rfl

theorem triplesFor_of_mem (hn : (gs.map Graph.id).Nodup) {g : Graph} (hg : g ∈ gs) :
    Document.triplesFor g.id ((gs.flatMap Graph.entries).filterMap statement?) = g.triples := by
  induction gs with
  | nil => cases hg
  | cons g' gs ih =>
    rw [List.map_cons, List.nodup_cons] at hn
    rw [List.flatMap_cons, List.filterMap_append, Document.triplesFor_append, statements_entries]
    rcases List.mem_cons.1 hg with rfl | hg
    -- The lines of the other graphs have other ids.
    · rw [Document.triplesFor_map_self, triplesFor_of_notMem hn.1, List.append_nil]
    · have hne : g'.id ≠ g.id := fun e => hn.1 (e ▸ List.mem_map_of_mem hg)
      rw [Document.triplesFor_map_of_ne hne, ih hn.2 hg]
      rfl

/-! ## Terms -/

/-- A term that refers to no graph is taken in both layouts. -/
theorem readTerm_plain {frame : Document} {e : SExpr} {x : Term} (h : Term.ofAtom frame.namespaces e = .ok x)
    (hx : x.graph? = none) (encoding : GraphEncoding) (id : GraphId) :
    GraphLine.readTerm encoding frame id e = .ok x := by
  rw [GraphLine.readTerm, h]
  dsimp only [Except.mapError, bind, Except.bind]
  rw [hx]
  rfl

theorem readTerm_ok {frame : Document} {e : SExpr} {x : Term} (h : Term.ofAtom frame.namespaces e = .ok x)
    (hr : ∀ r, x.graph? = some r → r ≠ .top ∧ r ∈ frame.ids) (id : GraphId) :
    GraphLine.readTerm .quoted frame id e = .ok x := by
  cases hx : x.graph? with
  | none => exact readTerm_plain h hx .quoted id
  | some r =>
    obtain ⟨ht, hm⟩ := hr r hx
    have hs : (frame.graph? r).isNone = false := by
      rw [Option.isNone_eq_false_iff]
      exact Document.isSome_graph?.2 hm
    rw [GraphLine.readTerm, h]
    dsimp only [Except.mapError, bind, Except.bind]
    rw [hx]
    dsimp only
    rw [if_neg ht, hs]
    rfl

theorem readTerm_error {frame : Document} {e : SExpr} {cause : TermError}
    (h : Term.ofAtom frame.namespaces e = .error cause) (id : GraphId) :
    GraphLine.readTerm .quoted frame id e = .error (.term id cause) := by
  rw [GraphLine.readTerm, h]
  rfl

theorem mem_references_of_mem_terms {t : Triple} {x : Term} (hx : x ∈ t.terms) {r : GraphId}
    (hr : x.graph? = some r) : r ∈ t.references :=
  List.mem_filterMap.2 ⟨x, hx, hr⟩

theorem readTriple_ok {encoding : GraphEncoding} {frame : Document} {id : GraphId} {t : Triple} {m : Term → Term}
    (h : ∀ x ∈ t.terms, GraphLine.readTerm encoding frame id (x.atom ns).reread = .ok (m x)) :
    GraphLine.readTriple encoding frame id (t.subject.atom ns).reread (t.predicate.atom ns).reread
      (t.object.atom ns).reread = .ok (t.map m) := by
  rw [GraphLine.readTriple, h t.subject (by simp [Triple.terms]), h t.predicate (by simp [Triple.terms]),
    h t.object (by simp [Triple.terms])]
  rfl

/-- A triple that was written with a table, as the reader takes it in a frame. -/
def readBack (ns : Namespaces) (frame : Document) (id : GraphId) (t : Triple) : Except GraphError Triple :=
  GraphLine.readTriple .quoted frame id (t.subject.atom ns).reread (t.predicate.atom ns).reread
    (t.object.atom ns).reread

theorem readBack_ok {frame : Document} {t : Triple} {m : Term → Term} (hm : ∀ x, (m x).graph? = x.graph?)
    (hx : ∀ x ∈ t.terms, Term.ofAtom frame.namespaces (x.atom ns).reread = .ok (m x))
    (hr : ∀ r ∈ t.references, r ≠ .top ∧ r ∈ frame.ids) (id : GraphId) : readBack ns frame id t = .ok (t.map m) :=
  readTriple_ok fun x hxt => readTerm_ok (hx x hxt) (fun r h => hr r (mem_references_of_mem_terms hxt (hm x ▸ h))) id

section

variable {frame d : Document} {t : Triple} {id : GraphId} {e e' : GraphError}

/-- Each term is read or refused for one reason. -/
theorem readBack_cases (h : ∀ x ∈ t.terms, (∃ y, GraphLine.readTerm .quoted frame id (x.atom ns).reread = .ok y) ∨
      GraphLine.readTerm .quoted frame id (x.atom ns).reread = .error e) :
    ((∃ u, readBack ns frame id t = .ok u) ∧
      ∀ x ∈ t.terms, ∃ y, GraphLine.readTerm .quoted frame id (x.atom ns).reread = .ok y) ∨
    readBack ns frame id t = .error e := by
  obtain ⟨s, p, o⟩ := t
  simp only [Triple.terms, List.forall_mem_cons, List.not_mem_nil, false_imp_iff, implies_true, and_true] at h ⊢
  rw [readBack, GraphLine.readTriple]
  obtain ⟨⟨s', hs⟩ | hs, ⟨p', hp⟩ | hp, ⟨o', ho⟩ | ho⟩ := h
  · rw [hs, hp, ho]
    exact .inl ⟨⟨_, rfl⟩, ⟨s', rfl⟩, ⟨p', rfl⟩, ⟨o', rfl⟩⟩
  all_goals
    right
    simp only [hs, hp, ho]
    rfl

theorem add_seen_statement (d : Document) (id : GraphId) (t : Triple) :
    GraphLine.add .quoted frame d ((statement id t).seen ns) = (readBack ns frame id t).map (d.insert id) := by
  rw [seen, GraphLine.add, readBack]
  cases GraphLine.readTriple .quoted frame id (t.subject.atom ns).reread (t.predicate.atom ns).reread
    (t.object.atom ns).reread <;> rfl

theorem add_error (h : ∀ x ∈ t.terms, (∃ y, GraphLine.readTerm .quoted frame id (x.atom ns).reread = .ok y) ∨
      GraphLine.readTerm .quoted frame id (x.atom ns).reread = .error e)
    (ha : GraphLine.add .quoted frame d ((statement id t).seen ns) = .error e') : e' = e := by
  rw [add_seen_statement] at ha
  obtain ⟨⟨u, hu⟩, -⟩ | hu := readBack_cases h
  · rw [hu] at ha
    cases ha
  · rw [hu] at ha
    cases ha
    rfl

theorem add_refused (h : ∀ x ∈ t.terms, (∃ y, GraphLine.readTerm .quoted frame id (x.atom ns).reread = .ok y) ∨
      GraphLine.readTerm .quoted frame id (x.atom ns).reread = .error e)
    (hx : ∃ x ∈ t.terms, GraphLine.readTerm .quoted frame id (x.atom ns).reread = .error e) (d : Document) :
    GraphLine.add .quoted frame d ((statement id t).seen ns) = .error e := by
  rw [add_seen_statement]
  obtain ⟨-, hall⟩ | hu := readBack_cases h
  · obtain ⟨x, hxt, hbad⟩ := hx
    obtain ⟨y, hy⟩ := hall x hxt
    rw [hbad] at hy
    cases hy
  · rw [hu]
    rfl

end

/-- Where every statement can be read, the lines add what is read of them. -/
theorem foldlM_add {frame d : Document} {m : Triple → Triple}
    (h : ∀ id t, statement id t ∈ es → readBack ns frame id t = .ok (m t)) :
    (es.map (seen ns)).foldlM (GraphLine.add .quoted frame) d =
      .ok (((es.filterMap statement?).map fun s => (s.1, m s.2)).foldl (fun d s => d.insert s.1 s.2) d) := by
  induction es generalizing d with
  | nil => rfl
  | cons e es ih =>
    have hes : ∀ id t, statement id t ∈ es → readBack ns frame id t = .ok (m t) :=
      fun id t hm => h id t (List.mem_cons_of_mem _ hm)
    rw [List.map_cons]
    cases e with
    | statement id t =>
      have ha : GraphLine.add .quoted frame d ((statement id t).seen ns) = .ok (d.insert id (m t)) := by
        rw [add_seen_statement, h id t List.mem_cons_self]
        rfl
      rw [foldlM_cons_ok ha, ih hes]
      rfl
    | definition g =>
      rw [foldlM_cons_ok rfl, ih hes]
      rfl
    | binding label iri =>
      rw [foldlM_cons_ok rfl, ih hes]
      rfl

end Entry

/-- Each graph gets its own triples back. -/
theorem foldl_insert_blank {gs : List Graph} (hn : (gs.map Graph.id).Nodup) (ns : Namespaces) :
    ((gs.flatMap Graph.entries).filterMap Entry.statement?).foldl (fun d s => d.insert s.1 s.2) (blank gs ns) =
      ⟨gs.map Graph.distinct, ns⟩ := by
  have hid : ∀ s ∈ (gs.flatMap Graph.entries).filterMap Entry.statement?, s.1 ∈ (blank gs ns).ids := by
    intro s hs
    obtain ⟨e, he, hes⟩ := List.mem_filterMap.1 hs
    obtain ⟨g, hg, he⟩ := List.mem_flatMap.1 he
    have hse : e.graph? = some s.1 := by
      cases e <;> cases hes
      rfl
    rw [Entry.graph?_of_mem_entries he, Option.some.injEq] at hse
    rw [ids_blank, ← hse]
    exact List.mem_map_of_mem hg
  have hb : (blank gs ns).ids.Nodup := by rwa [ids_blank]
  rw [Document.foldl_insert hb hid, Document.change, blank, List.map_map]
  congr 1
  refine List.map_congr_left fun g hg => ?_
  show (Graph.empty g.id).insertAll (Document.triplesFor g.id _) = g.distinct
  rw [Entry.triplesFor_of_mem hn hg]
  rfl

theorem Entry.statements_map (m : Term → Term) (gs : List Graph) :
    ((gs.map (Graph.map m)).flatMap Graph.entries).filterMap statement? =
      ((gs.flatMap Graph.entries).filterMap statement?).map fun s => (s.1, s.2.map m) := by
  rw [List.flatMap_map, List.filterMap_flatMap, List.filterMap_flatMap, List.map_flatMap]
  refine List.flatMap_congr fun g _ => ?_
  rw [statements_entries, statements_entries, Graph.map, List.map_map, List.map_map]
  rfl

namespace Document

variable {gs : List Graph} {ns : Namespaces} {address : Option String} {m : Term → Term}

theorem graph?_map {f : Graph → Graph} (hf : ∀ g, (f g).id = g.id) (id : GraphId) :
    graph? ⟨gs.map f, ns⟩ id = (gs.find? (·.id = id)).map f := by
  rw [graph?, List.find?_map]
  simp only [Function.comp_def, hf]

theorem refers_map {f : Graph → Graph} (hf : ∀ g, (f g).id = g.id) {a b : GraphId} :
    Refers ⟨gs.map f, ns⟩ a b ↔ ∃ g, gs.find? (·.id = a) = some g ∧ b ∈ (f g).references := by
  simp only [Refers, graph?_map hf, Option.map_eq_some_iff, Graph.mem_references]
  constructor
  · rintro ⟨-, ⟨g, hfind, rfl⟩, ht⟩
    exact ⟨g, hfind, ht⟩
  · rintro ⟨g, hfind, ht⟩
    exact ⟨_, ⟨g, hfind, rfl⟩, ht⟩

/-- Other terms with the same references are as sound. -/
theorem Sound.map (hm : ∀ x, (m x).graph? = x.graph?) (hs : Sound ⟨gs.map Graph.distinct, ns⟩)
    (ns' : Namespaces) : Sound ⟨gs.map fun g => (Graph.map m g).distinct, ns'⟩ := by
  have hid : ∀ g, (Graph.map m g).distinct.id = g.id := fun g => (Graph.map m g).id_distinct
  refine hs.of_refers_eq (funext₂ fun a b => propext ?_) fun id => ?_
  · rw [refers_map Graph.id_distinct, refers_map hid]
    simp only [Graph.mem_references_distinct, Graph.references_map hm]
  · rw [graph?_map Graph.id_distinct, graph?_map hid, Option.isSome_map, Option.isSome_map]

/-- The lines of graphs and of a table, once they are written and read, as the reader
finds them. -/
theorem decode_lines (ht : Together gs) (hn : (Keyed.keys ns.prefixes).Nodup) :
    decode .quoted address (((gs.flatMap Graph.entries ++ ns.entries).map (Entry.line ns)).map SExpr.reread) = (do
      let d ← (Entry.seenLines gs ns).foldlM (GraphLine.add .quoted (blank gs (ns.readAt address)))
        (blank gs (ns.readAt address))
      let _ ← d.checkReferences
      return d) := by
  rw [decode, Entry.ofLines_reread_lines, ← Entry.skeleton_seenLines hn ht address]
  rfl

/-- Where each term is read as another one with the same reference, the graphs come
back with these terms, and the table as it is read at the address. -/
theorem decode_entries_map (ht : Together gs) (hn : (Keyed.keys ns.prefixes).Nodup)
    (hm : ∀ x, (m x).graph? = x.graph?)
    (hx : ∀ g ∈ gs, ∀ t ∈ g.triples, ∀ x ∈ t.terms, Term.ofAtom (ns.readAt address) (x.atom ns).reread = .ok (m x))
    (hs : Sound ⟨gs.map Graph.distinct, ns⟩) :
    decode .quoted address (((gs.flatMap Graph.entries ++ ns.entries).map (Entry.line ns)).map SExpr.reread) =
      .ok ⟨gs.map fun g => (Graph.map m g).distinct, ns.readAt address⟩ := by
  have hread : ∀ id t, Entry.statement id t ∈ gs.flatMap Graph.entries ++ ns.entries →
      Entry.readBack ns (blank gs (ns.readAt address)) id t = .ok (t.map m) := by
    intro id t hst
    obtain ⟨g, hg, -, htg⟩ := Entry.mem_of_statement hst
    refine Entry.readBack_ok hm (hx g hg t htg) (fun r hr => ?_) id
    rw [ids_blank]
    exact ht.references g hg r (Graph.mem_references.2 ⟨t, htg, hr⟩)
  have hid : ((gs.map (Graph.map m)).map Graph.id).Nodup := by
    rw [List.map_map]
    exact ht.nodup
  -- The frame holds the ids of the graphs only, and these stay.
  have hb : blank gs (ns.readAt address) = blank (gs.map (Graph.map m)) (ns.readAt address) := by
    rw [blank, blank, List.map_map]
    rfl
  obtain ⟨reached, hr⟩ := checkReferences_succeeds.2 (hs.map hm (ns.readAt address))
  rw [decode_lines ht hn, Entry.seenLines, Entry.foldlM_add hread, List.filterMap_append, Entry.statements_bindings,
    List.append_nil, ← Entry.statements_map, hb, foldl_insert_blank hid, List.map_map]
  show (do
    let _ ← checkReferences ⟨gs.map fun g => (Graph.map m g).distinct, ns.readAt address⟩
    return _) = _
  rw [hr]
  rfl

/-- The lines of graphs and of a table, once they are written and read, give the
graphs and the table back, if the references of the graphs are sound. -/
theorem decode_entries (ht : Together gs) (hc : ∀ g ∈ gs, g.Complete) (hb : ns.Bound address)
    (hs : Sound ⟨gs.map Graph.distinct, ns⟩) :
    decode .quoted address (((gs.flatMap Graph.entries ++ ns.entries).map (Entry.line ns)).map SExpr.reread) =
      .ok ⟨gs.map Graph.distinct, ns⟩ := by
  have hx : ∀ g ∈ gs, ∀ t ∈ g.triples, ∀ x ∈ t.terms,
      Term.ofAtom (ns.readAt address) (x.atom ns).reread = .ok x := by
    intro g hg t htg x hxt
    rw [hb.readAt_eq]
    exact Term.ofAtom_reread_atom ns (hc g hg t htg x hxt)
  rw [decode_entries_map ht hb.nodup (fun _ => rfl) hx hs, hb.readAt_eq]
  simp only [Graph.map_same]

/-- Where a term is refused, the lines are refused for that reason. -/
theorem decode_refused {cause : TermError} (ht : Together gs) (hn : (Keyed.keys ns.prefixes).Nodup)
    (hx : ∀ g ∈ gs, ∀ t ∈ g.triples, ∀ x ∈ t.terms, Term.ofAtom (ns.readAt address) (x.atom ns).reread = .ok x ∨
      Term.ofAtom (ns.readAt address) (x.atom ns).reread = .error cause)
    (hex : ∃ g ∈ gs, ∃ t ∈ g.triples, ∃ x ∈ t.terms,
      Term.ofAtom (ns.readAt address) (x.atom ns).reread = .error cause) :
    ∃ g ∈ gs, decode .quoted address
      (((gs.flatMap Graph.entries ++ ns.entries).map (Entry.line ns)).map SExpr.reread) =
        .error (.term g.id cause) := by
  have hterm : ∀ g ∈ gs, ∀ t ∈ g.triples, ∀ x ∈ t.terms,
      (∃ y, GraphLine.readTerm .quoted (blank gs (ns.readAt address)) g.id (x.atom ns).reread = .ok y) ∨
        GraphLine.readTerm .quoted (blank gs (ns.readAt address)) g.id (x.atom ns).reread =
          .error (.term g.id cause) := by
    intro g hg t htg x hxt
    refine (hx g hg t htg x hxt).imp (fun h => ⟨x, Entry.readTerm_ok h (fun r hr => ?_) g.id⟩)
      fun h => Entry.readTerm_error h g.id
    rw [ids_blank]
    exact ht.references g hg r (Graph.mem_references.2 ⟨t, htg, Entry.mem_references_of_mem_terms hxt hr⟩)
  -- Each line is read or refused for `cause`, and one of them is refused.
  have hadd : ∃ e, (Entry.seenLines gs ns).foldlM (GraphLine.add .quoted (blank gs (ns.readAt address)))
      (blank gs (ns.readAt address)) = .error e ∧ ∃ g ∈ gs, e = .term g.id cause := by
    refine foldlM_fails ?_ ?_
    · intro k hk d e he
      obtain ⟨entry, hentry, rfl⟩ := List.mem_map.1 hk
      cases entry with
      | statement id t =>
        obtain ⟨g, hg, rfl, htg⟩ := Entry.mem_of_statement hentry
        exact ⟨g, hg, Entry.add_error (hterm g hg t htg) he⟩
      | definition id => cases he
      | binding label iri => cases he
    · obtain ⟨g, hg, t, htg, x, hxt, hbad⟩ := hex
      refine ⟨_, List.mem_map_of_mem (Entry.statement_mem hg htg), fun d => ⟨.term g.id cause, ?_⟩⟩
      exact Entry.add_refused (hterm g hg t htg) ⟨x, hxt, Entry.readTerm_error hbad g.id⟩ d
  obtain ⟨e, he, g, hg, rfl⟩ := hadd
  refine ⟨g, hg, ?_⟩
  rw [decode_lines ht hn, he]
  rfl

end Document

end AtomLines.Rdf
