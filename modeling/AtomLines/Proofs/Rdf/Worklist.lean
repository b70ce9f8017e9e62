import AtomLines.Proofs.Rdf.Flatten
import AtomLines.Proofs.Rdf.Identity
import AtomLines.Rdf.Worklist
/-!
# The graphs that wait

The order of a table holds the graphs that are written and then those that wait. So the
queue is the rest of the order with the ids of its graphs, and the front of the queue is
the graph that is pending. A run of the queue writes the lines of `flatten`, with the same
ids, or ends with the same error.
-/

namespace AtomLines.Rdf

namespace Worklist

variable {d : Document} {w : Worklist} {ids : Identities} {n : Nat}
  {done todo : List GraphId}

/-- The registry agrees with the table, and of its order all but the first `n` graphs wait. -/
structure Matches (w : Worklist) (ids : Identities) (n : Nat) : Prop where
  agrees : w.registry.Agrees ids
  coherent : ids.Coherent
  le_length : n ≤ ids.order.length
  queue : w.queue = (ids.order.drop n).map fun g => (g, ids.rename g)

theorem Matches.start : start.Matches .start 0 where
  agrees := .start
  coherent := .start
  le_length := Nat.zero_le _
  queue := rfl

theorem Matches.of_lines (h : w.Matches ids n) (lines : List SExpr) : { w with lines }.Matches ids n :=
  ⟨h.agrees, h.coherent, h.le_length, h.queue⟩

/-! ## One graph -/

/-- A graph joins the queue as it joins the end of the order. -/
theorem Matches.refer (h : w.Matches ids n) (g : GraphId) :
    (w.refer g).1 = (ids.resolve g).1 ∧ (w.refer g).2.lines = w.lines ∧ (w.refer g).2.Matches (ids.meet g) n := by
  obtain ⟨r, hr, hagrees⟩ := h.agrees.resolve h.coherent g
  rw [Worklist.refer, hr]
  refine ⟨rfl, rfl, hagrees, h.coherent.call (.resolve g), ?_, ?_⟩
  · exact Nat.le_trans h.le_length (Identities.extends_meet ids g).length_le
  · by_cases hg : g ∈ ids.order
    · rw [Identities.resolve_of_mem hg, Identities.meet_of_mem hg]
      exact h.queue
    · -- The graphs that wait already keep their ids, as the order grows at its end only.
      have hold : ∀ a ∈ ids.order.drop n, (a, ids.rename a) = (a, (ids.meet g).rename a) := by
        intro a ha
        rw [(Identities.extends_meet ids g).rename_eq (List.mem_of_mem_drop ha)]
      rw [Identities.order_meet_of_notMem hg, List.drop_append_of_le_length h.le_length, List.map_append,
        List.map_singleton, ← List.map_congr_left hold, ← Identities.resolve_fst, ← h.queue,
        Identities.resolve_of_notMem hg]
      rfl

theorem Matches.emitTerm (h : w.Matches ids n) (ns : Namespaces) (t : Term) :
    (w.emitTerm ns t).1 = (t.emit ns ids).1 ∧ (w.emitTerm ns t).2.lines = w.lines ∧
      (w.emitTerm ns t).2.Matches (t.emit ns ids).2 n := by
  cases t with
  | graph id =>
    obtain ⟨hid, hlines, hm⟩ := h.refer id
    exact ⟨congrArg GraphId.atom hid, hlines, hm⟩
  | _ => exact ⟨rfl, rfl, h⟩

theorem Matches.emitTriple (h : w.Matches ids n) (ns : Namespaces) (label : SExpr) (t : Triple) :
    (w.emitTriple ns label t).lines = w.lines ++ [.list [label, (t.emit ns ids).1]] ∧
      (w.emitTriple ns label t).Matches (t.emit ns ids).2 n := by
  obtain ⟨hs, hslines, hms⟩ := h.emitTerm ns t.subject
  obtain ⟨hp, hplines, hmp⟩ := hms.emitTerm ns t.predicate
  obtain ⟨ho, holines, hmo⟩ := hmp.emitTerm ns t.object
  refine ⟨?_, hmo.of_lines _⟩
  simp only [Worklist.emitTriple, Triple.emit, hs, hp, ho, hslines, hplines, holines]

theorem Matches.emitTriples (h : w.Matches ids n) (ns : Namespaces) (label : SExpr) (ts : List Triple) :
    (ts.foldl (Worklist.emitTriple ns label) w).lines = w.lines ++ (emitTriples ns label ids ts).1 ∧
      (ts.foldl (Worklist.emitTriple ns label) w).Matches (emitTriples ns label ids ts).2 n := by
  induction ts generalizing w ids with
  | nil => exact ⟨(List.append_nil _).symm, h⟩
  | cons t ts ih =>
    obtain ⟨hlines, hm⟩ := h.emitTriple ns label t
    obtain ⟨hlines', hm'⟩ := ih hm
    refine ⟨?_, hm'⟩
    rw [List.foldl_cons, hlines', hlines, List.append_assoc]
    rfl

theorem Matches.markFlattened (h : w.Matches ids n) (g : GraphId) :
    { w with registry := w.registry.markFlattened g }.Matches (ids.markFlattened g) n where
  agrees := h.agrees.markFlattened g
  coherent := h.coherent.call (.markFlattened g)
  le_length := by simpa using h.le_length
  queue := by simpa using h.queue

/-- A graph has the same lines from the queue as from the table. -/
theorem Matches.emitGraph (h : w.Matches ids n) (ns : Namespaces) (g : Graph) :
    (w.emitGraph ns g.id (ids.rename g.id) g).lines = w.lines ++ (g.emit ns ids).1 ∧
      (w.emitGraph ns g.id (ids.rename g.id) g).Matches ((g.emit ns ids).2.markFlattened g.id) n := by
  rw [Worklist.emitGraph, Graph.emit]
  split
  · rename_i he
    rw [Bool.and_eq_true] at he
    -- The line of the label is the only one, as there are no triples to follow it.
    have ht : g.triples = [] := List.isEmpty_iff.1 he.1
    rw [ht]
    exact ⟨rfl, (h.of_lines _).markFlattened g.id⟩
  · obtain ⟨hlines, hm⟩ := h.emitTriples ns (ids.rename g.id).atom g.triples
    exact ⟨hlines, hm.markFlattened g.id⟩

/-! ## A run -/

theorem Matches.queue_eq (h : w.Matches ids done.length) (hp : d.Progress ids done todo) :
    w.queue = todo.map fun g => (g, ids.rename g) := by
  rw [h.queue, hp.order, List.drop_left]

/-- The front of the queue is written, and the graphs that it refers to first go to the end. -/
theorem Matches.turn {source : GraphId} (h : w.Matches ids done.length) (hp : d.Progress ids done (source :: todo))
    {g : Graph} (hg : d.graph? source = some g) :
    ∃ (w' : Worklist) (more : List GraphId), w.run d = w'.run d ∧
      w'.lines = w.lines ++ (g.emit d.namespaces ids).1 ∧
      w'.Matches ((g.emit d.namespaces ids).2.markFlattened source) (done ++ [source]).length ∧
      d.Progress ((g.emit d.namespaces ids).2.markFlattened source) (done ++ [source]) (todo ++ more) := by
  obtain ⟨more, hnext⟩ := hp.step hg
  rw [← Graph.emit_snd d.namespaces] at hnext
  have hrest : { w with queue := todo.map fun a => (a, ids.rename a) }.Matches ids (done ++ [source]).length := by
    have ho : ids.order = done ++ [source] ++ todo := by rw [hp.order, List.append_assoc, List.singleton_append]
    exact ⟨h.agrees, h.coherent, by simp [ho], by rw [ho, List.drop_left]⟩
  obtain rfl := Document.id_of_graph? hg
  obtain ⟨hlines, hm⟩ := hrest.emitGraph d.namespaces g
  exact ⟨_, more, run_next (h.queue_eq hp) hg, hlines, hm, hnext⟩

/-- What is left of a run ends with the same error, or writes the same lines under ids
that agree. -/
theorem Matches.run (h : w.Matches ids done.length) (hp : d.Progress ids done todo) :
    (∃ e, d.flattenFrom ids = .error e ∧ w.run d = .error e) ∨
    ∃ (w' : Worklist) (lines : List SExpr) (ids' : Identities), d.flattenFrom ids = .ok (lines, ids') ∧
      w.run d = .ok w' ∧ w'.lines = w.lines ++ lines ∧ w'.registry.Agrees ids' := by
  fun_induction Document.flattenFrom d ids generalizing w done todo with
  | case1 ids hpend =>
    rw [hp.pending?_eq, List.head?_eq_none_iff] at hpend
    subst hpend
    exact .inr ⟨w, [], ids, rfl, run_end (h.queue_eq hp), (List.append_nil _).symm, h.agrees⟩
  | case2 ids source hpend hg =>
    obtain ⟨todo, rfl⟩ := List.head?_eq_some_iff.1 (hp.pending?_eq ▸ hpend)
    exact .inl ⟨_, rfl, run_missing (h.queue_eq hp) hg⟩
  | case3 ids source hpend g hg step _ e he =>
    rename_i ih
    obtain ⟨todo, rfl⟩ := List.head?_eq_some_iff.1 (hp.pending?_eq ▸ hpend)
    obtain ⟨next, more, hrun, -, hm, hnext⟩ := h.turn hp hg
    rcases ih hm hnext with ⟨e', he', hend⟩ | ⟨_, _, _, hok, -⟩
    · rw [he] at he'
      cases he'
      exact .inl ⟨e, rfl, hrun.trans hend⟩
    · cases he.symm.trans hok
  | case4 ids source hpend g hg step _ lines ids' he =>
    rename_i ih
    obtain ⟨todo, rfl⟩ := List.head?_eq_some_iff.1 (hp.pending?_eq ▸ hpend)
    obtain ⟨next, more, hrun, hstep, hm, hnext⟩ := h.turn hp hg
    rcases ih hm hnext with ⟨e, hbad, -⟩ | ⟨w', lines', ids'', hok, hend, hlines, hagrees⟩
    · cases he.symm.trans hbad
    · rw [he] at hok
      cases hok
      refine .inr ⟨w', _, ids', rfl, hrun.trans hend, ?_, hagrees⟩
      rw [hlines, hstep, List.append_assoc]

end Worklist

/-- The queue gives the lines of `flatten` under the same ids, or the same error. -/
theorem Document.flattenQueued_eq (d : Document) :
    d.flattenQueued.map (fun w => (w.lines, w.registry.assignments)) =
        d.flatten.map (fun r => (r.1, r.2.assignments)) ∧
      ∀ w r, d.flattenQueued = .ok w → d.flatten = .ok r → ∀ g, w.registry.state? g = r.2.state? g := by
  cases hc : d.checkReferences with
  | error e =>
    have hq : d.flattenQueued = .error e := by rw [flattenQueued, hc]; rfl
    have hf : d.flatten = .error e := by rw [flatten, hc]; rfl
    rw [hq, hf]
    refine ⟨rfl, fun w r hw => ?_⟩
    cases hw
  | ok reached =>
    have hq : d.flattenQueued = Worklist.start.run d := by rw [flattenQueued, hc]; rfl
    have hf : d.flatten = d.flattenFrom .start := by rw [flatten, hc]; rfl
    rcases Worklist.Matches.start.run (.start d) with ⟨e, he, hw⟩ | ⟨w, lines, ids, hok, hw, hlines, hagrees⟩
    · rw [hq, hf, he, hw]
      refine ⟨rfl, fun w r hw => ?_⟩
      cases hw
    · have ho := (numbered_of_flatten (hf.trans hok)).ordered
      rw [hq, hf, hok, hw]
      refine ⟨?_, ?_⟩
      · rw [Except.map, Except.map, hagrees.assignments ho, hlines]
        rfl
      · rintro w' r ⟨⟩ ⟨⟩
        exact hagrees.state?

end AtomLines.Rdf
