import AtomLines.Rdf.References
import Mathlib.Logic.Relation
/-!
# What the check of references finds

`follow` adds to the graphs it is done with those that the references lead to, and
keeps them `Settled`: closed under references, defined and without cycles. If it
fails, the graph it names is at `Fault`.
-/

namespace AtomLines.Rdf

namespace Document

open Relation

variable {d : Document}

/-- The first graph holds a triple that refers to the second. -/
def Refers (d : Document) (a b : GraphId) : Prop :=
  ∃ g, d.graph? a = some g ∧ ∃ t ∈ g.triples, b ∈ t.references

/-- References lead from the asserted graph to this one. -/
def Reachable (d : Document) : GraphId → Prop := ReflTransGen d.Refers .top

/-- The asserted graph is always there, a quoted one if the document holds it. -/
def Defined (d : Document) (id : GraphId) : Prop := id = .top ∨ (d.graph? id).isSome

/-- One or more references lead from the graph back to it. -/
def Cyclic (d : Document) (id : GraphId) : Prop := TransGen d.Refers id id

theorem refers_of_graph? {a b : GraphId} {g : Graph} (h : d.graph? a = some g) :
    d.Refers a b ↔ b ∈ g.references := by
  rw [Graph.references, List.mem_flatMap]
  constructor
  · rintro ⟨g', h', ht⟩
    rw [h, Option.some.injEq] at h'
    exact h' ▸ ht
  · exact fun ht => ⟨g, h, ht⟩

theorem refers_top {b : GraphId} : d.Refers .top b ↔ b ∈ d.asserted.references := by
  cases h : d.graph? .top with
  | some g => rw [refers_of_graph? h, asserted, h, Option.getD_some]
  | none =>
    rw [asserted, h, Option.getD_none]
    constructor
    · rintro ⟨g, hg, -⟩
      rw [h] at hg
      cases hg
    · simp [Graph.references, Graph.empty]

theorem Reachable.of_mem_references {id r : GraphId} {g : Graph} (h : d.Reachable id) (hg : d.graph? id = some g)
    (hr : r ∈ g.references) : d.Reachable r :=
  h.tail ((refers_of_graph? hg).2 hr)

theorem Refers.defined {a b : GraphId} (h : d.Refers a b) : d.Defined a := by
  obtain ⟨g, hg, -⟩ := h
  exact .inr (by rw [hg]; rfl)

theorem Defined.of_graph? {id : GraphId} {g : Graph} (h : d.graph? id = some g) : d.Defined id :=
  .inr (by rw [h]; rfl)

/-! ## Success -/

/-- What holds of the graphs that a walk along a path is done with. -/
structure Settled (d : Document) (path done : List GraphId) : Prop where
  closed : ∀ a ∈ done, ∀ b, d.Refers a b → b ∈ done
  defined : ∀ a ∈ done, d.Defined a
  acyclic : ∀ a ∈ done, ¬ d.Cyclic a
  apart : ∀ a ∈ done, a ∉ path
  nodup : done.Nodup

theorem Settled.nil (path : List GraphId) : d.Settled path [] := by
  constructor <;> simp

theorem Settled.reaches {path done : List GraphId} (h : d.Settled path done) {a b : GraphId} (ha : a ∈ done)
    (hab : ReflTransGen d.Refers a b) : b ∈ done := by
  induction hab with
  | refl => exact ha
  | tail _ hbc ih => exact h.closed _ ih _ hbc

/-- The walk enters a graph that it has not met. -/
theorem Settled.enter {path done : List GraphId} (h : d.Settled path done) {next : GraphId} (hn : next ∉ done) :
    d.Settled (next :: path) done :=
  { h with
    apart := by
      intro a ha hp
      rcases List.mem_cons.1 hp with rfl | hp
      · exact hn ha
      · exact h.apart a ha hp }

/-- The walk leaves a graph after all its references. A cycle through the graph would
lead to it from one of them, and it is not among the graphs that they lead to. -/
theorem Settled.leave {path done : List GraphId} {next : GraphId} (h : d.Settled (next :: path) done)
    (hd : d.Defined next) (hr : ∀ b, d.Refers next b → b ∈ done) (hp : next ∉ path) :
    d.Settled path (next :: done) := by
  have hn : next ∉ done := fun hm => h.apart next hm List.mem_cons_self
  exact {
    closed := by
      intro a ha b hab
      rcases List.mem_cons.1 ha with rfl | ha
      · exact List.mem_cons_of_mem _ (hr b hab)
      · exact List.mem_cons_of_mem _ (h.closed a ha b hab)
    defined := by
      intro a ha
      rcases List.mem_cons.1 ha with rfl | ha
      · exact hd
      · exact h.defined a ha
    acyclic := by
      intro a ha hc
      rcases List.mem_cons.1 ha with rfl | ha
      · obtain ⟨b, hab, hba⟩ := TransGen.head'_iff.1 hc
        exact hn (h.reaches (hr b hab) hba)
      · exact h.acyclic a ha hc
    apart := by
      intro a ha
      rcases List.mem_cons.1 ha with rfl | ha
      · exact hp
      · exact fun hm => h.apart a ha (List.mem_cons_of_mem _ hm)
    nodup := List.nodup_cons.2 ⟨hn, h.nodup⟩ }

/-- What a walk that follows references ends with. -/
structure Followed (d : Document) (path references done done' : List GraphId) : Prop where
  settled : d.Settled path done'
  kept : ∀ a ∈ done, a ∈ done'
  taken : ∀ a ∈ references, a ∈ done'
  reached : ∀ a ∈ done', a ∈ done ∨ ∃ r ∈ references, ReflTransGen d.Refers r a

theorem follow_ok {path references done done' : List GraphId} {current : GraphId} (hs : d.Settled path done)
    (h : d.follow path current references done = .ok done') : d.Followed path references done done' := by
  fun_induction follow d path current references done generalizing done' with
  | case1 path current done =>
    cases h
    exact ⟨hs, fun a ha => ha, by simp, fun a ha => .inl ha⟩
  | case2 => cases h
  | case3 path current done next rest hp hm ih =>
    have f := ih hs h
    refine ⟨f.settled, f.kept, List.forall_mem_cons.2 ⟨f.kept next hm, f.taken⟩, ?_⟩
    intro a ha
    rcases f.reached a ha with hd | ⟨r, hr, hra⟩
    · exact .inl hd
    · exact .inr ⟨r, List.mem_cons_of_mem _ hr, hra⟩
  | case4 => cases h
  | case5 => cases h
  | case6 path current done next rest hp hm g hg _ inner _ ih₁ ih₂ =>
    -- Inside `next`, then out of it with all its references done, then along the rest.
    have f₁ := ih₁ (hs.enter hm) ‹_›
    have hr : ∀ b, d.Refers next b → b ∈ inner := fun b hb => f₁.taken b ((refers_of_graph? hg).1 hb)
    have f₂ := ih₂ (f₁.settled.leave (.of_graph? hg) hr hp) h
    have hn : next ∈ done' := f₂.kept next List.mem_cons_self
    refine ⟨f₂.settled, ?_, List.forall_mem_cons.2 ⟨hn, f₂.taken⟩, ?_⟩
    · exact fun a ha => f₂.kept a (List.mem_cons_of_mem _ (f₁.kept a ha))
    · intro a ha
      rcases f₂.reached a ha with hi | ⟨r, hr, hra⟩
      · rcases List.mem_cons.1 hi with rfl | hi
        · exact .inr ⟨a, List.mem_cons_self, .refl⟩
        · rcases f₁.reached a hi with hd | ⟨r, hr, hra⟩
          · exact .inl hd
          · exact .inr ⟨next, List.mem_cons_self, .head ((refers_of_graph? hg).2 hr) hra⟩
      · exact .inr ⟨r, List.mem_cons_of_mem _ hr, hra⟩

/-- What a walk is done with is reached, if it starts so. -/
theorem reachable_of_follow {path references done done' : List GraphId} {current : GraphId}
    (hr : ∀ g ∈ references, d.Reachable g) (hd : ∀ g ∈ done, d.Reachable g)
    (h : d.follow path current references done = .ok done') : ∀ g ∈ done', d.Reachable g := by
  fun_induction Document.follow d path current references done generalizing done' with
  | case1 => cases h; exact hd
  | case2 => cases h
  | case3 path current done next rest _ _ ih => exact ih (fun g hg => hr g (List.mem_cons_of_mem _ hg)) hd h
  | case4 => cases h
  | case5 => cases h
  | case6 path current done next rest _ _ g hg _ inner hi ih₁ ih₂ =>
    rw [List.forall_mem_cons] at hr
    have hin : ∀ g ∈ inner, d.Reachable g := ih₁ (fun r => hr.1.of_mem_references hg) hd hi
    exact ih₂ hr.2 (List.forall_mem_cons.2 ⟨hr.1, hin⟩) h

/-! ## Failure -/

/-- A path from the asserted graph to the current one. -/
structure OnPath (d : Document) (path : List GraphId) (current : GraphId) : Prop where
  top : GraphId.top ∈ path
  reachable : d.Reachable current
  leads : ∀ a ∈ path, ReflTransGen d.Refers a current

theorem OnPath.enter {path : List GraphId} {current next : GraphId} (h : d.OnPath path current)
    (hr : d.Refers current next) : d.OnPath (next :: path) next where
  top := List.mem_cons_of_mem _ h.top
  reachable := h.reachable.tail hr
  leads := by
    intro a ha
    rcases List.mem_cons.1 ha with rfl | ha
    · exact .refl
    · exact (h.leads a ha).tail hr

/-- The check names a graph that is reached and lies on a cycle, or one that is
missing with the graph that refers to it. -/
inductive Fault (d : Document) : GraphError → Prop
  | cyclic {g : GraphId} : d.Reachable g → d.Cyclic g → Fault d (.cyclic g)
  | dangling {g referrer : GraphId} : d.Reachable referrer → d.Refers referrer g → ¬ d.Defined g →
    Fault d (.dangling g referrer)

theorem follow_error {path references done : List GraphId} {current : GraphId} {e : GraphError}
    (hp : d.OnPath path current) (hr : ∀ r ∈ references, d.Refers current r)
    (h : d.follow path current references done = .error e) : d.Fault e := by
  fun_induction follow d path current references done with
  | case1 => cases h
  | case2 path current done next rest hn =>
    cases h
    -- `next` is on the path, so it leads to the current graph, which refers to it.
    have hc := hr next List.mem_cons_self
    exact .cyclic (hp.reachable.tail hc) (TransGen.tail' (hp.leads next hn) hc)
  | case3 path current done next rest _ _ ih => exact ih hp (fun r hm => hr r (List.mem_cons_of_mem _ hm)) h
  | case4 path current done next rest hn _ hg =>
    cases h
    refine .dangling hp.reachable (hr next List.mem_cons_self) ?_
    rintro (rfl | hd)
    -- The asserted graph is never missing: it is on every path.
    · exact hn hp.top
    · rw [hg] at hd
      cases hd
  | case5 path current done next rest _ _ g hg _ e' he ih =>
    cases h
    have hc := hr next List.mem_cons_self
    exact ih (hp.enter hc) (fun r hm => (refers_of_graph? hg).2 hm) he
  | case6 path current done next rest _ _ g hg _ inner _ _ ih₂ =>
    exact ih₂ hp (fun r hm => hr r (List.mem_cons_of_mem _ hm)) h

/-! ## The check -/

theorem checkReferences_ok {reached : List GraphId} (h : d.checkReferences = .ok reached) :
    d.Settled [] reached ∧ ∀ g, g ∈ reached ↔ d.Reachable g := by
  rw [checkReferences] at h
  cases hf : d.follow [.top] .top d.asserted.references [] with
  | error e => rw [hf] at h; cases h
  | ok done =>
    rw [hf] at h
    cases h
    have f := follow_ok (.nil _) hf
    have hr : ∀ b, d.Refers .top b → b ∈ done := fun b hb => f.taken b (refers_top.1 hb)
    have hs : d.Settled [] (.top :: done) := f.settled.leave (.inl rfl) hr (by simp)
    refine ⟨hs, fun g => ⟨?_, hs.reaches List.mem_cons_self⟩⟩
    intro hg
    rcases List.mem_cons.1 hg with rfl | hg
    · exact .refl
    · rcases f.reached g hg with hn | ⟨r, hr, hrg⟩
      · cases hn
      · exact .head (refers_top.2 hr) hrg

theorem checkReferences_error {e : GraphError} (h : d.checkReferences = .error e) : d.Fault e := by
  rw [checkReferences] at h
  cases hf : d.follow [.top] .top d.asserted.references [] with
  | error e' =>
    rw [hf] at h
    cases h
    exact follow_error ⟨List.mem_singleton_self _, .refl, by simp [ReflTransGen.refl]⟩ (fun r hr => refers_top.2 hr) hf
  | ok done => rw [hf] at h; cases h

/-- Every reachable graph is defined and on no cycle. -/
def Sound (d : Document) : Prop := ∀ g, d.Reachable g → d.Defined g ∧ ¬ d.Cyclic g

/-- Only ids and references count. -/
theorem Sound.of_refers_eq {d' : Document} (hs : d.Sound) (hr : d.Refers = d'.Refers)
    (hids : ∀ id, (d.graph? id).isSome = (d'.graph? id).isSome) : d'.Sound := by
  intro id hid
  rw [Reachable, ← hr] at hid
  obtain ⟨hd, hc⟩ := hs id hid
  rw [Defined, ← hids, Cyclic, ← hr]
  exact ⟨hd, hc⟩

theorem Fault.not_sound {e : GraphError} (h : d.Fault e) : ¬ d.Sound := by
  intro hs
  cases h with
  | cyclic hr hc => exact (hs _ hr).2 hc
  | dangling hr hg hd => exact hd (hs _ (hr.tail hg)).1

theorem checkReferences_succeeds : (∃ reached, d.checkReferences = .ok reached) ↔ d.Sound := by
  constructor
  · rintro ⟨reached, h⟩ g hg
    obtain ⟨hs, hm⟩ := checkReferences_ok h
    exact ⟨hs.defined g ((hm g).2 hg), hs.acyclic g ((hm g).2 hg)⟩
  · intro hs
    cases h : d.checkReferences with
    | ok reached => exact ⟨reached, rfl⟩
    | error e => exact absurd hs (checkReferences_error h).not_sound

end Document

end AtomLines.Rdf
