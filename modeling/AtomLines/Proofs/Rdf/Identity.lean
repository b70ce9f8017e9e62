import AtomLines.Proofs.Keyed
import AtomLines.Proofs.Rdf.Numbering
import AtomLines.Rdf.Registry
/-!
# Calls on a table of ids

Whatever the calls on a new table are, a graph that has an emitted id keeps it and no
other graph gets the same one. Each call touches the state of one graph. A table in
which a counter hands out the ids answers every call in the same way.
-/

namespace AtomLines.Rdf

/-- A call that may change a table of ids. -/
inductive Call where
  | resolve (source : GraphId)
  | markFlattened (source : GraphId)
deriving DecidableEq

def Call.source : Call → GraphId
  | resolve source | markFlattened source => source

/-- What one call may do to the state of a graph. -/
inductive GraphState.Moves : Option GraphState → Option GraphState → Prop where
  | stays (state : Option GraphState) : Moves state state
  | allocated (id : GraphId) : Moves none (some (.allocated id))
  | flattened (id : GraphId) : Moves (some (.allocated id)) (some (.flattened id))

theorem GraphState.Moves.keeps_id {state : GraphState} {next : Option GraphState} (h : Moves (some state) next) :
    ∃ state', next = some state' ∧ state'.id = state.id := by
  cases h with
  | stays => exact ⟨_, rfl, rfl⟩
  | flattened => exact ⟨_, rfl, rfl⟩

namespace Identities

variable {ids : Identities} {g a : GraphId}

/-! ## States -/

theorem state?_eq_none : ids.state? g = none ↔ g ∉ ids.order := by
  by_cases h : g ∈ ids.order
  · simp [state?_of_mem h, h]
  · simp [state?_of_notMem h, h]

theorem map_id_state? (h : g ∈ ids.order) : (ids.state? g).map GraphState.id = some (ids.rename g) := by
  rw [state?_of_mem h, Option.map_some]
  split <;> rfl

/-- A graph with a state has its number as its id. -/
theorem id_of_state? {state : GraphState} (h : ids.state? g = some state) :
    g ∈ ids.order ∧ state.id = ids.rename g := by
  have hm : g ∈ ids.order := by
    by_contra hn
    rw [state?_of_notMem hn] at h
    cases h
  have hi := map_id_state? hm
  rw [h] at hi
  exact ⟨hm, Option.some.inj hi⟩

theorem exists_state? (h : g ∈ ids.order) : ∃ state, ids.state? g = some state ∧ state.id = ids.rename g :=
  Option.map_eq_some_iff.1 (map_id_state? h)

/-! ## One call -/

theorem resolve_of_mem (h : g ∈ ids.order) : ids.resolve g = (ids.rename g, false, ids) := by
  rw [resolve, emitted?_of_mem h, rename_of_mem h]

theorem resolve_of_notMem (h : g ∉ ids.order) :
    ids.resolve g = (UInt64.ofNat ids.order.length, true, ids.meet g) := by
  rw [meet, resolve, emitted?_of_notMem h]

def call (ids : Identities) : Call → Identities
  | .resolve g => ids.meet g
  | .markFlattened g => ids.markFlattened g

/-- What a table keeps under all calls: it is ordered, and only graphs with an id are
written out. -/
structure Coherent (ids : Identities) : Prop extends Ordered ids where
  flattened_mem : ∀ g ∈ ids.flattened, g ∈ ids.order

theorem Coherent.start : Coherent start := ⟨.start, by simp [Identities.start]⟩

theorem Coherent.call (h : ids.Coherent) (c : Call) : (ids.call c).Coherent := by
  cases c with
  | resolve g =>
    refine ⟨h.toOrdered.meetAll [g], ?_⟩
    intro a ha
    rw [Identities.call, flattened_meet] at ha
    exact (extends_meet ids g).mem (h.flattened_mem a ha)
  | markFlattened g =>
    refine ⟨h.toOrdered.of_order_eq (order_markFlattened ids g), ?_⟩
    rw [Identities.call, order_markFlattened]
    by_cases hg : g ∈ ids.order
    · rw [flattened_markFlattened hg]
      exact List.forall_mem_cons.2 ⟨hg, h.flattened_mem⟩
    · rw [markFlattened_of_notMem hg]
      exact h.flattened_mem

theorem Coherent.state?_meet (h : ids.Coherent) (hg : g ∉ ids.order) :
    (ids.meet g).state? g = some (.allocated (UInt64.ofNat ids.order.length)) := by
  have hm : g ∈ (ids.meet g).order := mem_order_meet.2 (.inr rfl)
  have hf : g ∉ (ids.meet g).flattened := by
    rw [flattened_meet]
    exact mt (h.flattened_mem g) hg
  rw [state?_of_mem hm, if_neg hf, ← resolve_fst, resolve_of_notMem hg]

theorem state?_meet_of_ne (hn : a ≠ g) : (ids.meet g).state? a = ids.state? a := by
  by_cases ha : a ∈ ids.order
  · have he := extends_meet ids g
    rw [state?_of_mem ha, state?_of_mem (he.mem ha), flattened_meet, he.rename_eq ha]
  · have ha' : a ∉ (ids.meet g).order := by simp [mem_order_meet, ha, hn]
    rw [state?_of_notMem ha, state?_of_notMem ha']

theorem state?_markFlattened (h : g ∈ ids.order) :
    (ids.markFlattened g).state? g = some (.flattened (ids.rename g)) := by
  have hf : g ∈ (ids.markFlattened g).flattened := by
    rw [flattened_markFlattened h]
    exact List.mem_cons_self
  rw [state?_of_mem (by simpa using h), if_pos hf, rename_markFlattened]

theorem state?_markFlattened_of_ne (hn : a ≠ g) : (ids.markFlattened g).state? a = ids.state? a := by
  rw [markFlattened]
  split
  · simp [state?, emitted?, hn]
  · rfl

theorem state?_call_of_ne {c : Call} (hn : a ≠ c.source) : (ids.call c).state? a = ids.state? a := by
  cases c with
  | resolve g => exact state?_meet_of_ne hn
  | markFlattened g => exact state?_markFlattened_of_ne hn

theorem Coherent.moves (h : ids.Coherent) (c : Call) (a : GraphId) :
    GraphState.Moves (ids.state? a) ((ids.call c).state? a) := by
  by_cases hn : a = c.source
  · subst hn
    cases c with
    | resolve g =>
      by_cases hg : g ∈ ids.order
      · rw [Identities.call, meet_of_mem hg]
        exact .stays _
      · rw [Identities.call, Call.source, h.state?_meet hg, state?_of_notMem hg]
        exact .allocated _
    | markFlattened g =>
      by_cases hg : g ∈ ids.order
      · rw [Identities.call, Call.source, state?_markFlattened hg, state?_of_mem hg]
        split
        · exact .stays _
        · exact .flattened _
      · rw [Identities.call, markFlattened_of_notMem hg]
        exact .stays _
  · rw [state?_call_of_ne hn]
    exact .stays _

/-! ## A run of calls -/

def callAll (ids : Identities) (calls : List Call) : Identities := calls.foldl call ids

/-- The table after calls on a new one. -/
def after (calls : List Call) : Identities := start.callAll calls

theorem callAll_append (ids : Identities) (calls more : List Call) :
    ids.callAll (calls ++ more) = (ids.callAll calls).callAll more := List.foldl_append

theorem Coherent.callAll (h : ids.Coherent) (calls : List Call) : (ids.callAll calls).Coherent := by
  induction calls generalizing ids with
  | nil => exact h
  | cons c calls ih => exact ih (h.call c)

theorem Coherent.after (calls : List Call) : (after calls).Coherent := Coherent.start.callAll calls

/-- A graph that has a state keeps its id under all calls. -/
theorem Coherent.keeps_id (h : ids.Coherent) {state : GraphState} (hs : ids.state? g = some state)
    (calls : List Call) : ∃ state', (ids.callAll calls).state? g = some state' ∧ state'.id = state.id := by
  induction calls generalizing ids state with
  | nil => exact ⟨state, hs, rfl⟩
  | cons c calls ih =>
    obtain ⟨next, hn, hi⟩ := GraphState.Moves.keeps_id (hs ▸ h.moves c g)
    obtain ⟨state', hs', hi'⟩ := ih (h.call c) hn
    exact ⟨state', hs', hi'.trans hi⟩

/-- The graphs with an id are those that had one and those that were resolved. -/
theorem mem_order_callAll {calls : List Call} :
    a ∈ (ids.callAll calls).order ↔ a ∈ ids.order ∨ .resolve a ∈ calls := by
  induction calls generalizing ids with
  | nil => simp [callAll]
  | cons c calls ih =>
    rw [callAll, List.foldl_cons, ← callAll, ih, List.mem_cons]
    cases c with
    | resolve g => rw [call, mem_order_meet, Call.resolve.injEq, or_assoc]
    | markFlattened g => simp [call]

/-! ## Fresh ids -/

/-- The id that a call hands out. -/
def fresh? (ids : Identities) : Call → Option GraphId
  | .resolve g => if (ids.resolve g).2.1 then some (ids.resolve g).1 else none
  | .markFlattened _ => none

/-- The ids that calls hand out, one after another. -/
def freshIds (ids : Identities) : List Call → List GraphId
  | [] => []
  | c :: calls => (ids.fresh? c).toList ++ (ids.call c).freshIds calls

theorem fresh?_cases (ids : Identities) (c : Call) :
    ids.fresh? c = none ∧ (ids.call c).order.length = ids.order.length ∨
      ids.fresh? c = some (UInt64.ofNat ids.order.length) ∧ (ids.call c).order.length = ids.order.length + 1 := by
  cases c with
  | resolve g =>
    by_cases hg : g ∈ ids.order
    · refine .inl ⟨by simp [fresh?, resolve_of_mem hg], ?_⟩
      rw [call, meet_of_mem hg]
    · refine .inr ⟨by simp [fresh?, resolve_of_notMem hg], ?_⟩
      rw [call, order_meet_of_notMem hg, List.length_append, List.length_singleton]
  | markFlattened g => exact .inl ⟨rfl, by rw [call, order_markFlattened]⟩

/-- Calls hand out the numbers that follow the last one in use. -/
theorem freshIds_eq (ids : Identities) (calls : List Call) :
    ∃ n, (ids.callAll calls).order.length = ids.order.length + n ∧
      ids.freshIds calls = (List.range' ids.order.length n).map UInt64.ofNat := by
  induction calls generalizing ids with
  | nil => exact ⟨0, rfl, rfl⟩
  | cons c calls ih =>
    obtain ⟨n, hl, hf⟩ := ih (ids.call c)
    rw [callAll, List.foldl_cons, ← callAll, freshIds, hl, hf]
    rcases ids.fresh?_cases c with ⟨hc, ho⟩ | ⟨hc, ho⟩
    · exact ⟨n, by rw [ho], by rw [hc, ho]; rfl⟩
    · exact ⟨n + 1, by omega, by rw [hc, ho, List.range'_succ]; rfl⟩

/-- Only the asserted graph has an id that no call has handed out. -/
theorem length_order_after (calls : List Call) : (after calls).order.length = (start.freshIds calls).length + 1 := by
  obtain ⟨n, hl, hf⟩ := start.freshIds_eq calls
  rw [after, hl, hf, List.length_map, List.length_range', Nat.add_comm]
  rfl

theorem length_freshIds_lt (calls : List Call) : (start.freshIds calls).length < 2 ^ 64 := by
  rw [← Nat.succ_le_iff, Nat.succ_eq_add_one, ← length_order_after]
  exact length_le_of_nodup (Coherent.after calls).nodup

theorem map_toNat_freshIds (calls : List Call) :
    (start.freshIds calls).map UInt64.toNat = List.range' 1 (start.freshIds calls).length := by
  have hlt := length_freshIds_lt calls
  obtain ⟨n, -, hf⟩ := start.freshIds_eq calls
  rw [hf, List.length_map, List.length_range'] at hlt ⊢
  rw [List.map_map]
  refine (List.map_congr_left fun k hk => ?_).trans (List.map_id _)
  have hk' : k < 1 + n := (List.mem_range'_1.1 hk).2
  rw [Function.comp_apply, UInt64.toNat_ofNat', Nat.mod_eq_of_lt (by omega)]
  rfl

/-! ## Assignments -/

theorem Ordered.mem_assignments (h : ids.Ordered) {id : GraphId} :
    (g, id) ∈ ids.assignments ↔ ∃ state, ids.state? g = some state ∧ state.id = id := by
  rw [h.assignments_eq, List.mem_map]
  constructor
  · rintro ⟨a, ha, he⟩
    cases he
    exact exists_state? ha
  · rintro ⟨state, hs, rfl⟩
    obtain ⟨hg, hi⟩ := id_of_state? hs
    exact ⟨g, hg, by rw [hi]⟩

theorem Ordered.nodup_assignments (h : ids.Ordered) : (ids.assignments.map Prod.fst).Nodup := by
  rw [h.assignments_eq, List.map_map]
  exact (List.map_id ids.order).symm ▸ h.nodup

theorem Ordered.ascending_assignments (h : ids.Ordered) : (ids.assignments.map Prod.snd).Pairwise (· < ·) := by
  have hr : (ids.order.map fun g => (ids.rename g).toNat).Pairwise (· < ·) := by
    rw [h.map_toNat_rename]
    exact List.pairwise_lt_range
  rw [h.assignments_eq, List.map_map, List.pairwise_map]
  exact (List.pairwise_map.1 hr).imp UInt64.lt_iff_toNat_lt.2

end Identities

/-! ## Ids from a counter -/

namespace Registry

variable {r : Registry} {ids : Identities}

def call (r : Registry) : Call → Registry
  | .resolve g => (r.resolve g).2.2
  | .markFlattened g => r.markFlattened g

def callAll (r : Registry) (calls : List Call) : Registry := calls.foldl call r

/-- Both tables have the same graphs in the same order and the same states. -/
structure Agrees (r : Registry) (ids : Identities) : Prop where
  /-- The counter is one behind the last id, and 0 again once every graph has an id. -/
  counter : r.counter.next = UInt64.ofNat ids.order.length
  state? : ∀ g, r.state? g = ids.state? g
  order : r.order = ids.order

theorem Agrees.start : start.Agrees .start where
  counter := rfl
  state? g := by
    by_cases hg : g = .top
    · subst hg
      rfl
    · rw [Identities.state?_of_notMem (by simpa [Identities.start] using hg), Registry.state?, Registry.start,
        Keyed.get?, if_neg (Ne.symm hg), Keyed.get?]
  order := rfl

/-- The states after a store under one graph, where the others keep theirs. -/
theorem get?_put_states {ids' : Identities} {g : GraphId} {state : GraphState} (h : ∀ a, r.state? a = ids.state? a)
    (hs : ids'.state? g = some state) (hn : ∀ a, a ≠ g → ids'.state? a = ids.state? a) (a : GraphId) :
    Keyed.get? a (Keyed.put g state r.states) = ids'.state? a := by
  by_cases ha : a = g
  · subst ha
    rw [Keyed.get?_put_self, hs]
  · rw [Keyed.get?_put_of_ne (Ne.symm ha), hn a ha, ← h]
    rfl

/-- A counter answers as the place in the order does. -/
theorem Agrees.resolve (h : r.Agrees ids) (hc : ids.Coherent) (g : GraphId) :
    ∃ r', r.resolve g = ((ids.resolve g).1, (ids.resolve g).2.1, r') ∧ r'.Agrees (ids.meet g) := by
  rw [Registry.resolve, h.state?]
  by_cases hg : g ∈ ids.order
  · obtain ⟨state, hs, hi⟩ := Identities.exists_state? hg
    rw [hs, Identities.resolve_of_mem hg, Identities.meet_of_mem hg]
    exact ⟨r, by rw [← hi], h⟩
  · rw [Identities.state?_of_notMem hg, Identities.resolve_of_notMem hg]
    -- The counter is one behind the last id, so it hands out the length of the order.
    refine ⟨_, by rw [← h.counter]; rfl, ?_⟩
    exact {
      counter := by
        rw [Identities.order_meet_of_notMem hg, List.length_append, List.length_singleton, UInt64.ofNat_add,
          ← h.counter]
        rfl
      state? := get?_put_states h.state? (h.counter ▸ hc.state?_meet hg) fun _ => Identities.state?_meet_of_ne
      order := by rw [Identities.order_meet_of_notMem hg, ← h.order] }

theorem Agrees.markFlattened (h : r.Agrees ids) (g : GraphId) :
    (r.markFlattened g).Agrees (ids.markFlattened g) := by
  have ho := Identities.order_markFlattened ids g
  rw [Registry.markFlattened, h.state?]
  by_cases hg : g ∈ ids.order
  · obtain ⟨state, hs, hi⟩ := Identities.exists_state? hg
    rw [hs]
    refine ⟨ho ▸ h.counter, ?_, ho ▸ h.order⟩
    exact get?_put_states h.state? (hi ▸ Identities.state?_markFlattened hg) fun _ => Identities.state?_markFlattened_of_ne
  · rw [Identities.state?_of_notMem hg, Identities.markFlattened_of_notMem hg]
    exact h

theorem Agrees.callAll (h : r.Agrees ids) (hc : ids.Coherent) (calls : List Call) :
    (r.callAll calls).Agrees (ids.callAll calls) := by
  induction calls generalizing r ids with
  | nil => exact h
  | cons c calls ih =>
    refine ih ?_ (hc.call c)
    cases c with
    | resolve g =>
      obtain ⟨r', hr, h'⟩ := h.resolve hc g
      rw [call, hr]
      exact h'
    | markFlattened g => exact h.markFlattened g

theorem Agrees.assignments (h : r.Agrees ids) (ho : ids.Ordered) : r.assignments = ids.assignments := by
  rw [Registry.assignments, h.order, ho.assignments_eq, ← List.filterMap_eq_map]
  refine List.filterMap_congr fun g hg => ?_
  obtain ⟨state, hs, hi⟩ := Identities.exists_state? hg
  rw [h.state?, hs, Option.map_some, hi]
  rfl

end Registry

/-! ## All runs -/

namespace Identities

/-- What holds of a table after calls on a new one. -/
structure History (calls : List Call) : Prop where
  top : ∃ state, (after calls).state? .top = some state ∧ state.id = .top
  /-- The ids handed out are 1, 2, 3 and so on. -/
  numbered : (start.freshIds calls).map UInt64.toNat = List.range' 1 (start.freshIds calls).length
  bounded : (start.freshIds calls).length < 2 ^ 64
  /-- A call hands out an id for a graph without state, and that is its id from then on. -/
  fresh : ∀ g, (after calls).state? g = none →
    (after calls).fresh? (.resolve g) = some ((after calls).resolve g).1 ∧
      ((after calls).call (.resolve g)).state? g = some (.allocated ((after calls).resolve g).1)
  /-- Any other graph is answered with the id that it has, and nothing changes. -/
  known : ∀ g state, (after calls).state? g = some state → (after calls).resolve g = (state.id, false, after calls)
  unseen : ∀ g, (after calls).state? g = none ↔ g ≠ .top ∧ .resolve g ∉ calls
  distinct : ∀ a b state state', (after calls).state? a = some state → (after calls).state? b = some state' →
    state.id = state'.id → a = b
  keeps : ∀ g state more, (after calls).state? g = some state →
    ∃ state', (after (calls ++ more)).state? g = some state' ∧ state'.id = state.id
  moves : ∀ c g, GraphState.Moves ((after calls).state? g) (((after calls).call c).state? g)
  others : ∀ c g, g ≠ c.source → ((after calls).call c).state? g = (after calls).state? g
  marked : ∀ g state, (after calls).state? g = some state →
    ((after calls).markFlattened g).state? g = some (.flattened state.id)
  unmarked : ∀ g, (after calls).state? g = none → (after calls).markFlattened g = after calls
  assigned : ∀ g id, (g, id) ∈ (after calls).assignments ↔ ∃ state, (after calls).state? g = some state ∧ state.id = id
  assignedOnce : ((after calls).assignments.map Prod.fst).Nodup
  ascending : ((after calls).assignments.map Prod.snd).Pairwise (· < ·)
  /-- A counter, a map of states and an order give the same answers. -/
  counted : ∀ g, (Registry.start.callAll calls).state? g = (after calls).state? g ∧
    ((Registry.start.callAll calls).resolve g).1 = ((after calls).resolve g).1 ∧
      ((Registry.start.callAll calls).resolve g).2.1 = ((after calls).resolve g).2.1
  countedAssignments : (Registry.start.callAll calls).assignments = (after calls).assignments

/-- Whatever is called on a new table, ids are handed out as 1, 2, 3 and so on, a graph
keeps the one that it was given, and no two graphs share one. -/
theorem ids_stay_and_differ (calls : List Call) : History calls := by
  have h := Coherent.after calls
  have ha : (Registry.start.callAll calls).Agrees (after calls) := Registry.Agrees.start.callAll .start calls
  exact {
    top := by
      obtain ⟨state, hs, hi⟩ := exists_state? h.top_mem
      exact ⟨state, hs, hi.trans h.rename_top⟩
    numbered := map_toNat_freshIds calls
    bounded := length_freshIds_lt calls
    fresh := by
      intro g hg
      have hm := state?_eq_none.1 hg
      refine ⟨by simp [fresh?, resolve_of_notMem hm], ?_⟩
      rw [call, h.state?_meet hm, resolve_of_notMem hm]
    known := by
      intro g state hs
      obtain ⟨hm, hi⟩ := id_of_state? hs
      rw [resolve_of_mem hm, hi]
    unseen := by
      intro g
      rw [state?_eq_none, after, mem_order_callAll, not_or]
      simp [start]
    distinct := by
      intro a b state state' hs hs' he
      obtain ⟨hm, hi⟩ := id_of_state? hs
      obtain ⟨hm', hi'⟩ := id_of_state? hs'
      exact h.rename_inj hm hm' (by rw [← hi, ← hi', he])
    keeps := by
      intro g state more hs
      rw [after, callAll_append]
      exact h.keeps_id hs more
    moves := h.moves
    others := fun c g hn => state?_call_of_ne hn
    marked := by
      intro g state hs
      obtain ⟨hm, hi⟩ := id_of_state? hs
      rw [state?_markFlattened hm, hi]
    unmarked := fun g hg => markFlattened_of_notMem (state?_eq_none.1 hg)
    assigned := fun g id => h.toOrdered.mem_assignments
    assignedOnce := h.toOrdered.nodup_assignments
    ascending := h.toOrdered.ascending_assignments
    counted := by
      intro g
      obtain ⟨r', hr, -⟩ := ha.resolve h g
      exact ⟨ha.state? g, by rw [hr], by rw [hr]⟩
    countedAssignments := ha.assignments h.toOrdered }

example : (after [.resolve 30, .markFlattened 7, .resolve 10, .markFlattened 30, .resolve 30]).assignments =
    [(0, 0), (30, 1), (10, 2)] := by decide

end Identities

end AtomLines.Rdf
