import AtomLines.Rdf.Flatten
import Mathlib.Data.FinEnum
/-!
# The numbers of graphs

The order of a table of ids only grows at its end, so the number of a graph never
changes once it has one. In an order without repetition different graphs have
different numbers.
-/

namespace AtomLines.Rdf

theorem idxOf?_of_mem {g : GraphId} {order : List GraphId} (h : g ∈ order) :
    order.idxOf? g = some (order.idxOf g) := by
  induction order with
  | nil => cases h
  | cons a order ih =>
    rw [List.idxOf?_cons, List.idxOf_cons]
    by_cases ha : a = g
    · simp [ha]
    · have hm : g ∈ order := (List.mem_cons.1 h).resolve_left (Ne.symm ha)
      have hb : (a == g) = false := by simpa using ha
      simp [hb, ih hm]

/-- Ids without repetition are no more than there are ids. -/
theorem length_le_of_nodup {order : List GraphId} (h : order.Nodup) : order.length ≤ 2 ^ 64 := by
  have hc : Fintype.card GraphId = 2 ^ 64 := FinEnum.card_eq_fintypeCard.symm
  exact hc ▸ h.length_le_card

namespace Identities

/-! ## Numbers that stay -/

theorem emitted?_of_mem {ids : Identities} {g : GraphId} (h : g ∈ ids.order) :
    ids.emitted? g = some (UInt64.ofNat (ids.order.idxOf g)) := by
  rw [emitted?, idxOf?_of_mem h, Option.map_some]

theorem emitted?_of_notMem {ids : Identities} {g : GraphId} (h : g ∉ ids.order) : ids.emitted? g = none := by
  rw [emitted?, List.idxOf?_eq_none_iff.2 h, Option.map_none]

theorem rename_of_mem {ids : Identities} {g : GraphId} (h : g ∈ ids.order) :
    ids.rename g = UInt64.ofNat (ids.order.idxOf g) := by
  rw [rename, emitted?_of_mem h, Option.getD_some]

theorem state?_of_mem {ids : Identities} {g : GraphId} (h : g ∈ ids.order) :
    ids.state? g = some (if g ∈ ids.flattened then .flattened (ids.rename g) else .allocated (ids.rename g)) := by
  rw [state?, emitted?_of_mem h, Option.map_some, rename_of_mem h]

theorem state?_of_notMem {ids : Identities} {g : GraphId} (h : g ∉ ids.order) : ids.state? g = none := by
  rw [state?, emitted?_of_notMem h, Option.map_none]

/-- The second order goes on where the first one ends. -/
def Extends (ids ids' : Identities) : Prop := ids.order <+: ids'.order

theorem Extends.refl (ids : Identities) : Extends ids ids := List.prefix_rfl

theorem Extends.trans {ids ids' ids'' : Identities} (h : Extends ids ids') (h' : Extends ids' ids'') :
    Extends ids ids'' := List.IsPrefix.trans h h'

theorem Extends.mem {ids ids' : Identities} (h : Extends ids ids') {g : GraphId} (hg : g ∈ ids.order) :
    g ∈ ids'.order := List.IsPrefix.subset h hg

theorem Extends.rename_eq {ids ids' : Identities} (h : Extends ids ids') {g : GraphId} (hg : g ∈ ids.order) :
    ids'.rename g = ids.rename g := by
  obtain ⟨more, hm⟩ := h
  rw [rename_of_mem hg, rename_of_mem (hm ▸ List.mem_append_left _ hg), ← hm, List.idxOf_append_of_mem hg]

/-! ## References met in order -/

/-- The table after a reference to a graph. -/
def meet (ids : Identities) (g : GraphId) : Identities := (ids.resolve g).2.2

def meetAll (ids : Identities) (references : List GraphId) : Identities := references.foldl meet ids

theorem meet_of_mem {ids : Identities} {g : GraphId} (h : g ∈ ids.order) : ids.meet g = ids := by
  rw [meet, resolve, emitted?_of_mem h]

theorem order_meet_of_notMem {ids : Identities} {g : GraphId} (h : g ∉ ids.order) :
    (ids.meet g).order = ids.order ++ [g] := by
  rw [meet, resolve, emitted?_of_notMem h]

theorem flattened_meet (ids : Identities) (g : GraphId) : (ids.meet g).flattened = ids.flattened := by
  rw [meet, resolve]
  split <;> rfl

theorem mem_order_meet {ids : Identities} {g a : GraphId} : a ∈ (ids.meet g).order ↔ a ∈ ids.order ∨ a = g := by
  by_cases h : g ∈ ids.order
  · rw [meet_of_mem h]
    constructor
    · exact .inl
    · rintro (ha | rfl)
      · exact ha
      · exact h
  · rw [order_meet_of_notMem h]
    simp

theorem extends_meet (ids : Identities) (g : GraphId) : Extends ids (ids.meet g) := by
  by_cases h : g ∈ ids.order
  · rw [meet_of_mem h]
    exact .refl _
  · rw [Extends, order_meet_of_notMem h]
    exact List.prefix_append ..

/-- The number that a reference is written with is the one that the graph keeps. -/
theorem resolve_fst (ids : Identities) (g : GraphId) : (ids.resolve g).1 = (ids.meet g).rename g := by
  by_cases h : g ∈ ids.order
  · rw [meet_of_mem h, rename_of_mem h, resolve, emitted?_of_mem h]
  · have hm : g ∈ (ids.meet g).order := mem_order_meet.2 (.inr rfl)
    rw [rename_of_mem hm, order_meet_of_notMem h, List.idxOf_append_of_notMem h, resolve, emitted?_of_notMem h]
    simp

theorem meetAll_append (ids : Identities) (as bs : List GraphId) :
    ids.meetAll (as ++ bs) = (ids.meetAll as).meetAll bs := List.foldl_append

theorem mem_order_meetAll {ids : Identities} {references : List GraphId} {a : GraphId} :
    a ∈ (ids.meetAll references).order ↔ a ∈ ids.order ∨ a ∈ references := by
  induction references generalizing ids with
  | nil => simp [meetAll]
  | cons g references ih =>
    rw [meetAll, List.foldl_cons, ← meetAll, ih, mem_order_meet, List.mem_cons, or_assoc]

theorem flattened_meetAll (ids : Identities) (references : List GraphId) :
    (ids.meetAll references).flattened = ids.flattened := by
  induction references generalizing ids with
  | nil => rfl
  | cons g references ih => rw [meetAll, List.foldl_cons, ← meetAll, ih, flattened_meet]

theorem extends_meetAll (ids : Identities) (references : List GraphId) : Extends ids (ids.meetAll references) := by
  induction references generalizing ids with
  | nil => exact .refl _
  | cons g references ih => exact (extends_meet ids g).trans (ih _)

theorem nodup_meetAll {ids : Identities} (h : ids.order.Nodup) (references : List GraphId) :
    (ids.meetAll references).order.Nodup := by
  induction references generalizing ids with
  | nil => exact h
  | cons g references ih =>
    refine ih ?_
    by_cases hm : g ∈ ids.order
    · rwa [meet_of_mem hm]
    · rw [order_meet_of_notMem hm, List.nodup_append]
      refine ⟨h, List.nodup_singleton g, ?_⟩
      rintro a ha b hb rfl
      exact hm (List.mem_singleton.1 hb ▸ ha)

/-! ## Graphs written out -/

@[simp]
theorem order_markFlattened (ids : Identities) (g : GraphId) : (ids.markFlattened g).order = ids.order := by
  rw [markFlattened]
  split <;> rfl

theorem markFlattened_of_notMem {ids : Identities} {g : GraphId} (h : g ∉ ids.order) : ids.markFlattened g = ids := by
  rw [markFlattened, if_neg h]

theorem flattened_markFlattened {ids : Identities} {g : GraphId} (h : g ∈ ids.order) :
    (ids.markFlattened g).flattened = g :: ids.flattened := by
  rw [markFlattened, if_pos h]

@[simp]
theorem rename_markFlattened (ids : Identities) (g a : GraphId) : (ids.markFlattened g).rename a = ids.rename a := by
  rw [rename, emitted?, order_markFlattened, rename, emitted?]

/-! ## Distinct numbers -/

/-- The asserted graph comes first and no graph twice. -/
structure Ordered (ids : Identities) : Prop where
  top : ids.order.head? = some .top
  nodup : ids.order.Nodup

theorem Ordered.start : Ordered start := ⟨rfl, by simp [Identities.start]⟩

theorem Ordered.of_order_eq {ids ids' : Identities} (h : ids.Ordered) (he : ids'.order = ids.order) : ids'.Ordered :=
  ⟨he ▸ h.top, he ▸ h.nodup⟩

theorem Ordered.meetAll {ids : Identities} (h : ids.Ordered) (references : List GraphId) :
    (ids.meetAll references).Ordered := by
  obtain ⟨more, hm⟩ := extends_meetAll ids references
  refine ⟨?_, nodup_meetAll h.nodup references⟩
  rw [← hm, List.head?_append, h.top, Option.some_or]

theorem Ordered.top_mem {ids : Identities} (h : ids.Ordered) : GraphId.top ∈ ids.order :=
  List.mem_of_mem_head? h.top

theorem Ordered.idxOf_lt {ids : Identities} (h : ids.Ordered) {g : GraphId} (hg : g ∈ ids.order) :
    ids.order.idxOf g < 2 ^ 64 :=
  Nat.lt_of_lt_of_le (List.idxOf_lt_length_of_mem hg) (length_le_of_nodup h.nodup)

theorem Ordered.toNat_rename {ids : Identities} (h : ids.Ordered) {g : GraphId} (hg : g ∈ ids.order) :
    (ids.rename g).toNat = ids.order.idxOf g := by
  rw [rename_of_mem hg, UInt64.toNat_ofNat', Nat.mod_eq_of_lt (h.idxOf_lt hg)]

/-- The numbers of an order are its places. -/
theorem Ordered.map_toNat_rename {ids : Identities} (h : ids.Ordered) :
    ids.order.map (fun g => (ids.rename g).toNat) = List.range ids.order.length := by
  refine List.ext_getElem (by simp) fun k hk _ => ?_
  have hl : k < ids.order.length := by simpa using hk
  rw [List.getElem_map, h.toNat_rename (List.getElem_mem hl), h.nodup.idxOf_getElem, List.getElem_range]

theorem Ordered.rename_inj {ids : Identities} (h : ids.Ordered) {a b : GraphId} (ha : a ∈ ids.order)
    (hb : b ∈ ids.order) (e : ids.rename a = ids.rename b) : a = b := by
  have hi : ids.order.idxOf a = ids.order.idxOf b := by
    rw [← h.toNat_rename ha, ← h.toNat_rename hb, e]
  exact (List.idxOf_inj ha).1 hi

theorem Ordered.rename_top {ids : Identities} (h : ids.Ordered) : ids.rename .top = .top := by
  obtain ⟨rest, hr⟩ := List.head?_eq_some_iff.1 h.top
  rw [rename_of_mem h.top_mem, hr, List.idxOf_cons_self]
  rfl

theorem Ordered.rename_eq_top {ids : Identities} (h : ids.Ordered) {g : GraphId} (hg : g ∈ ids.order) :
    ids.rename g = .top ↔ g = .top := by
  constructor
  · intro e
    exact h.rename_inj hg h.top_mem (e.trans h.rename_top.symm)
  · rintro rfl
    exact h.rename_top

theorem Ordered.assignments_eq {ids : Identities} (h : ids.Ordered) :
    ids.assignments = ids.order.map fun g => (g, ids.rename g) := by
  refine List.ext_getElem (by simp [assignments]) ?_
  intro k hk hk'
  have hl : k < ids.order.length := by simpa using hk'
  simp only [assignments, List.getElem_map, List.getElem_zipIdx, Nat.zero_add]
  rw [rename_of_mem (List.getElem_mem hl), h.nodup.idxOf_getElem]

end Identities

end AtomLines.Rdf
