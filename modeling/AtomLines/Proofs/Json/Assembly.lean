import AtomLines.Proofs.Json.Leaves
import AtomLines.Proofs.Keyed
/-!
# Trees from leaves

Inserting the spots of a value into a vacant slot builds the tree `Value.slot`, and
the value of that tree is the settled value. Both containers are filled one part at
a time: the leaves of a part all go to its own place.
-/

namespace AtomLines.Json

mutual

/-- The tree that holds the leaves of a value, as they settle. -/
def Value.slot : Value → Slot
  | .scalar s => .leaf (Value.scalar s).settle
  | .sequence items => if items.isEmpty then .leaf (.sequence []) else .sequence (itemSlots 0 items)
  | .mapping entries => if entries.isEmpty then .leaf (.mapping []) else .mapping (entrySlots entries)

def itemSlots (next : Nat) : List Value → List (Nat × Slot)
  | [] => []
  | v :: rest => (next, v.slot) :: itemSlots (next + 1) rest

def entrySlots : List (String × Value) → List (String × Slot)
  | [] => []
  | (k, v) :: rest => (k, v.slot) :: entrySlots rest

end

/-! ## Every value has a leaf -/

theorem into_ne_nil {a : Access} {s : List (List Access × Value)} (h : s ≠ []) : into a s ≠ [] := by
  simpa [into] using h

theorem Value.spots_ne_nil (v : Value) : v.spots ≠ [] := by
  induction v using Value.induct with
  | scalar s => simp [spots]
  | sequence items ih =>
    rw [spots]
    cases items with
    | nil => simp
    | cons v items =>
      rw [if_neg (by simp), itemSpots]
      exact List.append_ne_nil_of_left_ne_nil (into_ne_nil (ih v (by simp))) _
  | mapping entries ih =>
    rw [spots]
    cases entries with
    | nil => simp
    | cons e entries =>
      rw [if_neg (by simp), entrySpots]
      exact List.append_ne_nil_of_left_ne_nil (into_ne_nil (ih e (by simp))) _

/-! ## Insertion in one place -/

namespace Slot

/-- Puts leaves where their moves lead, one after the other. -/
def insertAll (spots : List (List Access × Value)) (root : Slot) : Except Clash Slot :=
  spots.foldlM (fun root s => root.insert s.2 s.1) root

/-- A slot that is used as a mapping; without entries it is vacant. -/
def ofEntries (entries : List (String × Slot)) : Slot :=
  if entries.isEmpty then vacant else mapping entries

/-- A slot that is used as a sequence; without items it is vacant. -/
def ofItems (items : List (Nat × Slot)) : Slot :=
  if items.isEmpty then vacant else sequence items

theorem insert_key (v : Value) (k : String) (as : List Access) (entries : List (String × Slot)) :
    insert v (.key k :: as) (ofEntries entries) =
      (insert v as ((Keyed.get? k entries).getD vacant)).map fun s => ofEntries (Keyed.put k s entries) := by
  cases entries with
  | nil => rfl
  | cons e rest =>
    have hn : ∀ s, (Keyed.put k s (e :: rest)).isEmpty = false := by
      intro s
      rw [Keyed.put]
      split <;> rfl
    simp [ofEntries, insert, hn]

theorem insert_index (v : Value) (i : Nat) (as : List Access) (items : List (Nat × Slot)) :
    insert v (.index i :: as) (ofItems items) =
      (insert v as ((Keyed.get? i items).getD vacant)).map fun s => ofItems (Keyed.putIndex i s items) := by
  cases items with
  | nil => rfl
  | cons e rest =>
    have hn : ∀ s, (Keyed.putIndex i s (e :: rest)).isEmpty = false := by
      intro s
      rw [Keyed.putIndex]
      split
      · rfl
      · split <;> rfl
    simp [ofItems, insert, hn]

theorem insertAll_key {spots : List (List Access × Value)} (hn : spots ≠ []) {k : String}
    {entries : List (String × Slot)} {s : Slot} (h : insertAll spots ((Keyed.get? k entries).getD vacant) = .ok s) :
    insertAll (into (.key k) spots) (ofEntries entries) = .ok (ofEntries (Keyed.put k s entries)) := by
  refine foldlM_place (fun es => (Keyed.get? k es).getD vacant) (Keyed.put k) ofEntries ?_ ?_ ?_ hn h
  · intro es spot t ht
    rw [insert_key, ht]
    rfl
  · intro t es
    simp [Keyed.get?_put_self]
  · intro t t' es
    exact Keyed.put_put k t t' es

theorem insertAll_index {spots : List (List Access × Value)} (hn : spots ≠ []) {i : Nat}
    {items : List (Nat × Slot)} {s : Slot} (h : insertAll spots ((Keyed.get? i items).getD vacant) = .ok s) :
    insertAll (into (.index i) spots) (ofItems items) = .ok (ofItems (Keyed.putIndex i s items)) := by
  refine foldlM_place (fun is => (Keyed.get? i is).getD vacant) (Keyed.putIndex i) ofItems ?_ ?_ ?_ hn h
  · intro is spot t ht
    rw [insert_index, ht]
    rfl
  · intro t is
    simp [Keyed.get?_putIndex_self]
  · intro t t' is
    exact Keyed.putIndex_putIndex i t t' is

theorem insertAll_append {spots spots' : List (List Access × Value)} {r s : Slot} (h : insertAll spots r = .ok s) :
    insertAll (spots ++ spots') r = insertAll spots' s :=
  foldlM_append_ok h spots'

end Slot

/-! ## The tree of a value -/

section
open Slot

theorem insertAll_itemSpots {items : List Value} (h : ∀ v ∈ items, insertAll v.spots vacant = .ok v.slot)
    {next : Nat} {done : List (Nat × Slot)} (hd : ∀ i ∈ Keyed.keys done, i < next) :
    insertAll (itemSpots next items) (ofItems done) = .ok (ofItems (done ++ itemSlots next items)) := by
  induction items generalizing next done with
  | nil => simp [itemSpots, itemSlots, insertAll, pure, Except.pure]
  | cons v items ih =>
    rw [List.forall_mem_cons] at h
    -- No item has the index `next` yet, so the leaves of `v` meet a vacant slot.
    have hf : Keyed.get? next done = none := Keyed.get?_eq_none.2 fun hm => Nat.lt_irrefl _ (hd next hm)
    have hv : insertAll v.spots ((Keyed.get? next done).getD vacant) = .ok v.slot := by
      rw [hf]
      exact h.1
    rw [itemSpots, itemSlots, insertAll_append (insertAll_index v.spots_ne_nil hv), Keyed.putIndex_of_lt hd,
      ih h.2 (Keyed.keys_concat_lt hd v.slot), List.append_assoc, List.singleton_append]

theorem insertAll_entrySpots {entries : List (String × Value)}
    (h : ∀ e ∈ entries, insertAll e.2.spots vacant = .ok e.2.slot) (hn : (Keyed.keys entries).Nodup)
    {done : List (String × Slot)} (hd : ∀ k ∈ Keyed.keys entries, k ∉ Keyed.keys done) :
    insertAll (entrySpots entries) (ofEntries done) = .ok (ofEntries (done ++ entrySlots entries)) := by
  induction entries generalizing done with
  | nil => simp [entrySpots, entrySlots, insertAll, pure, Except.pure]
  | cons e entries ih =>
    obtain ⟨k, v⟩ := e
    simp only [Keyed.keys, List.map_cons, List.nodup_cons, List.forall_mem_cons] at h hn hd
    -- The key is new, so the leaves of `v` meet a vacant slot.
    have hv : insertAll v.spots ((Keyed.get? k done).getD vacant) = .ok v.slot := by
      rw [Keyed.get?_eq_none.2 hd.1]
      exact h.1
    have hd' : ∀ k' ∈ Keyed.keys entries, k' ∉ Keyed.keys (done ++ [(k, v.slot)]) := by
      intro k' hk
      refine Keyed.notMem_keys_concat (hd.2 k' hk) ?_ v.slot
      rintro rfl
      exact hn.1 hk
    rw [entrySpots, entrySlots, insertAll_append (insertAll_key v.spots_ne_nil hv), Keyed.put_of_notMem hd.1,
      ih h.2 hn.2 hd', List.append_assoc, List.singleton_append]

/-- The leaves of a value build its tree. -/
theorem insertAll_spots {v : Value} (h : v.Fit) : insertAll v.spots vacant = .ok v.slot := by
  induction v using Value.induct with
  | scalar s => rfl
  | sequence items ih =>
    rw [Value.spots, Value.slot]
    split
    · rfl
    · rename_i hi
      have hs : insertAll (itemSpots 0 items) (ofItems []) = .ok (ofItems (itemSlots 0 items)) :=
        insertAll_itemSpots (fun v hv => ih v hv (h.item hv)) (by simp [Keyed.keys])
      cases items with
      | nil => simp at hi
      | cons v items => exact hs
  | mapping entries ih =>
    rw [Value.spots, Value.slot]
    split
    · rfl
    · rename_i he
      have hs : insertAll (entrySpots entries) (ofEntries []) = .ok (ofEntries (entrySlots entries)) :=
        insertAll_entrySpots (fun e he => ih e he (h.entry he)) (h.wellFormed.keys entries .self)
          (by simp [Keyed.keys])
      cases entries with
      | nil => simp at he
      | cons e entries => exact hs

/-! ## The value of the tree -/

theorem itemValues_itemSlots {items : List Value} (h : ∀ v ∈ items, ∀ place, v.slot.valueAt place = .ok v.settle)
    (place : String) (next : Nat) :
    itemValues place next (itemSlots next items) = .ok (Value.settleItems items) := by
  induction items generalizing next with
  | nil => rfl
  | cons v items ih =>
    rw [List.forall_mem_cons] at h
    rw [itemSlots, itemValues, if_pos rfl, h.1, ih h.2, Value.settleItems]
    rfl

theorem entryValues_entrySlots {entries : List (String × Value)}
    (h : ∀ e ∈ entries, ∀ place, e.2.slot.valueAt place = .ok e.2.settle) (place : String) :
    entryValues place (entrySlots entries) = .ok (Value.settleEntries entries) := by
  induction entries with
  | nil => rfl
  | cons e entries ih =>
    obtain ⟨k, v⟩ := e
    rw [List.forall_mem_cons] at h
    rw [entrySlots, entryValues, h.1, ih h.2, Value.settleEntries]
    rfl

theorem valueAt_slot (v : Value) (place : String) : v.slot.valueAt place = .ok v.settle := by
  induction v using Value.induct generalizing place with
  | scalar s => rw [Value.slot, valueAt]
  | sequence items ih =>
    rw [Value.slot]
    split
    · rename_i hi
      rw [List.isEmpty_iff.1 hi]
      rfl
    · rw [valueAt, itemValues_itemSlots ih, Value.settle]
      rfl
  | mapping entries ih =>
    rw [Value.slot]
    split
    · rename_i he
      rw [List.isEmpty_iff.1 he]
      rfl
    · rw [valueAt, entryValues_entrySlots ih, Value.settle]
      rfl

theorem finish_slot (v : Value) : v.slot.finish = .ok v.settle := by
  have hv : v.slot.isVacant = false := by
    cases v with
    | scalar s => rfl
    | sequence items => rw [Value.slot]; split <;> rfl
    | mapping entries => rw [Value.slot]; split <;> rfl
  rw [finish, hv]
  exact valueAt_slot v ""

end

end AtomLines.Json
