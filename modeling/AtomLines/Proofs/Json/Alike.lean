import AtomLines.Proofs.Json.Tree
import AtomLines.Proofs.Readings
import Mathlib.Data.List.Perm.Subperm
/-!
# Trees with the same spots

Trees whose leaves stand at the same spots differ in the order of keys alone: either
both have a value or neither has, and the values are the same.
-/

namespace AtomLines.Json

/-! ## Values up to the order of keys -/

theorem Value.sameEntries_iff {as bs : List (String × Value)} : sameEntries as bs = true ↔
    ∀ e ∈ as, ∃ b, Keyed.get? e.1 bs = some b ∧ e.2.same b = true := by
  induction as with
  | nil => simp [sameEntries]
  | cons e as ih =>
    obtain ⟨k, a⟩ := e
    rw [sameEntries, Bool.and_eq_true, ih, List.forall_mem_cons]
    cases Keyed.get? k bs <;> simp

theorem Value.same_of_isLeaf {v : Value} (h : v.isLeaf = true) : v.same v = true := by
  cases v with
  | scalar s =>
    rw [same]
    cases s with
    | number n => cases n <;> simp [Scalar.same, Number.same, Number.Binary64.same]
    | _ => simp [Scalar.same]
  | sequence items =>
    rw [List.isEmpty_iff.1 h]
    rfl
  | mapping entries =>
    rw [List.isEmpty_iff.1 h]
    rfl

namespace Slot

/-- Both trees have a value, wherever they stand, and the same one, or neither has. -/
def Alike (s t : Slot) : Prop :=
  ∀ place place', Agree (fun v w => v.same w = true) (s.valueAt place) (t.valueAt place')

/-! ## Items -/

theorem itemValues_agree {items items' : List (Nat × Slot)}
    (h : List.Forall₂ (fun e e' => e.1 = e'.1 ∧ Alike e.2 e'.2) items items') (place place' : String) (expected : Nat) :
    Agree (fun vs ws => Value.sameItems vs ws = true) (itemValues place expected items)
      (itemValues place' expected items') := by
  induction h generalizing expected with
  | nil => exact .ok rfl
  | @cons e e' items items' he _ ih =>
    obtain ⟨i, s⟩ := e
    obtain ⟨j, t⟩ := e'
    obtain ⟨rfl, hst⟩ := he
    rw [itemValues, itemValues]
    split
    · refine (hst _ _).bind fun v w hvw => (ih (expected + 1)).bind fun vs ws hvs => .ok ?_
      rw [Value.sameItems, hvw, hvs]
      rfl
    · exact .error

/-! ## Entries -/

/-- The entry of a mapping that a part gives. -/
def entryValue? (place : String) (e : String × Slot) : Option (String × Value) :=
  match e.2.valueAt (childPlace place e.1) with
  | .ok v => some (e.1, v)
  | .error _ => none

theorem entryValue?_eq_some {place : String} {e : String × Slot} {w : String × Value} :
    entryValue? place e = some w ↔ e.1 = w.1 ∧ e.2.valueAt (childPlace place e.1) = .ok w.2 := by
  obtain ⟨k, v⟩ := w
  rw [entryValue?]
  cases e.2.valueAt (childPlace place e.1) <;> simp

theorem entryValues_eq_ok {place : String} {entries : List (String × Slot)} {vs : List (String × Value)} :
    entryValues place entries = .ok vs ↔ Reads (entryValue? place) entries vs := by
  induction entries generalizing vs with
  | nil =>
    rw [Reads.nil_iff, entryValues, Except.ok.injEq, List.nil_eq]
  | cons e entries ih =>
    obtain ⟨k, s⟩ := e
    simp only [entryValues, bind_eq_ok, Reads.cons_iff, ih, entryValue?_eq_some]
    constructor
    · rintro ⟨v, hv, rest, hrest, h⟩
      cases h
      exact ⟨(k, v), rest, ⟨rfl, hv⟩, hrest, rfl⟩
    · rintro ⟨⟨k, v⟩, rest, ⟨rfl, hv⟩, hrest, rfl⟩
      exact ⟨v, hv, rest, hrest, rfl⟩

theorem keys_of_reads {place : String} {entries : List (String × Slot)} {vs : List (String × Value)}
    (h : Reads (entryValue? place) entries vs) : Keyed.keys vs = Keyed.keys entries :=
  (h.map_eq fun he => (entryValue?_eq_some.1 he).1).symm

/-- Each entry has one under the same key that is related to it. -/
def Partnered (R : Slot → Slot → Prop) (entries entries' : List (String × Slot)) : Prop :=
  ∀ e ∈ entries, ∃ t, (e.1, t) ∈ entries' ∧ R e.2 t

section Partners
variable {entries entries' : List (String × Slot)}

theorem Partnered.length_le {R : Slot → Slot → Prop} (h : Partnered R entries entries') (hn : (Keyed.keys entries).Nodup) :
    entries.length ≤ entries'.length := by
  have hk : Keyed.keys entries ⊆ Keyed.keys entries' := by
    intro k hm
    obtain ⟨e, he, rfl⟩ := List.mem_map.1 hm
    obtain ⟨t, ht, -⟩ := h e he
    exact List.mem_map.2 ⟨_, ht, rfl⟩
  simpa [Keyed.keys] using (hn.subperm hk).length_le

/-- Entries have values if the entries under the same keys have. -/
theorem entryValues_exists_ok {place place' : String}
    (h : Partnered (fun t s => ∀ k, (∃ v, s.valueAt (childPlace place k) = .ok v) →
      ∃ w, t.valueAt (childPlace place' k) = .ok w) entries' entries)
    (hv : ∃ vs, entryValues place entries = .ok vs) : ∃ ws, entryValues place' entries' = .ok ws := by
  simp only [entryValues_eq_ok, Reads.exists_iff, entryValue?_eq_some] at hv ⊢
  intro e he
  obtain ⟨s, hs, hst⟩ := h e he
  obtain ⟨v, -, hv⟩ := hv _ hs
  obtain ⟨w, hw⟩ := hst e.1 ⟨_, hv⟩
  exact ⟨(e.1, w), rfl, hw⟩

theorem entryValues_agree (hn : (Keyed.keys entries).Nodup) (hn' : (Keyed.keys entries').Nodup)
    (h : Partnered Alike entries entries') (h' : Partnered (fun t s => Alike s t) entries' entries)
    (place place' : String) : Agree (fun vs ws => (Value.mapping vs).same (.mapping ws) = true)
      (entryValues place entries) (entryValues place' entries') := by
  apply Agree.of_iff
  · constructor
    · refine entryValues_exists_ok fun e he => ?_
      obtain ⟨s, hs, hst⟩ := h' e he
      exact ⟨s, hs, fun k => (hst _ _).succeeds_iff.1⟩
    · refine entryValues_exists_ok fun e he => ?_
      obtain ⟨t, ht, hst⟩ := h e he
      exact ⟨t, ht, fun k => (hst _ _).succeeds_iff.2⟩
  · intro vs ws hvs hws
    rw [entryValues_eq_ok] at hvs hws
    -- Partners go both ways, so no mapping has more entries than the other.
    have hlength : vs.length = ws.length := by
      rw [hvs.length_eq, hws.length_eq]
      exact Nat.le_antisymm (h.length_le hn) (h'.length_le hn')
    rw [Value.same, Bool.and_eq_true, decide_eq_true_eq, Value.sameEntries_iff]
    refine ⟨hlength, fun w hw => ?_⟩
    obtain ⟨_, v⟩ := w
    obtain ⟨⟨k, s⟩, hs, hv⟩ := hvs.exists_of_mem hw
    obtain ⟨rfl, hv⟩ := entryValue?_eq_some.1 hv
    obtain ⟨t, ht, hst⟩ := h _ hs
    have ha := hst (childPlace place k) (childPlace place' k)
    obtain ⟨b, hb⟩ := ha.succeeds_iff.1 ⟨_, hv⟩
    have hm : (k, b) ∈ ws := hws.mem_of_mem ht (entryValue?_eq_some.2 ⟨rfl, hb⟩)
    have hnodup : (Keyed.keys ws).Nodup := by rwa [keys_of_reads hws]
    exact ⟨b, (Keyed.get?_eq_some hnodup).2 hm, ha.related hv hb⟩

end Partners

/-! ## Parts with the same spots -/

section Parts
variable {κ : Type} {access : κ → Access} {parts parts' : List (κ × Slot)}

/-- The spots of each part under its key. -/
def spotGroups (parts : List (κ × Slot)) : List (κ × List (List Access × Value)) :=
  parts.map fun (k, s) => (k, s.spots)

theorem keys_spotGroups (parts : List (κ × Slot)) : Keyed.keys (spotGroups parts) = Keyed.keys parts := by
  simp [spotGroups, Keyed.keys]

theorem spotGroups_ne_nil (h : ∀ e ∈ parts, e.2.Grown) : ∀ g ∈ spotGroups parts, g.2 ≠ [] := by
  intro g hg
  obtain ⟨e, he, rfl⟩ := List.mem_map.1 hg
  exact (h e he).spots_ne_nil

theorem spotsUnder_eq (access : κ → Access) (parts : List (κ × Slot)) : spotsUnder access parts =
    (Keyed.ungrouped (spotGroups parts)).map fun p => (access p.1 :: p.2.1, p.2.2) := by
  rw [spotsUnder, Keyed.ungrouped, spotGroups, List.flatMap_map, List.map_flatMap]
  simp only [into, List.map_map]
  rfl

theorem ungrouped_perm (haccess : Function.Injective access)
    (h : (spotsUnder access parts).Perm (spotsUnder access parts')) :
    (Keyed.ungrouped (spotGroups parts)).Perm (Keyed.ungrouped (spotGroups parts')) := by
  rw [spotsUnder_eq, spotsUnder_eq] at h
  refine (List.map_perm_map_iff ?_).1 h
  rintro ⟨k, as, v⟩ ⟨l, bs, w⟩ he
  obtain ⟨hmoves, hv⟩ := Prod.mk.inj he
  obtain ⟨hk, has⟩ := List.cons.inj hmoves
  exact Prod.ext (haccess hk) (Prod.ext has hv)

end Parts

theorem key_injective : Function.Injective Access.key := fun _ _ h => Access.key.inj h

theorem index_injective : Function.Injective Access.index := fun _ _ h => Access.index.inj h

/-- Among entries with the same spots each has one under its key with the same spots. -/
theorem partnered_of_spots {entries entries' : List (String × Slot)} (hn : (Keyed.keys entries).Nodup)
    (hn' : (Keyed.keys entries').Nodup) (hg : ∀ e ∈ entries, e.2.Grown) (hg' : ∀ e ∈ entries', e.2.Grown)
    (h : (spotsUnder .key entries).Perm (spotsUnder .key entries')) :
    Partnered (fun s t => s.spots.Perm t.spots) entries entries' := by
  have hp := ungrouped_perm key_injective h
  have hkeys : (Keyed.keys (spotGroups entries)).Nodup := by rwa [keys_spotGroups]
  have hkeys' : (Keyed.keys (spotGroups entries')).Nodup := by rwa [keys_spotGroups]
  rintro ⟨k, s⟩ hs
  have hk := Keyed.mem_keys_iff hkeys hkeys' hp (spotGroups_ne_nil hg) (spotGroups_ne_nil hg') k
  rw [keys_spotGroups, keys_spotGroups] at hk
  obtain ⟨⟨l, t⟩, ht, hl⟩ := List.mem_map.1 (hk.1 (List.mem_map_of_mem hs))
  obtain rfl : l = k := hl
  have hst := Keyed.group_perm hkeys hkeys' hp l
  rw [spotGroups, spotGroups, Keyed.get?_map, Keyed.get?_map, (Keyed.get?_eq_some hn).2 hs,
    (Keyed.get?_eq_some hn').2 ht] at hst
  exact ⟨t, ht, hst⟩

/-- Items with the same spots have the same indices, and under each what holds of trees
with the same spots. -/
theorem forall₂_of_spots {items items' : List (Nat × Slot)} (ha : Keyed.Ascending items) (ha' : Keyed.Ascending items')
    (hg : ∀ e ∈ items, e.2.Grown) (hg' : ∀ e ∈ items', e.2.Grown)
    (h : (spotsUnder .index items).Perm (spotsUnder .index items')) {R : Slot → Slot → Prop}
    (hR : ∀ e ∈ items, ∀ t, t.Grown → e.2.spots.Perm t.spots → R e.2 t) :
    List.Forall₂ (fun e e' => e.1 = e'.1 ∧ R e.2 e'.2) items items' := by
  have hasc : ∀ {items : List (Nat × Slot)}, Keyed.Ascending items → Keyed.Ascending (spotGroups items) := by
    intro items ha
    rwa [Keyed.Ascending, keys_spotGroups]
  have hf := (hasc ha).forall₂_perm (hasc ha') (spotGroups_ne_nil hg) (spotGroups_ne_nil hg')
    (ungrouped_perm index_injective h)
  rw [spotGroups, spotGroups, List.forall₂_map_left_iff, List.forall₂_map_right_iff] at hf
  clear ha ha' hg h hasc
  induction hf with
  | nil => exact .nil
  | cons he _ ih =>
    rw [List.forall_mem_cons] at hR hg'
    exact .cons ⟨he.1, hR.1 _ hg'.1 he.2⟩ (ih hg'.2 hR.2)

/-! ## The whole tree -/

/-- Trees with the same spots are of one kind. -/
theorem Grown.kind_eq {s t : Slot} (hs : s.Grown) (ht : t.Grown) (hp : s.spots.Perm t.spots) : s.kind = t.kind := by
  obtain ⟨p, hm⟩ := List.exists_mem_of_ne_nil _ hs.spots_ne_nil
  rw [hs.kind_eq_kindOf hm, ht.kind_eq_kindOf (hp.mem_iff.1 hm)]

/-- Trees with the same spots have the same value, or none. -/
theorem Grown.alike {s t : Slot} (hs : s.Grown) (ht : t.Grown) (hp : s.spots.Perm t.spots) : Alike s t := by
  induction hs generalizing t with
  | @leaf v hv =>
    -- The spots tell the kind of a tree, so both trees are of one kind.
    have hkind := (Grown.leaf hv).kind_eq ht hp
    cases ht with
    | leaf =>
      obtain ⟨-, rfl⟩ := Prod.mk.inj (List.singleton_perm_singleton.1 hp)
      exact fun _ _ => .ok (Value.same_of_isLeaf hv)
    | mapping | sequence => cases hkind
  | @mapping entries hne hn hg ih =>
    have hkind := (Grown.mapping hne hn hg).kind_eq ht hp
    cases ht with
    | @mapping entries' hne' hn' hg' =>
      rw [← ofEntries_of_ne_nil hne, ← ofEntries_of_ne_nil hne', spots_ofEntries, spots_ofEntries] at hp
      intro place place'
      rw [valueAt, valueAt]
      refine (entryValues_agree hn hn' (fun e he => ?_) (fun e he => ?_) place place').map fun vs ws h => h
      · obtain ⟨t, ht, hst⟩ := partnered_of_spots hn hn' hg hg' hp e he
        exact ⟨t, ht, ih e he (hg' _ ht) hst⟩
      · obtain ⟨s, hs, hst⟩ := partnered_of_spots hn' hn hg' hg hp.symm e he
        exact ⟨s, hs, ih _ hs (hg' e he) hst.symm⟩
    | leaf | sequence => cases hkind
  | @sequence items hne ha hg ih =>
    have hkind := (Grown.sequence hne ha hg).kind_eq ht hp
    cases ht with
    | @sequence items' hne' ha' hg' =>
      rw [← ofItems_of_ne_nil hne, ← ofItems_of_ne_nil hne', spots_ofItems, spots_ofItems] at hp
      have hf := forall₂_of_spots ha ha' hg hg' hp fun e he t ht => ih e he ht
      intro place place'
      rw [valueAt, valueAt]
      exact (itemValues_agree hf place place' 0).map fun vs ws h => h
    | leaf | mapping => cases hkind

end Slot

end AtomLines.Json
