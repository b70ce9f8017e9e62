import AtomLines.Proofs.Grouped
import AtomLines.Proofs.Json.Assembly
/-!
# Trees and the spots of their leaves

A tree is told by the spots of its leaves, up to the order of keys. A leaf can be
inserted exactly if its moves part from the moves to every leaf that is there: at some
point they lead to different keys of one mapping or to different items of one sequence.
-/

namespace AtomLines.Json

/-! ## Moves that part -/

/-- The moves lead to different keys of one mapping or different items of one sequence. -/
def Apart : List Access → List Access → Prop
  | .key k :: as, .key l :: bs => k = l → Apart as bs
  | .index i :: as, .index j :: bs => i = j → Apart as bs
  | _, _ => False

theorem Apart.symm {as bs : List Access} (h : Apart as bs) : Apart bs as := by
  induction as generalizing bs with
  | nil => cases bs <;> exact h.elim
  | cons a as ih =>
    cases bs with
    | nil => cases a <;> exact h.elim
    | cons b bs =>
      cases a <;> cases b
      · exact fun hk => ih (h hk.symm)
      · exact h.elim
      · exact h.elim
      · exact fun hi => ih (h hi.symm)

theorem not_apart_self (as : List Access) : ¬ Apart as as := by
  induction as with
  | nil => exact id
  | cons a as ih => cases a <;> exact fun h => ih (h rfl)

theorem not_apart_nil (as : List Access) : ¬ Apart as [] := by
  rcases as with _ | ⟨_ | _, _⟩ <;> exact id

/-! ## Spots of a tree -/

mutual

/-- The leaves of a tree, each after the moves that lead to it. -/
def Slot.spots : Slot → List (List Access × Value)
  | .vacant => []
  | .leaf v => [([], v)]
  | .mapping entries => entrySlotSpots entries
  | .sequence items => itemSlotSpots items

def entrySlotSpots : List (String × Slot) → List (List Access × Value)
  | [] => []
  | (k, s) :: rest => into (.key k) s.spots ++ entrySlotSpots rest

def itemSlotSpots : List (Nat × Slot) → List (List Access × Value)
  | [] => []
  | (i, s) :: rest => into (.index i) s.spots ++ itemSlotSpots rest

end

/-- The spots of all parts, each part after one move. -/
def spotsUnder {κ : Type} (access : κ → Access) (parts : List (κ × Slot)) : List (List Access × Value) :=
  parts.flatMap fun e => into (access e.1) e.2.spots

namespace Slot

theorem spots_ofEntries (entries : List (String × Slot)) : (ofEntries entries).spots = spotsUnder .key entries := by
  have h : ∀ entries, entrySlotSpots entries = spotsUnder .key entries := by
    intro entries
    induction entries with
    | nil => rfl
    | cons e entries ih =>
      rw [entrySlotSpots, ih]
      rfl
  cases entries with
  | nil => rfl
  | cons e entries => exact h (e :: entries)

theorem spots_ofItems (items : List (Nat × Slot)) : (ofItems items).spots = spotsUnder .index items := by
  have h : ∀ items, itemSlotSpots items = spotsUnder .index items := by
    intro items
    induction items with
    | nil => rfl
    | cons e items ih =>
      rw [itemSlotSpots, ih]
      rfl
  cases items with
  | nil => rfl
  | cons e items => exact h (e :: items)

theorem ofEntries_of_ne_nil {entries : List (String × Slot)} (h : entries ≠ []) : ofEntries entries = mapping entries :=
  if_neg (by simpa using h)

theorem ofItems_of_ne_nil {items : List (Nat × Slot)} (h : items ≠ []) : ofItems items = sequence items :=
  if_neg (by simpa using h)

/-! ## Trees that have grown -/

/-- A tree as insertion builds it: nothing in it is vacant, no key comes twice and
indices ascend. -/
inductive Grown : Slot → Prop
  | leaf {v : Value} : v.isLeaf = true → Grown (leaf v)
  | mapping {entries : List (String × Slot)} : entries ≠ [] → (Keyed.keys entries).Nodup →
    (∀ e ∈ entries, Grown e.2) → Grown (mapping entries)
  | sequence {items : List (Nat × Slot)} : items ≠ [] → Keyed.Ascending items →
    (∀ e ∈ items, Grown e.2) → Grown (sequence items)

/-- A tree under construction. -/
def Growing (s : Slot) : Prop :=
  s = vacant ∨ s.Grown

theorem spotsUnder_ne_nil {κ : Type} {access : κ → Access} {parts : List (κ × Slot)} (hne : parts ≠ [])
    (h : ∀ e ∈ parts, e.2.spots ≠ []) : spotsUnder access parts ≠ [] := by
  obtain ⟨e, parts, rfl⟩ := List.exists_cons_of_ne_nil hne
  rw [spotsUnder, List.flatMap_cons]
  exact List.append_ne_nil_of_left_ne_nil (into_ne_nil (h e List.mem_cons_self)) _

theorem Grown.spots_ne_nil {s : Slot} (h : s.Grown) : s.spots ≠ [] := by
  induction h with
  | leaf => exact List.cons_ne_nil _ _
  | mapping hne _ _ ih =>
    rw [← ofEntries_of_ne_nil hne, spots_ofEntries]
    exact spotsUnder_ne_nil hne ih
  | sequence hne _ _ ih =>
    rw [← ofItems_of_ne_nil hne, spots_ofItems]
    exact spotsUnder_ne_nil hne ih

theorem mem_spotsUnder {κ : Type} {access : κ → Access} {parts : List (κ × Slot)} {p : List Access × Value} :
    p ∈ spotsUnder access parts ↔ ∃ e ∈ parts, ∃ q ∈ e.2.spots, p = (access e.1 :: q.1, q.2) := by
  simp only [spotsUnder, into, List.mem_flatMap, List.mem_map, eq_comm]

/-! ## Kinds of trees -/

inductive Kind where
  | leaf
  | mapping
  | sequence

def kind : Slot → Kind
  | vacant | leaf _ => .leaf
  | mapping _ => .mapping
  | sequence _ => .sequence

/-- The kind of tree that moves lead into. -/
def kindOf : List Access → Kind
  | [] => .leaf
  | .key _ :: _ => .mapping
  | .index _ :: _ => .sequence

theorem not_apart_of_kindOf {as bs : List Access} (h : kindOf as ≠ kindOf bs) : ¬ Apart as bs := by
  cases as with
  | nil => exact id
  | cons a as =>
    cases bs with
    | nil => cases a <;> exact id
    | cons b bs =>
      cases a <;> cases b
      · exact absurd rfl h
      · exact id
      · exact id
      · exact absurd rfl h

theorem Grown.kind_eq_kindOf {s : Slot} (h : s.Grown) {p : List Access × Value} (hp : p ∈ s.spots) :
    s.kind = kindOf p.1 := by
  cases h with
  | leaf =>
    rw [List.mem_singleton.1 hp]
    rfl
  | mapping hne =>
    rw [← ofEntries_of_ne_nil hne, spots_ofEntries] at hp
    obtain ⟨e, -, q, -, rfl⟩ := mem_spotsUnder.1 hp
    rfl
  | sequence hne =>
    rw [← ofItems_of_ne_nil hne, spots_ofItems] at hp
    obtain ⟨e, -, q, -, rfl⟩ := mem_spotsUnder.1 hp
    rfl

/-! ## Insertion -/

/-- What the insertion of a leaf has to do: it succeeds exactly if the leaf parts from
all that are there, and then it is there as well. -/
structure Adds (v : Value) (as : List Access) (s : Slot) (outcome : Except Clash Slot) : Prop where
  succeeds : (∃ t, outcome = .ok t) ↔ ∀ p ∈ s.spots, Apart as p.1
  grown : ∀ {t}, outcome = .ok t → t.Grown
  perm : ∀ {t}, outcome = .ok t → t.spots.Perm ((as, v) :: s.spots)

theorem Adds.of_error {v : Value} {as : List Access} {s : Slot} {c : Clash} {p : List Access × Value} (hp : p ∈ s.spots)
    (hn : ¬ Apart as p.1) : Adds v as s (.error c) where
  succeeds := ⟨nofun, fun h => absurd (h p hp) hn⟩
  grown := nofun
  perm := nofun

/-- Nothing is inserted into a tree of another kind than the moves lead into. -/
theorem Adds.of_kind {v : Value} {as : List Access} {s : Slot} {c : Clash} (hs : s.Grown) (h : kindOf as ≠ s.kind) :
    Adds v as s (.error c) := by
  obtain ⟨p, hp⟩ := List.exists_mem_of_ne_nil _ hs.spots_ne_nil
  rw [hs.kind_eq_kindOf hp] at h
  exact .of_error hp (not_apart_of_kindOf h)

section Under
variable {κ : Type} [DecidableEq κ] {access : κ → Access} {parts : List (κ × Slot)} {k : κ} {v : Value}
  {as : List Access}

/-- The part under a key, vacant if there is none. -/
def partAt (k : κ) (parts : List (κ × Slot)) : Slot :=
  (Keyed.get? k parts).getD vacant

theorem growing_partAt (hn : (Keyed.keys parts).Nodup) (h : ∀ e ∈ parts, e.2.Grown) (k : κ) :
    (partAt k parts).Growing := by
  rw [partAt]
  cases hk : Keyed.get? k parts with
  | none => exact .inl rfl
  | some s => exact .inr (h (k, s) ((Keyed.get?_eq_some hn).1 hk))

/-- Moves under one key part from all others if they part there. -/
theorem apart_spotsUnder (haccess : ∀ k l as bs, Apart (access k :: as) (access l :: bs) ↔ (k = l → Apart as bs))
    (hn : (Keyed.keys parts).Nodup) :
    (∀ p ∈ spotsUnder access parts, Apart (access k :: as) p.1) ↔ ∀ p ∈ (partAt k parts).spots, Apart as p.1 := by
  constructor
  · intro h p hp
    rw [partAt] at hp
    cases hk : Keyed.get? k parts with
    | none =>
      rw [hk] at hp
      cases hp
    | some s =>
      rw [hk] at hp
      have hm := (Keyed.get?_eq_some hn).1 hk
      exact (haccess ..).1 (h _ (mem_spotsUnder.2 ⟨_, hm, p, hp, rfl⟩)) rfl
  · intro h p hp
    obtain ⟨⟨l, s⟩, hm, q, hq, rfl⟩ := mem_spotsUnder.1 hp
    rw [haccess]
    rintro rfl
    apply h q
    rw [partAt, (Keyed.get?_eq_some hn).2 hm]
    exact hq

/-- If one part gains a leaf, all parts together do. -/
theorem into_gained {t : Slot} (h : t.spots.Perm ((as, v) :: (partAt k parts).spots)) :
    (into (access k) t.spots).Perm ([(access k :: as, v)] ++
      ((Keyed.get? k parts).map (k, ·)).toList.flatMap fun e => into (access e.1) e.2.spots) := by
  refine (h.map _).trans (.of_eq ?_)
  rw [partAt]
  cases Keyed.get? k parts with
  | none => rfl
  | some s => simp [into]

/-- A leaf is added under a key by adding it to the part there. -/
theorem Adds.under (haccess : ∀ k l as bs, Apart (access k :: as) (access l :: bs) ↔ (k = l → Apart as bs))
    (hn : (Keyed.keys parts).Nodup) {outcome : Except Clash Slot} (h : Adds v as (partAt k parts) outcome)
    {whole : List (κ × Slot) → Slot} (hspots : ∀ parts, (whole parts).spots = spotsUnder access parts)
    {put : Slot → List (κ × Slot)} (hgrown : ∀ t, t.Grown → (whole (put t)).Grown)
    (hput : ∀ t, (into (access k) t.spots).Perm ([(access k :: as, v)] ++
        ((Keyed.get? k parts).map (k, ·)).toList.flatMap fun e => into (access e.1) e.2.spots) →
      (spotsUnder access (put t)).Perm ([(access k :: as, v)] ++ spotsUnder access parts)) :
    Adds v (access k :: as) (whole parts) (outcome.map fun t => whole (put t)) where
  succeeds := by
    rw [hspots, apart_spotsUnder haccess hn, ← h.succeeds]
    constructor
    · rintro ⟨t, ht⟩
      obtain ⟨t', ht', -⟩ := map_eq_ok.1 ht
      exact ⟨t', ht'⟩
    · rintro ⟨t, rfl⟩
      exact ⟨_, rfl⟩
  grown ht := by
    obtain ⟨t', ht', rfl⟩ := map_eq_ok.1 ht
    exact hgrown t' (h.grown ht')
  perm ht := by
    obtain ⟨t', ht', rfl⟩ := map_eq_ok.1 ht
    rw [hspots, hspots]
    exact hput t' (into_gained (h.perm ht'))

end Under

theorem apart_key (k l : String) (as bs : List Access) : Apart (.key k :: as) (.key l :: bs) ↔ (k = l → Apart as bs) :=
  Iff.rfl

theorem apart_index (i j : Nat) (as bs : List Access) : Apart (.index i :: as) (.index j :: bs) ↔ (i = j → Apart as bs) :=
  Iff.rfl

theorem Adds.key {v : Value} {k : String} {as : List Access} {entries : List (String × Slot)}
    (hn : (Keyed.keys entries).Nodup) (hg : ∀ e ∈ entries, e.2.Grown)
    (h : Adds v as (partAt k entries) (insert v as (partAt k entries))) :
    Adds v (.key k :: as) (ofEntries entries) (insert v (.key k :: as) (ofEntries entries)) := by
  rw [insert_key]
  refine h.under apart_key hn spots_ofEntries (fun t ht => ?_)
    fun t => Keyed.flatMap_put (f := fun e : String × Slot => into (.key e.1) e.2.spots)
  have hne : Keyed.put k t entries ≠ [] := by
    cases entries with
    | nil => exact List.cons_ne_nil _ _
    | cons e rest =>
      rw [Keyed.put]
      split <;> exact List.cons_ne_nil _ _
  rw [ofEntries_of_ne_nil hne]
  refine .mapping hne (Keyed.nodup_keys_put hn) fun e he => ?_
  rcases Keyed.mem_put he with rfl | he
  · exact ht
  · exact hg e he

theorem Adds.index {v : Value} {i : Nat} {as : List Access} {items : List (Nat × Slot)} (ha : Keyed.Ascending items)
    (hg : ∀ e ∈ items, e.2.Grown) (h : Adds v as (partAt i items) (insert v as (partAt i items))) :
    Adds v (.index i :: as) (ofItems items) (insert v (.index i :: as) (ofItems items)) := by
  rw [insert_index]
  refine h.under apart_index ha.nodup spots_ofItems (fun t ht => ?_)
    fun t => ha.flatMap_putIndex (f := fun e : Nat × Slot => into (.index e.1) e.2.spots)
  have hne : Keyed.putIndex i t items ≠ [] := by
    cases items with
    | nil => exact List.cons_ne_nil _ _
    | cons e rest =>
      rw [Keyed.putIndex]
      split
      · exact List.cons_ne_nil _ _
      · split <;> exact List.cons_ne_nil _ _
  rw [ofItems_of_ne_nil hne]
  refine .sequence hne (ha.putIndex i t) fun e he => ?_
  rcases Keyed.mem_putIndex he with rfl | he
  · exact ht
  · exact hg e he

/-! Each move adds the leaf if the moves after it do. -/

theorem adds_here {v : Value} (hv : v.isLeaf = true) {s : Slot} (hs : s.Growing) : Adds v [] s (insert v [] s) := by
  rcases hs with rfl | hg
  · refine ⟨⟨fun _ => nofun, fun _ => ⟨_, rfl⟩⟩, fun h => ?_, fun h => ?_⟩
    · cases h
      exact .leaf hv
    · cases h
      exact .refl _
  · obtain ⟨p, hp⟩ := List.exists_mem_of_ne_nil _ hg.spots_ne_nil
    have he : insert v [] s = .error .assignedAgain := by cases hg <;> rfl
    rw [he]
    exact .of_error hp id

section
variable {v : Value} {as : List Access} {s : Slot}

theorem adds_key (hs : s.Growing) (k : String) (h : ∀ {t : Slot}, t.Growing → Adds v as t (insert v as t)) :
    Adds v (.key k :: as) s (insert v (.key k :: as) s) := by
  rcases hs with rfl | hg
  · have hempty : Adds v (.key k :: as) (ofEntries []) (insert v (.key k :: as) (ofEntries [])) :=
      .key List.nodup_nil nofun (h (.inl rfl))
    exact hempty
  · cases hg with
    | mapping hne hn hg =>
      rw [← ofEntries_of_ne_nil hne]
      exact .key hn hg (h (growing_partAt hn hg k))
    | leaf hv => exact .of_kind (.leaf hv) nofun
    | sequence hne ha hg => exact .of_kind (.sequence hne ha hg) nofun

theorem adds_index (hs : s.Growing) (i : Nat) (h : ∀ {t : Slot}, t.Growing → Adds v as t (insert v as t)) :
    Adds v (.index i :: as) s (insert v (.index i :: as) s) := by
  rcases hs with rfl | hg
  · have hempty : Adds v (.index i :: as) (ofItems []) (insert v (.index i :: as) (ofItems [])) :=
      .index .nil nofun (h (.inl rfl))
    exact hempty
  · cases hg with
    | sequence hne ha hg =>
      rw [← ofItems_of_ne_nil hne]
      exact .index ha hg (h (growing_partAt ha.nodup hg i))
    | leaf hv => exact .of_kind (.leaf hv) nofun
    | mapping hne hn hg => exact .of_kind (.mapping hne hn hg) nofun

end

/-- A leaf can be inserted exactly if its moves part from those to all leaves that are
there. -/
theorem adds_insert {v : Value} (hv : v.isLeaf = true) {s : Slot} (hs : s.Growing) (as : List Access) :
    Adds v as s (insert v as s) := by
  induction as generalizing s with
  | nil => exact adds_here hv hs
  | cons a as ih =>
    cases a with
    | key k => exact adds_key hs k ih
    | index i => exact adds_index hs i ih

end Slot

end AtomLines.Json
