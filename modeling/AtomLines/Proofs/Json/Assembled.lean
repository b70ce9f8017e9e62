import AtomLines.Proofs.Json.Contents
import AtomLines.Proofs.Json.Records
/-!
# Trees under assembly

`find?` follows moves into a tree. Lines that are inserted one after another into a
vacant slot leave a tree in which moves lead to just the leaves that the lines say, each
line having added its own. Nothing below the root is vacant, so the tree has a value
unless one of its sequences has a gap.
-/

namespace AtomLines.Json

/-- The name of the place that a move leads to. -/
def Access.place (here : String) : Access → String
  | .key k => Slot.childPlace here k
  | .index i => Slot.itemPlace here i

namespace Slot

/-! ## Following moves -/

/-- The slot that moves lead to. -/
def find? : List Access → Slot → Option Slot
  | [], s => some s
  | .key k :: as, mapping entries => (Keyed.get? k entries).bind (find? as)
  | .index i :: as, sequence items => (Keyed.get? i items).bind (find? as)
  | _ :: _, _ => none

section Parts
variable {κ : Type} {parts : List (κ × Slot)} {k : κ} {as : List Access}

theorem get?_bind_find? [DecidableEq κ] {t : Slot} (hn : (Keyed.keys parts).Nodup) :
    (Keyed.get? k parts).bind (find? as) = some t ↔ ∃ s, (k, s) ∈ parts ∧ s.find? as = some t := by
  simp only [Option.bind_eq_some_iff, Keyed.get?_eq_some hn]

theorem mem_spotsUnder_cons {access : κ → Access} (haccess : Function.Injective access) {v : Value} :
    (access k :: as, v) ∈ spotsUnder access parts ↔ ∃ s, (k, s) ∈ parts ∧ (as, v) ∈ s.spots := by
  rw [mem_spotsUnder]
  constructor
  · rintro ⟨⟨l, s⟩, hs, ⟨bs, w⟩, hw, he⟩
    simp only [Prod.mk.injEq, List.cons.injEq] at he
    obtain ⟨⟨hk, rfl⟩, rfl⟩ := he
    obtain rfl := haccess hk
    exact ⟨s, hs, hw⟩
  · rintro ⟨s, hs, hv⟩
    exact ⟨_, hs, _, hv, rfl⟩

end Parts

section Trees
variable {s t : Slot} {as : List Access}

theorem vacant_find? (h : vacant.find? as = some t) : as = [] ∧ t = vacant := by
  rcases as with _ | ⟨_ | _, _⟩ <;> cases h
  exact ⟨rfl, rfl⟩

/-- What lies in a tree as insertion builds it has grown like the whole. -/
theorem Grown.find? (hs : s.Grown) (h : s.find? as = some t) : t.Grown := by
  induction as generalizing s with
  | nil =>
    cases h
    exact hs
  | cons a as ih =>
    cases hs with
    | leaf => cases a <;> cases h
    | mapping _ hn hg =>
      cases a with
      | key k =>
        obtain ⟨part, hm, hpart⟩ := (get?_bind_find? hn).1 h
        exact ih (hg _ hm) hpart
      | index i => cases h
    | sequence _ ha hg =>
      cases a with
      | key k => cases h
      | index i =>
        obtain ⟨part, hm, hpart⟩ := (get?_bind_find? ha.nodup).1 h
        exact ih (hg _ hm) hpart

/-- Moves lead to the leaf of each spot, and to no other leaves. -/
theorem Grown.find?_eq_leaf (hs : s.Grown) {v : Value} : s.find? as = some (.leaf v) ↔ (as, v) ∈ s.spots := by
  induction hs generalizing as with
  | @leaf w =>
    rw [spots, List.mem_singleton, Prod.mk.injEq]
    cases as with
    | nil => simp [Slot.find?, eq_comm]
    | cons a as => cases a <;> simp [Slot.find?]
  | @mapping entries hne hn _ ih =>
    rw [← ofEntries_of_ne_nil hne, spots_ofEntries, ofEntries_of_ne_nil hne]
    cases as with
    | nil => simp [Slot.find?, mem_spotsUnder]
    | cons a as =>
      cases a with
      | key k =>
        rw [Slot.find?, get?_bind_find? hn, mem_spotsUnder_cons key_injective]
        exact exists_congr fun part => and_congr_right fun hm => ih _ hm
      | index i => simp [Slot.find?, mem_spotsUnder]
  | @sequence items hne ha _ ih =>
    rw [← ofItems_of_ne_nil hne, spots_ofItems, ofItems_of_ne_nil hne]
    cases as with
    | nil => simp [Slot.find?, mem_spotsUnder]
    | cons a as =>
      cases a with
      | key k => simp [Slot.find?, mem_spotsUnder]
      | index i =>
        rw [Slot.find?, get?_bind_find? ha.nodup, mem_spotsUnder_cons index_injective]
        exact exists_congr fun part => and_congr_right fun hm => ih _ hm

end Trees

/-! ## Gaps -/

/-- From `start` on, the index is the first one without an item, and items come after it. -/
structure FirstGap (start : Nat) (items : List (Nat × Slot)) (i : Nat) : Prop where
  start_le : start ≤ i
  missing : i ∉ Keyed.keys items
  before : ∀ j, start ≤ j → j < i → j ∈ Keyed.keys items
  after : ∃ j ∈ Keyed.keys items, i < j

theorem firstGap_cons {i g : Nat} {s : Slot} {items : List (Nat × Slot)} :
    FirstGap i ((i, s) :: items) g ↔ FirstGap (i + 1) items g := by
  have hkeys : Keyed.keys ((i, s) :: items) = i :: Keyed.keys items := rfl
  constructor
  · rintro ⟨hle, hmissing, hbefore, j, hj, hlt⟩
    rw [hkeys, List.mem_cons, not_or] at hmissing
    refine ⟨by omega, hmissing.2, fun j hj hjg => ?_, j, ?_, hlt⟩
    · exact (List.mem_cons.1 (hbefore j (by omega) hjg)).resolve_left (by omega)
    · exact (List.mem_cons.1 hj).resolve_left (by omega)
  · rintro ⟨hle, hmissing, hbefore, j, hj, hlt⟩
    refine ⟨by omega, ?_, fun j hj hjg => ?_, j, List.mem_cons_of_mem _ hj, hlt⟩
    · rw [hkeys, List.mem_cons, not_or]
      exact ⟨by omega, hmissing⟩
    · rcases Nat.eq_or_lt_of_le hj with rfl | hj
      · exact List.mem_cons_self
      · exact List.mem_cons_of_mem _ (hbefore j hj hjg)

section Values
variable {s : Slot} {as : List Access} {entries : List (String × Slot)} {items : List (Nat × Slot)} {place : String}
  {expected i : Nat} {v : Value} {reason : Malformation}

theorem exists_of_entryValues_error (h : entryValues place entries = .error reason) :
    ∃ e ∈ entries, e.2.valueAt (childPlace place e.1) = .error reason := by
  induction entries with
  | nil => cases h
  | cons e entries ih =>
    obtain ⟨k, s⟩ := e
    rw [entryValues, bind_eq_error] at h
    rcases h with h | ⟨v, -, h⟩
    · exact ⟨_, List.mem_cons_self, h⟩
    · rcases bind_eq_error.1 h with h | ⟨vs, -, h⟩
      · obtain ⟨e, he, hv⟩ := ih h
        exact ⟨e, List.mem_cons_of_mem _ he, hv⟩
      · cases h

/-- Items have no values because one of them has none or because of a gap. -/
theorem exists_of_itemValues_error (ha : Keyed.Ascending items) (hlow : ∀ j ∈ Keyed.keys items, expected ≤ j)
    (h : itemValues place expected items = .error reason) :
    (∃ e ∈ items, e.2.valueAt (itemPlace place e.1) = .error reason) ∨
      ∃ i, FirstGap expected items i ∧ reason = .indexGap place i := by
  induction items generalizing expected with
  | nil => cases h
  | cons e items ih =>
    obtain ⟨i, s⟩ := e
    have hafter : ∀ j ∈ Keyed.keys items, i < j := fun j hj => List.rel_of_pairwise_cons ha hj
    rw [itemValues] at h
    split at h
    · rename_i he
      subst he
      rcases bind_eq_error.1 h with h | ⟨v, -, h⟩
      · exact .inl ⟨_, List.mem_cons_self, h⟩
      · rcases bind_eq_error.1 h with h | ⟨vs, -, h⟩
        · rcases ih (List.Pairwise.of_cons ha) hafter h with ⟨e, he, hv⟩ | ⟨g, hg, hr⟩
          · exact .inl ⟨e, List.mem_cons_of_mem _ he, hv⟩
          · exact .inr ⟨g, firstGap_cons.2 hg, hr⟩
        · cases h
    · -- The first item already comes after the index that is expected.
      rename_i hne
      cases h
      have hi : expected < i := Nat.lt_of_le_of_ne (hlow i List.mem_cons_self) (Ne.symm hne)
      refine .inr ⟨expected, ⟨Nat.le_refl _, fun hm => ?_, fun j hj hlt => ?_, i, List.mem_cons_self, hi⟩, rfl⟩
      · rcases List.mem_cons.1 hm with he | hm
        · exact hne he.symm
        · exact Nat.lt_asymm hi (hafter _ hm)
      · exact absurd hlt (Nat.not_lt.2 hj)

theorem exists_of_itemValues_ok {vs : List Value} (h : itemValues place expected items = .ok vs) :
    (∀ e ∈ items, ∃ v, e.2.valueAt (itemPlace place e.1) = .ok v) ∧ ∀ i, ¬ FirstGap expected items i := by
  induction items generalizing expected vs with
  | nil => exact ⟨nofun, fun i hi => by obtain ⟨j, hj, -⟩ := hi.after; cases hj⟩
  | cons e items ih =>
    obtain ⟨i, s⟩ := e
    rw [itemValues] at h
    split at h
    · rename_i he
      subst he
      simp only [bind_eq_ok] at h
      obtain ⟨v, hv, vs, hvs, -⟩ := h
      obtain ⟨hvalues, hgap⟩ := ih hvs
      exact ⟨List.forall_mem_cons.2 ⟨⟨v, hv⟩, hvalues⟩, fun g hg => hgap g (firstGap_cons.1 hg)⟩
    · cases h

/-- A tree has no value only because of a gap in one of its sequences, and the reason
names the first missing index and the place of the sequence. -/
theorem Grown.exists_gap (hs : s.Grown) (h : s.valueAt place = .error reason) : ∃ as items i,
    s.find? as = some (.sequence items) ∧ FirstGap 0 items i ∧ reason = .indexGap (as.foldl Access.place place) i := by
  induction hs generalizing place with
  | leaf => cases h
  | @mapping entries hne hn _ ih =>
    rw [valueAt, map_eq_error] at h
    obtain ⟨⟨k, part⟩, hm, hpart⟩ := exists_of_entryValues_error h
    obtain ⟨as, items, i, hf, hgap, hr⟩ := ih _ hm hpart
    exact ⟨.key k :: as, items, i, (get?_bind_find? hn).2 ⟨part, hm, hf⟩, hgap, hr⟩
  | @sequence items hne ha _ ih =>
    rw [valueAt, map_eq_error] at h
    rcases exists_of_itemValues_error ha (fun j _ => Nat.zero_le j) h with ⟨⟨j, part⟩, hm, hpart⟩ | ⟨i, hgap, hr⟩
    · obtain ⟨as, inner, i, hf, hgap, hr⟩ := ih _ hm hpart
      exact ⟨.index j :: as, inner, i, (get?_bind_find? ha.nodup).2 ⟨part, hm, hf⟩, hgap, hr⟩
    · exact ⟨[], items, i, rfl, hgap, hr⟩

/-- A tree that has a value has no gap. -/
theorem Grown.not_firstGap (hs : s.Grown) (h : s.valueAt place = .ok v) (hf : s.find? as = some (.sequence items)) :
    ¬ FirstGap 0 items i := by
  -- The sequence lies in the part under the first move, and that part has a value as well.
  induction hs generalizing as place v with
  | leaf =>
    cases as with
    | nil => cases hf
    | cons a as => cases a <;> cases hf
  | mapping _ hn _ ih =>
    rw [valueAt] at h
    obtain ⟨vs, hvs, -⟩ := map_eq_ok.1 h
    cases as with
    | nil => cases hf
    | cons a as =>
      cases a with
      | key k =>
        obtain ⟨part, hm, hpart⟩ := (get?_bind_find? hn).1 hf
        obtain ⟨w, hw⟩ := Reads.exists_iff.1 ⟨vs, entryValues_eq_ok.1 hvs⟩ _ hm
        exact ih _ hm (entryValue?_eq_some.1 hw).2 hpart
      | index i => cases hf
  | sequence _ ha _ ih =>
    rw [valueAt] at h
    obtain ⟨vs, hvs, -⟩ := map_eq_ok.1 h
    obtain ⟨hvalues, hgap⟩ := exists_of_itemValues_ok hvs
    cases as with
    | nil =>
      cases hf
      exact hgap i
    | cons a as =>
      cases a with
      | key k => cases hf
      | index j =>
        obtain ⟨part, hm, hpart⟩ := (get?_bind_find? ha.nodup).1 hf
        obtain ⟨w, hw⟩ := hvalues _ hm
        exact ih _ hm hw hpart

end Values

/-! ## What a tree stores -/

/-- What a line adds: its leaf with its path, or the empty mapping with the empty path. -/
def linePair (body : SExpr) : Except Malformation (Path × Value) :=
  if body = .symbol emptyMapping then .ok ([], .mapping []) else wrappedLeaf body

/-- The tree holds the leaves of the pairs and nothing else. -/
structure Stores (root : Slot) (pairs : List (Path × Value)) : Prop where
  /-- Only a root without leaves is vacant. -/
  vacant : ∀ {as}, root.find? as = some .vacant → as = [] ∧ pairs = []
  entries : ∀ {as entries}, root.find? as = some (.mapping entries) → entries ≠ [] ∧ (Keyed.keys entries).Nodup
  items : ∀ {as items}, root.find? as = some (.sequence items) → items ≠ [] ∧ Keyed.Ascending items
  isLeaf : ∀ {as v}, root.find? as = some (.leaf v) → v.isLeaf = true
  leaves : ∀ {as v}, root.find? as = some (.leaf v) ↔ ∃ path, (path, v) ∈ pairs ∧ path.accesses = as
  distinct : (pairs.map fun p => p.1.accesses).Nodup

/-- The second tree has one leaf more than the first, and all others where they were. -/
structure Gains (s t : Slot) (pair : Path × Value) : Prop where
  new : ∀ v, s.find? pair.1.accesses ≠ some (.leaf v)
  there : t.find? pair.1.accesses = some (.leaf pair.2)
  others : ∀ as, as ≠ pair.1.accesses → ∀ v, t.find? as = some (.leaf v) ↔ s.find? as = some (.leaf v)

section Storing
variable {s t root : Slot} {bodies : List SExpr} {pairs : List (Path × Value)} {pair : Path × Value}

theorem Stores.gains (hs : s.Stores pairs) (ht : t.Stores (pairs ++ [pair])) : s.Gains t pair where
  new v hv := by
    obtain ⟨path, hm, hp⟩ := hs.leaves.1 hv
    have hdistinct := ht.distinct
    rw [List.map_append, List.nodup_append] at hdistinct
    exact hdistinct.2.2 _ (List.mem_map_of_mem hm) _ (List.mem_map_of_mem (List.mem_singleton_self pair)) hp
  there := ht.leaves.2 ⟨pair.1, List.mem_append_right _ (List.mem_singleton_self pair), rfl⟩
  others as has v := by
    rw [ht.leaves, hs.leaves]
    refine exists_congr fun path => and_congr_left fun hp => ?_
    rw [List.mem_append, List.mem_singleton]
    refine or_iff_left fun h => has ?_
    rw [← hp, ← h]

/-- The moves to the leaf of a pair, and the leaf. -/
def pairSpot (p : Path × Value) : List Access × Value :=
  (p.1.accesses, p.2)

theorem ofAccesses_of_linePair {body : SExpr} (h : linePair body = .ok pair) :
    Path.ofAccesses pair.1.accesses = pair.1 := by
  rw [linePair] at h
  split at h
  · cases h
    rfl
  · exact Path.ofAccesses_accesses (Path.canonical_of_regular (regular_of_wrappedLeaf h))

theorem exists_linePair {body : SExpr} {spot : List Access × Value} (h : lineSpot? body = some spot) :
    ∃ pair, linePair body = .ok pair ∧ pairSpot pair = spot := by
  rw [linePair]
  split
  · rename_i hb
    rw [lineSpot?, if_pos hb, Option.some.injEq] at h
    exact ⟨_, rfl, h⟩
  · rename_i hb
    obtain ⟨path, hw, hpath⟩ := (lineSpot?_eq_some hb).1 h
    exact ⟨_, hw, Prod.ext hpath.symm rfl⟩

theorem exists_mapM_linePair {spots : List (List Access × Value)} (h : Reads lineSpot? bodies spots) :
    ∃ pairs, bodies.mapM linePair = .ok pairs ∧ pairs.map pairSpot = spots := by
  induction bodies generalizing spots with
  | nil => exact ⟨[], rfl, (Reads.nil_iff.1 h).symm⟩
  | cons body bodies ih =>
    obtain ⟨spot, rest, hspot, hrest, rfl⟩ := Reads.cons_iff.1 h
    obtain ⟨pair, hpair, hp⟩ := exists_linePair hspot
    obtain ⟨pairs, hpairs, hps⟩ := ih hrest
    refine ⟨pair :: pairs, ?_, by rw [List.map_cons, hp, hps]⟩
    rw [List.mapM_cons, hpair, hpairs]
    rfl

end Storing

/-! ## Lines one after another -/

section Assembly
variable {s t root : Slot} {body : SExpr} {bodies : List SExpr} {pairs : List (Path × Value)} {pair : Path × Value}

theorem stores_vacant : vacant.Stores [] where
  vacant hf := ⟨(vacant_find? hf).1, rfl⟩
  entries hf := nomatch (vacant_find? hf).2
  items hf := nomatch (vacant_find? hf).2
  isLeaf hf := nomatch (vacant_find? hf).2
  leaves := ⟨fun hf => (nomatch (vacant_find? hf).2), fun ⟨_, hm, _⟩ => nomatch hm⟩
  distinct := List.nodup_nil

theorem Grown.stores (hs : s.Grown) (hp : s.spots.Perm (pairs.map pairSpot)) (hd : Parted (pairs.map pairSpot)) :
    s.Stores pairs where
  vacant hf := nomatch hs.find? hf
  entries hf := by
    cases hs.find? hf with
    | mapping hne hn _ => exact ⟨hne, hn⟩
  items hf := by
    cases hs.find? hf with
    | sequence hne ha _ => exact ⟨hne, ha⟩
  isLeaf hf := by
    cases hs.find? hf with
    | leaf hv => exact hv
  leaves := by
    intro as v
    rw [hs.find?_eq_leaf, hp.mem_iff, List.mem_map]
    constructor
    · rintro ⟨⟨path, w⟩, hm, he⟩
      cases he
      exact ⟨path, hm, rfl⟩
    · rintro ⟨path, hm, rfl⟩
      exact ⟨_, hm, rfl⟩
  distinct := by
    have h := hd.distinct
    rwa [List.map_map] at h

theorem stores_of_holdsLeaves (h : HoldsLeaves (pairs.map pairSpot) root) : root.Stores pairs := by
  rcases h.growing with rfl | hg
  · rw [List.map_eq_nil_iff.1 h.perm.nil_eq.symm]
    exact stores_vacant
  · exact hg.stores h.perm h.parted

/-- Lines that build a tree each say a pair, and the tree stores these. -/
theorem exists_stores (h : treeOf bodies = .ok root) :
    ∃ pairs, bodies.mapM linePair = .ok pairs ∧ HoldsLeaves (pairs.map pairSpot) root := by
  obtain ⟨spots, hr, -, hh⟩ := insertsLeaves_insertLine.gathers.run .vacant .nil h
  obtain ⟨pairs, hpairs, rfl⟩ := exists_mapM_linePair hr
  exact ⟨pairs, hpairs, hh⟩

/-- What one more line does to a tree. -/
structure Added (s : Slot) (body : SExpr) (t : Slot) (done : List (Path × Value)) (pair : Path × Value) : Prop where
  inserted : s.insertLine body = .ok t
  said : linePair body = .ok pair
  before : s.Stores done
  after : t.Stores (done ++ [pair])
  gains : s.Gains t pair

theorem exists_added (hs : treeOf bodies = .ok s) (ht : insertLine body s = .ok t) : ∃ done pair,
    bodies.mapM linePair = .ok done ∧ Added s body t done pair := by
  obtain ⟨pairs, hpairs, hstores⟩ := exists_stores (treeOf_concat.2 ⟨s, hs, ht⟩)
  obtain ⟨done, pair, hdone, hpair, rfl⟩ := mapM_concat_eq_ok hpairs
  obtain ⟨done', hdone', hstores'⟩ := exists_stores hs
  rw [hdone, Except.ok.injEq] at hdone'
  subst hdone'
  have hbefore := stores_of_holdsLeaves hstores'
  have hafter := stores_of_holdsLeaves hstores
  exact ⟨done, pair, hdone, ht, hpair, hbefore, hafter, hbefore.gains hafter⟩

theorem Grown.finish_eq (hs : s.Grown) : s.finish = s.valueAt "" := by
  cases hs <;> rfl

/-- What holds of the tree that lines build. -/
structure Assembled (bodies : List SExpr) (root : Slot) (pairs : List (Path × Value)) : Prop where
  said : bodies.mapM linePair = .ok pairs
  /-- The moves to a leaf tell the path that its line has. -/
  paths : ∀ p ∈ pairs, Path.ofAccesses p.1.accesses = p.1
  stores : root.Stores pairs
  /-- A record without entries has no second line. -/
  alone : .symbol emptyMapping ∈ bodies → bodies = [.symbol emptyMapping] ∧ pairs = [([], .mapping [])]
  steps : ∀ before body after, bodies = before ++ body :: after → ∃ s t done pair,
    treeOf before = .ok s ∧ before.mapM linePair = .ok done ∧ Added s body t done pair
  occupied : ∀ {as s}, root.find? as = some s → s ≠ .vacant → ∀ place other, s.valueAt place ≠ .error (.vacant other)
  fails : ∀ {reason}, root.finish = .error reason → ∃ as items i,
    root.find? as = some (.sequence items) ∧ FirstGap 0 items i ∧ reason = .indexGap (as.foldl Access.place "") i
  succeeds : ∀ {v}, root.finish = .ok v → ∀ {as items i}, root.find? as = some (.sequence items) → ¬ FirstGap 0 items i

theorem alone_of_holdsLeaves (hpairs : bodies.mapM linePair = .ok pairs) (h : HoldsLeaves (pairs.map pairSpot) root)
    (hb : .symbol emptyMapping ∈ bodies) : bodies = [.symbol emptyMapping] ∧ pairs = [([], .mapping [])] := by
  have hsaid : linePair (.symbol emptyMapping) = .ok ([], .mapping []) := rfl
  have hm : ([], .mapping []) ∈ pairs := ((mapM_ok_mem hpairs).2 _).2 ⟨_, hb, hsaid⟩
  -- A spot at the root is apart from no other, so it is the only one.
  have hone := congrArg List.length (h.parted.eq_singleton (List.mem_map_of_mem (f := pairSpot) hm))
  rw [List.length_map, List.length_singleton, List.length_eq_one_iff] at hone
  obtain ⟨pair, rfl⟩ := hone
  cases bodies with
  | nil => cases hb
  | cons body rest =>
    obtain ⟨pair', pairs', hpair, hrest, he⟩ := mapM_cons_eq_ok hpairs
    cases he
    cases rest with
    | nil =>
      obtain rfl := List.mem_singleton.1 hb
      exact ⟨rfl, congrArg (fun p => [p]) (Except.ok.inj (hpair.symm.trans hsaid))⟩
    | cons body' rest =>
      obtain ⟨_, _, -, -, he⟩ := mapM_cons_eq_ok hrest
      cases he

/-- A tree that lines have built stores the leaves that they say, each line having added
its own. It has a value unless one of its sequences has a gap. -/
theorem assembled_exactly (bodies : List SExpr) (root : Slot) (h : treeOf bodies = .ok root) :
    ∃ pairs, Assembled bodies root pairs := by
  obtain ⟨pairs, hpairs, hh⟩ := exists_stores h
  exact ⟨pairs, {
    said := hpairs
    paths := by
      intro p hp
      obtain ⟨body, -, hbody⟩ := ((mapM_ok_mem hpairs).2 p).1 hp
      exact ofAccesses_of_linePair hbody
    stores := stores_of_holdsLeaves hh
    alone := alone_of_holdsLeaves hpairs hh
    steps := by
      rintro before body after rfl
      rw [treeOf, List.foldlM_append] at h
      obtain ⟨s, hs, h⟩ := bind_eq_ok.1 h
      obtain ⟨t, ht, -⟩ := foldlM_cons_eq_ok h
      obtain ⟨done, pair, hdone, hadded⟩ := exists_added hs ht
      exact ⟨s, t, done, pair, hs, hdone, hadded⟩
    occupied := by
      intro as s hf hne place other hv
      rcases hh.growing with rfl | hg
      · exact hne (vacant_find? hf).2
      · obtain ⟨_, _, _, -, -, hr⟩ := (hg.find? hf).exists_gap hv
        cases hr
    fails := by
      intro reason hr
      rcases hh.growing with rfl | hg
      · cases hr
      · exact hg.exists_gap (hg.finish_eq ▸ hr)
    succeeds := by
      intro v hv as items i hf
      rcases hh.growing with rfl | hg
      · cases (vacant_find? hf).2
      · exact hg.not_firstGap (hg.finish_eq ▸ hv) hf }⟩

end Assembly

/-- Items that come late, one of them after a gap. -/
def gapped : List SExpr :=
  [.list [.symbol "a", .number "1", .list [.symbol "x", .string "1"]],
    .list [.symbol "b", .symbol "\x7b\x7d"],
    .list [.symbol "a", .number "0", .list [.string "c d", .number "0", .number "2", .symbol "[]"]]]

theorem assembled_exactly_gapped : ∃ root, treeOf gapped = .ok root ∧
    Assembled gapped root [([.indexed "a" [1], .key "x"], .scalar (.string "1")), ([.key "b"], .mapping []),
      ([.indexed "a" [0], .indexed "c d" [0, 2]], .sequence [])] ∧
    root.finish = .error (.indexGap "a[0].c d[0]" 0) := by
  obtain ⟨root, hroot, hfinish⟩ : ∃ root, treeOf gapped = .ok root ∧
      root.finish = .error (.indexGap "a[0].c d[0]" 0) := ⟨_, rfl, rfl⟩
  obtain ⟨pairs, hpairs⟩ := assembled_exactly gapped root hroot
  have hsaid : gapped.mapM linePair = .ok [([.indexed "a" [1], .key "x"], .scalar (.string "1")),
      ([.key "b"], .mapping []), ([.indexed "a" [0], .indexed "c d" [0, 2]], .sequence [])] := rfl
  obtain rfl := Except.ok.inj (hsaid.symm.trans hpairs.said)
  exact ⟨root, hroot, hpairs, hfinish⟩

end Slot

end AtomLines.Json
