import AtomLines.Proofs.Json.DepthFirst
import AtomLines.Proofs.Json.LineOrder
import AtomLines.Proofs.Json.Records
import AtomLines.Proofs.Json.Unwrapped
/-!
# What decoding keeps

The leaves of a decoded value are those that its lines say, no more and no fewer, each
on the path of its line. The finished tree has its leaves where the slots hold them, and
unwrapping gives paths that their moves tell.
-/

namespace AtomLines.Json

/-! ## What a wrapped leaf says -/

/-- The path and the leaf that an expression wraps. -/
def wrappedLeaf (body : SExpr) : Except Malformation (Path × Value) := do
  let (path, atom) ← Path.unwrap body
  return (path, ← Value.ofAtom atom)

theorem wrappedLeaf_eq_ok {body : SExpr} {path : Path} {v : Value} :
    wrappedLeaf body = .ok (path, v) ↔ ∃ atom, Path.unwrap body = .ok (path, atom) ∧ Value.ofAtom atom = .ok v := by
  simp only [wrappedLeaf, bind_eq_ok, Prod.exists]
  constructor
  · rintro ⟨path', atom, hu, v', hv, h⟩
    cases h
    exact ⟨atom, hu, hv⟩
  · rintro ⟨atom, hu, hv⟩
    exact ⟨path, atom, hu, v, hv, rfl⟩

theorem lineSpot?_eq_some {body : SExpr} (hb : body ≠ .symbol emptyMapping) {spot : List Access × Value} :
    lineSpot? body = some spot ↔ ∃ path, wrappedLeaf body = .ok (path, spot.2) ∧ spot.1 = path.accesses := by
  rw [lineSpot?, if_neg hb]
  simp only [wrappedLeaf_eq_ok]
  constructor
  · intro h
    split at h
    · cases h
    · split at h
      · cases h
      · rename_i path atom hu _ v hv
        cases h
        exact ⟨path, ⟨atom, hu, hv⟩, rfl⟩
  · rintro ⟨path, ⟨atom, hu, hv⟩, h⟩
    rw [hu]
    simp only [hv, ← h]

theorem regular_of_wrappedLeaf {body : SExpr} {path : Path} {v : Value} (h : wrappedLeaf body = .ok (path, v)) :
    ∀ s ∈ path, s.Regular := by
  obtain ⟨atom, hu, -⟩ := wrappedLeaf_eq_ok.1 h
  exact Path.regular_of_peel (Path.unwrap_eq_ok.1 hu).1

theorem ne_nil_of_wrappedLeaf {body : SExpr} {path : Path} {v : Value} (h : wrappedLeaf body = .ok (path, v)) :
    path ≠ [] := by
  obtain ⟨atom, hu, -⟩ := wrappedLeaf_eq_ok.1 h
  exact (Path.unwrap_eq_ok.1 hu).2

/-- What a line says is told by the moves to its spot. -/
theorem wrappedLeaf_of_lineSpot? {body : SExpr} (hb : body ≠ .symbol emptyMapping) {spot : List Access × Value}
    (h : lineSpot? body = some spot) : wrappedLeaf body = .ok (pairOf spot) := by
  obtain ⟨path, hw, hpath⟩ := (lineSpot?_eq_some hb).1 h
  rw [hw, pairOf, hpath, Path.ofAccesses_accesses (Path.canonical_of_regular (regular_of_wrappedLeaf hw))]

theorem mapM_wrappedLeaf {lines : List SExpr} (hb : .symbol emptyMapping ∉ lines) {spots : List (List Access × Value)}
    (hr : Reads lineSpot? lines spots) : lines.mapM wrappedLeaf = .ok (spots.map pairOf) := by
  induction lines generalizing spots with
  | nil =>
    rw [Reads.nil_iff.1 hr]
    rfl
  | cons body lines ih =>
    obtain ⟨spot, rest, hspot, hrest, rfl⟩ := Reads.cons_iff.1 hr
    rw [List.mem_cons, not_or] at hb
    obtain ⟨hne, hb⟩ := hb
    rw [List.mapM_cons, wrappedLeaf_of_lineSpot? (Ne.symm hne) hspot, ih hb hrest]
    rfl

/-! ## The places of a finished tree -/

namespace Slot

theorem itemPlaces_of_itemValues {items : List (Nat × Slot)}
    (h : ∀ e ∈ items, ∀ {place v}, e.2.valueAt place = .ok v → v.places = e.2.spots) {place : String} {next : Nat}
    {vs : List Value} (hv : itemValues place next items = .ok vs) : itemPlaces next vs = spotsUnder .index items := by
  induction items generalizing next vs with
  | nil =>
    cases hv
    rfl
  | cons e items ih =>
    obtain ⟨i, s⟩ := e
    rw [List.forall_mem_cons] at h
    rw [itemValues] at hv
    split at hv
    · rename_i hi
      simp only [bind_eq_ok] at hv
      obtain ⟨v, hv, vs, hvs, hcons⟩ := hv
      cases hcons
      rw [itemPlaces, ih h.2 hvs, h.1 hv, ← hi]
      rfl
    · cases hv

theorem entryPlaces_of_entryValues {entries : List (String × Slot)}
    (h : ∀ e ∈ entries, ∀ {place v}, e.2.valueAt place = .ok v → v.places = e.2.spots) {place : String}
    {vs : List (String × Value)} (hv : entryValues place entries = .ok vs) :
    entryPlaces vs = spotsUnder .key entries := by
  induction entries generalizing vs with
  | nil =>
    cases hv
    rfl
  | cons e entries ih =>
    obtain ⟨k, s⟩ := e
    rw [List.forall_mem_cons] at h
    simp only [entryValues, bind_eq_ok] at hv
    obtain ⟨v, hv, vs, hvs, hcons⟩ := hv
    cases hcons
    rw [entryPlaces, ih h.2 hvs, h.1 hv]
    rfl

/-- The value of a tree has its leaves where the tree has them. -/
theorem Grown.places_of_valueAt {s : Slot} (hs : s.Grown) {place : String} {v : Value} (h : s.valueAt place = .ok v) :
    v.places = s.spots := by
  induction hs generalizing place v with
  | leaf hleaf =>
    rw [valueAt, Except.ok.injEq] at h
    subst h
    exact Value.places_of_isLeaf hleaf
  | @mapping entries hne hn hg ih =>
    -- Some entry has a leaf, so the mapping is not read as a leaf itself.
    rw [valueAt] at h
    obtain ⟨vs, hvs, rfl⟩ := map_eq_ok.1 h
    have hplaces := entryPlaces_of_entryValues (fun e he => ih e he) hvs
    rw [← ofEntries_of_ne_nil hne, spots_ofEntries, ← hplaces]
    apply Value.places_mapping
    rintro rfl
    exact spotsUnder_ne_nil hne (fun e he => (hg e he).spots_ne_nil) hplaces.symm
  | @sequence items hne ha hg ih =>
    rw [valueAt] at h
    obtain ⟨vs, hvs, rfl⟩ := map_eq_ok.1 h
    have hplaces := itemPlaces_of_itemValues (fun e he => ih e he) hvs
    rw [← ofItems_of_ne_nil hne, spots_ofItems, ← hplaces]
    apply Value.places_sequence
    rintro rfl
    exact spotsUnder_ne_nil hne (fun e he => (hg e he).spots_ne_nil) hplaces.symm

end Slot

/-! ## Documents -/

/-- The empty mapping at the root, or a leaf under a key. -/
def Rooted (spot : List Access × Value) : Prop :=
  spot = ([], .mapping []) ∨ ∃ k as, spot.1 = .key k :: as

theorem key_of_lineSpot? {body : SExpr} (hb : body ≠ .symbol emptyMapping) {spot : List Access × Value}
    (h : lineSpot? body = some spot) : ∃ k as, spot.1 = .key k :: as := by
  obtain ⟨path, hw, hpath⟩ := (lineSpot?_eq_some hb).1 h
  obtain ⟨s, path, rfl⟩ := List.exists_cons_of_ne_nil (ne_nil_of_wrappedLeaf hw)
  exact ⟨s.name, _, hpath.trans (Path.accesses_cons s path)⟩

theorem rooted_of_lineSpot? {body : SExpr} {spot : List Access × Value} (h : lineSpot? body = some spot) :
    Rooted spot := by
  by_cases hb : body = .symbol emptyMapping
  · rw [lineSpot?, if_pos hb] at h
    exact .inl (Option.some.inj h).symm
  · exact .inr (key_of_lineSpot? hb h)

/-- A tree of leaves under keys is finished as a mapping that has these leaves, or as the
empty mapping if there are none. -/
theorem Slot.Growing.places_of_finish {s : Slot} (hs : s.Growing) (hr : ∀ p ∈ s.spots, Rooted p) {v : Value}
    (h : s.finish = .ok v) :
    ∃ entries, v = .mapping entries ∧ (s.spots = [] ∧ entries = [] ∨ (Value.mapping entries).places = s.spots) := by
  rcases hs with rfl | hs
  · cases h
    exact ⟨[], rfl, .inl ⟨rfl, rfl⟩⟩
  · have hvalue : s.valueAt "" = .ok v := by
      cases hs <;> exact h
    have hplaces := hs.places_of_valueAt hvalue
    obtain ⟨p, hp⟩ := List.exists_mem_of_ne_nil _ hs.spots_ne_nil
    cases hs with
    | leaf =>
      cases hvalue
      rcases hr _ (List.mem_singleton_self _) with hp | ⟨k, as, hp⟩
      · cases hp
        exact ⟨[], rfl, .inr hplaces⟩
      · cases hp
    | mapping hne hn hg =>
      rw [valueAt] at hvalue
      obtain ⟨vs, -, rfl⟩ := map_eq_ok.1 hvalue
      exact ⟨vs, rfl, .inr hplaces⟩
    | sequence hne ha hg =>
      -- The leaves of a sequence lie under indices, and no line has such a path.
      have hkind := (Grown.sequence hne ha hg).kind_eq_kindOf hp
      rcases hr p hp with rfl | ⟨k, as, hk⟩
      · cases hkind
      · rw [hk] at hkind
        cases hkind

/-- A decoded document has just the leaves that its lines say. -/
theorem places_of_decodeDocument {lines : List SExpr} {v : Value} (h : decodeDocument lines = .ok v) :
    ∃ spots entries, Reads lineSpot? lines spots ∧ v = .mapping entries ∧
      (spots = [] ∧ entries = [] ∨ (Value.mapping entries).places.Perm spots) := by
  obtain ⟨root, hroot, hf⟩ := decodeDocument_eq_ok.1 h
  obtain ⟨spots, hr, -, hh⟩ := insertsLeaves_insertLine.gathers.run .vacant .nil hroot
  have hrooted : ∀ p ∈ root.spots, Rooted p := by
    intro p hp
    obtain ⟨body, -, hb⟩ := hr.exists_of_mem (hh.perm.mem_iff.1 hp)
    exact rooted_of_lineSpot? hb
  obtain ⟨entries, hv, hplaces⟩ := hh.growing.places_of_finish hrooted hf
  refine ⟨spots, entries, hr, hv, hplaces.imp ?_ ?_⟩
  · rintro ⟨hnone, he⟩
    exact ⟨(hnone ▸ hh.perm).nil_eq.symm, he⟩
  · intro he
    exact he ▸ hh.perm

/-- Decoding neither loses nor invents leaves. -/
theorem decoding_keeps_leaves (lines : List SExpr) (v : Value) (hb : .symbol emptyMapping ∉ lines)
    (h : decodeDocument lines = .ok v) : ∃ entries pairs, v = .mapping entries ∧ lines.mapM wrappedLeaf = .ok pairs ∧
      ∀ record w ls, Walk.start record v = .ok w → w.Yields ls → (ls.map PlacedLeaf.pair).Perm pairs := by
  obtain ⟨spots, entries, hr, rfl, hplaces⟩ := places_of_decodeDocument h
  refine ⟨entries, spots.map pairOf, rfl, mapM_wrappedLeaf hb hr, fun record w ls hw hls => ?_⟩
  rw [Walk.pairs_of_yields hw hls]
  apply List.Perm.map
  rcases hplaces with ⟨rfl, rfl⟩ | hperm
  · exact .refl _
  · -- The whole document is no leaf, for no line is the empty mapping.
    have hne : entries ≠ [] := by
      rintro rfl
      have hmem : ([], Value.mapping []) ∈ spots := hperm.mem_iff.1 (List.mem_singleton_self _)
      obtain ⟨body, hbody, hspot⟩ := hr.exists_of_mem hmem
      obtain ⟨k, as, hkey⟩ := key_of_lineSpot? (fun he => hb (he ▸ hbody)) hspot
      cases hkey
    rwa [Value.places_mapping hne] at hperm

/-- Items that come late, next to an empty sequence and to other keys. -/
def scattered : List SExpr :=
  [.list [.symbol "a", .number "1", .list [.symbol "x", .string "1"]],
    .list [.symbol "b", .symbol "\x7b\x7d"],
    .list [.symbol "a", .number "0", .number "0", .symbol "[]"],
    .list [.symbol "a", .number "1", .list [.symbol "y", .symbol "true"]]]

def scatteredLeaves : List PlacedLeaf :=
  [⟨0, [.indexed "a" [0, 0]], .sequence []⟩, ⟨0, [.indexed "a" [1], .key "x"], .scalar (.string "1")⟩,
    ⟨0, [.indexed "a" [1], .key "y"], .scalar (.boolean true)⟩, ⟨0, [.key "b"], .mapping []⟩]

theorem decoding_keeps_leaves_scattered : .symbol emptyMapping ∉ scattered ∧ ∃ v w pairs,
    decodeDocument scattered = .ok v ∧ Walk.start 0 v = .ok w ∧ w.Yields scatteredLeaves ∧
    scattered.mapM wrappedLeaf = .ok pairs ∧ (scatteredLeaves.map PlacedLeaf.pair).Perm pairs := by
  have hb : .symbol emptyMapping ∉ scattered := by simp [scattered]
  obtain ⟨v, w, hv, hw, hyields⟩ : ∃ v w, decodeDocument scattered = .ok v ∧ Walk.start 0 v = .ok w ∧
      w.Yields scatteredLeaves := ⟨_, _, rfl, rfl, Walk.yields_iff.2 rfl⟩
  obtain ⟨entries, pairs, -, hpairs, hwalk⟩ := decoding_keeps_leaves scattered v hb hv
  exact ⟨hb, v, w, pairs, hv, hw, hyields, hpairs, hwalk 0 w _ hw hyields⟩

end AtomLines.Json
