import AtomLines.Proofs.Json.Contents
/-!
# Decoded values at the depth limit

Whether a value can be written shows at each of its leaves: the indices of the last step
to it must leave room for the leaf. A line never carries more indices than a key can
have, but its leaf may be an empty sequence, which counts as one more when it is
written. So a decoded value can be written exactly if none of its lines has an empty
sequence under all the indices that a key can have.
-/

namespace AtomLines.Json

/-! ## Room for a leaf -/

/-- From under `n` sequences of a key the moves lead into none too many, and the leaf is none. -/
def HasRoom (n : Nat) : List Access → Value → Prop
  | [], leaf => n + leaf.nesting ≤ maxSequenceDepth
  | .key _ :: as, leaf => HasRoom 0 as leaf
  | .index _ :: as, leaf => n < maxSequenceDepth ∧ HasRoom (n + 1) as leaf

theorem forall_mem_into {P : List Access × Value → Prop} {a : Access} {places : List (List Access × Value)} :
    (∀ p ∈ into a places, P p) ↔ ∀ p ∈ places, P (a :: p.1, p.2) := by
  rw [into, List.forall_mem_map]

theorem hasRoom_itemPlaces {items : List Value} {n next : Nat} (hn : n < maxSequenceDepth)
    (h : ∀ v ∈ items, v.FitsUnder (n + 1) ↔ ∀ p ∈ v.places, HasRoom (n + 1) p.1 p.2) :
    (∀ p ∈ itemPlaces next items, HasRoom n p.1 p.2) ↔ ∀ v ∈ items, v.FitsUnder (n + 1) := by
  induction items generalizing next with
  | nil => simp [itemPlaces]
  | cons v items ih =>
    rw [List.forall_mem_cons] at h
    rw [itemPlaces, List.forall_mem_append, ih h.2, forall_mem_into, List.forall_mem_cons, h.1]
    simp only [HasRoom, hn, true_and]

theorem hasRoom_entryPlaces {entries : List (String × Value)} {n : Nat}
    (h : ∀ e ∈ entries, e.2.FitsUnder 0 ↔ ∀ p ∈ e.2.places, HasRoom 0 p.1 p.2) :
    (∀ p ∈ entryPlaces entries, HasRoom n p.1 p.2) ↔ ∀ e ∈ entries, e.2.FitsUnder 0 := by
  induction entries with
  | nil => simp [entryPlaces]
  | cons e entries ih =>
    rw [List.forall_mem_cons] at h
    rw [entryPlaces, List.forall_mem_append, ih h.2, forall_mem_into, List.forall_mem_cons, h.1]
    simp only [HasRoom]

/-- There is room for a value exactly if there is for each of its leaves. -/
theorem Value.fitsUnder_iff_places {v : Value} {n : Nat} (hn : n ≤ maxSequenceDepth) :
    v.FitsUnder n ↔ ∀ p ∈ v.places, HasRoom n p.1 p.2 := by
  induction v using Value.induct generalizing n with
  | scalar s =>
    rw [places, List.forall_mem_singleton]
    exact ⟨FitsUnder.nesting, fun h => ⟨shallow_scalar s, h⟩⟩
  | sequence items ih =>
    by_cases hi : items = []
    · subst hi
      rw [places, if_pos List.isEmpty_nil, List.forall_mem_singleton]
      exact ⟨FitsUnder.nesting, fun h => ⟨shallow_sequence.2 (List.forall_mem_nil _), h⟩⟩
    · by_cases hlt : n < maxSequenceDepth
      · rw [fitsUnder_sequence hlt, places_sequence hi]
        exact (hasRoom_itemPlaces hlt fun v hv => ih v hv hlt).symm
      · -- Every leaf of the items lies one sequence too deep.
        refine iff_of_false (not_fitsUnder_sequence (Nat.le_of_not_lt hlt)) fun h => ?_
        obtain ⟨v, items, rfl⟩ := List.exists_cons_of_ne_nil hi
        obtain ⟨p, hp⟩ := List.exists_mem_of_ne_nil _ v.places_ne_nil
        rw [places_sequence hi, itemPlaces, List.forall_mem_append, forall_mem_into] at h
        exact hlt (h.1 p hp).1
  | mapping entries ih =>
    rw [fitsUnder_mapping hn]
    by_cases he : entries = []
    · subst he
      rw [places, if_pos List.isEmpty_nil, List.forall_mem_singleton]
      exact iff_of_true (List.forall_mem_nil _) hn
    · rw [places_mapping he]
      exact (hasRoom_entryPlaces fun e he => ih e he (Nat.zero_le _)).symm

/-! ## Room below a path -/

theorem hasRoom_indices {is : List Nat} {as : List Access} {leaf : Value} {n : Nat}
    (hl : n + is.length ≤ maxSequenceDepth) :
    HasRoom n (is.map .index ++ as) leaf ↔ HasRoom (n + is.length) as leaf := by
  induction is generalizing n with
  | nil => exact .rfl
  | cons i is ih =>
    rw [List.length_cons] at hl
    have hlt : n < maxSequenceDepth := by omega
    rw [List.map_cons, List.cons_append, HasRoom, ih (by omega), List.length_cons, Nat.add_assoc, Nat.add_comm 1]
    exact and_iff_right hlt

/-- Only the last step to a leaf matters. -/
theorem hasRoom_path {path : Path} {step : Step} {leaf : Value} {n : Nat} (hp : ∀ s ∈ path ++ [step], s.Regular) :
    HasRoom n (Path.accesses (path ++ [step])) leaf ↔ step.indices.length + leaf.nesting ≤ maxSequenceDepth := by
  induction path generalizing n with
  | nil =>
    have hl := (hp step (List.mem_singleton_self _)).indices_le
    rw [List.nil_append, Path.accesses_cons, HasRoom, hasRoom_indices (by rwa [Nat.zero_add]), Nat.zero_add]
    exact .rfl
  | cons s path ih =>
    -- The next key starts from no sequences again, whatever this step leaves.
    rw [List.cons_append, List.forall_mem_cons] at hp
    have hl := hp.1.indices_le
    rw [List.cons_append, Path.accesses_cons, HasRoom, hasRoom_indices (by rwa [Nat.zero_add]), ih hp.2]

/-! ## Lines -/

/-- An empty sequence under all the indices that a key can carry. -/
def EmptyAtLimit (body : SExpr) : Prop :=
  ∃ path step, wrappedLeaf body = .ok (path ++ [step], .sequence []) ∧ step.indices.length = maxSequenceDepth

theorem emptyAtLimit_iff {body : SExpr} {path : Path} {step : Step} {leaf : Value}
    (hw : wrappedLeaf body = .ok (path ++ [step], leaf)) :
    EmptyAtLimit body ↔ leaf = .sequence [] ∧ step.indices.length = maxSequenceDepth := by
  constructor
  · rintro ⟨path', step', hw', hfull⟩
    rw [hw, Except.ok.injEq, Prod.mk.injEq] at hw'
    obtain ⟨-, hstep⟩ := List.append_inj' hw'.1 rfl
    cases hstep
    exact ⟨hw'.2, hfull⟩
  · rintro ⟨rfl, hfull⟩
    exact ⟨path, step, hw, hfull⟩

theorem Value.nesting_of_isLeaf {v : Value} (h : v.isLeaf = true) (hne : v ≠ sequence []) : v.nesting = 0 := by
  cases v with
  | scalar s => rw [nesting]
  | sequence items => exact absurd (by rw [List.isEmpty_iff.1 h]) hne
  | mapping entries => rw [nesting]

theorem hasRoom_lineSpot? {body : SExpr} {spot : List Access × Value} (h : lineSpot? body = some spot) :
    HasRoom 0 spot.1 spot.2 ↔ ¬ EmptyAtLimit body := by
  by_cases hb : body = .symbol emptyMapping
  · subst hb
    cases h
    exact iff_of_true (Nat.zero_le _) fun ⟨_, _, hw, _⟩ => by cases hw
  · obtain ⟨path, hw, hpath⟩ := (lineSpot?_eq_some hb).1 h
    have hregular := regular_of_wrappedLeaf hw
    obtain ⟨path, step, rfl⟩ := (List.eq_nil_or_concat' path).resolve_left (ne_nil_of_wrappedLeaf hw)
    have hl := (hregular step (by simp)).indices_le
    rw [hpath, hasRoom_path hregular, emptyAtLimit_iff hw]
    by_cases hleaf : spot.2 = .sequence []
    · have hone : spot.2.nesting = 1 := by
        rw [hleaf]
        rfl
      rw [hone, and_iff_right hleaf]
      omega
    · rw [Value.nesting_of_isLeaf (isLeaf_of_lineSpot? h) hleaf]
      exact iff_of_true hl fun hfull => hleaf hfull.1

/-! ## Decoded values -/

/-- A decoded document is a record unless one of its lines is at the limit. -/
theorem isRecord_of_decodeDocument {lines : List SExpr} {v : Value} (h : decodeDocument lines = .ok v) :
    v.IsRecord ↔ ∀ body ∈ lines, ¬ EmptyAtLimit body := by
  obtain ⟨spots, entries, hr, rfl, hplaces⟩ := places_of_decodeDocument h
  have hspots : (∀ p ∈ spots, HasRoom 0 p.1 p.2) ↔ ∀ body ∈ lines, ¬ EmptyAtLimit body := by
    constructor
    · intro hroom body hbody
      obtain ⟨spot, hspot⟩ := Reads.exists_iff.1 ⟨spots, hr⟩ body hbody
      exact (hasRoom_lineSpot? hspot).1 (hroom spot (hr.mem_of_mem hbody hspot))
    · intro hlines p hp
      obtain ⟨body, hbody, hspot⟩ := hr.exists_of_mem hp
      exact (hasRoom_lineSpot? hspot).2 (hlines body hbody)
  rw [Value.isRecord_mapping, Value.fitsUnder_iff_places (Nat.zero_le _), ← hspots]
  rcases hplaces with ⟨rfl, rfl⟩ | hperm
  · exact iff_of_true (by simp [Value.places, HasRoom, Value.nesting]) (List.forall_mem_nil _)
  · simp only [hperm.mem_iff]

/-- A decoded document can be written, and so can a decoded record, exactly if none of its
lines has an empty sequence under all the indices that a key can carry. -/
theorem decoded_can_be_written (marker : String) (lines : List SExpr) :
    (∀ v, decodeDocument lines = .ok v →
      ((∃ out, encodeDocument v = .ok out) ↔ ∀ body ∈ lines, ¬ EmptyAtLimit body)) ∧
    ∀ rs, decodeRecords marker lines = .ok rs → ∀ i v, (i, v) ∈ rs → ∀ marker' record,
      ((∃ out, encodeRecord marker' record v = .ok out) ↔ ∀ body ∈ bodiesOf marker i lines, ¬ EmptyAtLimit body) := by
  constructor
  · intro v h
    rw [← isRecord_of_decodeDocument h]
    exact Value.bodies_succeeds_iff 0
  · intro rs h i v hv marker' record
    rw [← isRecord_of_decodeDocument (decodeDocument_of_mem h hv)]
    exact encodeRecord_succeeds_iff marker' record

/-- A leaf under four indices. -/
def atLimit (leaf : SExpr) : SExpr :=
  .list [.symbol "a", .number "0", .number "0", .number "0", .number "0", leaf]

def belowFour (leaf : Value) : Value :=
  .mapping [("a", .sequence [.sequence [.sequence [.sequence [leaf]]]])]

/-- Next to a record with a scalar at the limit one with an empty sequence there. -/
def recordsAtLimit : List SExpr :=
  [recordLine "json" 3 (atLimit (.number "7")), recordLine "json" 0 (atLimit (.symbol emptySequence))]

theorem decoded_can_be_written_at_limit :
    decodeRecords "json" recordsAtLimit =
      .ok [(0, belowFour (.sequence [])), (3, belowFour (.scalar (.number (.integer 7))))] ∧
    (∃ out, encodeRecord "json" 3 (belowFour (.scalar (.number (.integer 7)))) = .ok out) ∧
    ¬ ∃ out, encodeRecord "json" 0 (belowFour (.sequence [])) = .ok out := by
  have hdecode : decodeRecords "json" recordsAtLimit =
      .ok [(0, belowFour (.sequence [])), (3, belowFour (.scalar (.number (.integer 7))))] := rfl
  have hwritten := (decoded_can_be_written "json" recordsAtLimit).2 _ hdecode
  refine ⟨hdecode, ?_, ?_⟩
  · refine (hwritten 3 _ (by simp) "json" 3).2 fun body hb => ?_
    have hbodies : bodiesOf "json" 3 recordsAtLimit = [atLimit (.number "7")] := rfl
    have hseven : wrappedLeaf (atLimit (.number "7")) =
        .ok ([] ++ [.indexed "a" [0, 0, 0, 0]], .scalar (.number (.integer 7))) := rfl
    rw [hbodies, List.mem_singleton] at hb
    rw [hb, emptyAtLimit_iff hseven]
    simp
  · rw [hwritten 0 _ (by simp) "json" 0]
    intro hnone
    have hmem : atLimit (.symbol emptySequence) ∈ bodiesOf "json" 0 recordsAtLimit := List.mem_singleton.2 rfl
    exact hnone _ hmem ⟨[], .indexed "a" [0, 0, 0, 0], rfl, rfl⟩

/-- A decoded document that cannot be written. -/
theorem empty_sequence_at_limit : decodeDocument [atLimit (.symbol emptySequence)] = .ok (belowFour (.sequence [])) ∧
    encodeDocument (belowFour (.sequence [])) = .error (.depthExceeded 0 "a" (maxSequenceDepth + 1)) := ⟨rfl, rfl⟩

end AtomLines.Json
