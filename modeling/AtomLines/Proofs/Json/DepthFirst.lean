import AtomLines.Proofs.Json.Depth
import AtomLines.Proofs.Json.Places
import AtomLines.Proofs.Json.Walk
/-!
# A walk goes depth first

The places of a value are its leaves in depth-first order, however deep its sequences
nest. A walk answers with them one by one, up to the first leaf that lies in a sequence
inside `maxSequenceDepth` others under one key, or is such a sequence itself. There it
fails with that key, and from then on it answers nothing.
-/

namespace AtomLines.Json

/-! ## Errors in a list -/

section UpToError
variable {ε α : Type} {xs xs' ys ys' : List (Except ε α)}

theorem upToError_upToError (xs : List (Except ε α)) : upToError (upToError xs) = upToError xs := by
  induction xs with
  | nil => rfl
  | cons x xs ih =>
    cases x with
    | error e => rfl
    | ok a => rw [upToError, upToError, ih]

theorem upToError_append_left (xs ys : List (Except ε α)) : upToError (upToError xs ++ ys) = upToError (xs ++ ys) := by
  induction xs with
  | nil => rfl
  | cons x xs ih =>
    cases x with
    | error e => rfl
    | ok a => rw [upToError, List.cons_append, List.cons_append, upToError, upToError, ih]

theorem upToError_append_right (xs ys : List (Except ε α)) : upToError (xs ++ upToError ys) = upToError (xs ++ ys) := by
  induction xs with
  | nil => exact upToError_upToError ys
  | cons x xs ih =>
    cases x with
    | error e => rfl
    | ok a => rw [List.cons_append, List.cons_append, upToError, upToError, ih]

theorem upToError_append_congr (h : upToError xs = upToError xs') (h' : upToError ys = upToError ys') :
    upToError (xs ++ ys) = upToError (xs' ++ ys') := by
  rw [← upToError_append_left, h, upToError_append_left, ← upToError_append_right, h', upToError_append_right]

theorem upToError_ok_append_error (as : List α) (e : ε) (rest : List (Except ε α)) :
    upToError (as.map .ok ++ .error e :: rest) = as.map .ok ++ [.error e] := by
  induction as with
  | nil => rfl
  | cons a as ih => rw [List.map_cons, List.cons_append, upToError, ih, List.cons_append]

end UpToError

/-! ## Keys with too many sequences -/

namespace Path

/-- The first key on a path that carries more sequences than it may. Every index leads into
one of them, and the leaf may be one more. -/
def crowdedKey? (leaf : Value) : Path → Option String
  | [] => none
  | s :: p =>
    if maxSequenceDepth < s.indices.length + (if p.isEmpty then leaf.nesting else 0) then some s.name
    else crowdedKey? leaf p

/-- No step of the path has more indices than a key can carry. -/
def Within (p : Path) : Prop :=
  ∀ s ∈ p, s.indices.length ≤ maxSequenceDepth

theorem crowdedKey?_append {p q : Path} (hp : p.Within) (hq : q ≠ []) (leaf : Value) :
    crowdedKey? leaf (p ++ q) = crowdedKey? leaf q := by
  induction p with
  | nil => rfl
  | cons s p ih =>
    obtain ⟨hs, hp⟩ := List.forall_mem_cons.1 hp
    have he : (p ++ q).isEmpty = false := by simp [hq]
    rw [List.cons_append, crowdedKey?, he, if_neg (by simpa using hs), ih hp]

theorem Within.concat {p : Path} (h : p.Within) {key : String} {indices : List Nat}
    (hi : indices.length ≤ maxSequenceDepth) : Within (p ++ [Step.of key indices]) := by
  intro s hs
  rcases List.mem_append.1 hs with hs | hs
  · exact h s hs
  · rwa [List.mem_singleton.1 hs, Step.indices_of]

theorem resume_accesses_append {p : Path} (h : p.Canonical) {as : List Access} (ha : (resume as).1 = []) :
    resume (p.accesses ++ as) = ([], p ++ (resume as).2) := by
  induction p with
  | nil => exact Prod.ext ha rfl
  | cons s p ih =>
    obtain ⟨hs, hp⟩ := List.forall_mem_cons.1 h
    rw [accesses_cons, List.cons_append, List.append_assoc, resume, resume_indices, ih hp, List.append_nil, hs]
    rfl

end Path

section
variable {record : Nat} {path : Path} {key : String} {indices : List Nat}

/-- Further indices belong to the same key. -/
theorem pairOf_movesTo (hp : path.Canonical) (as : List Access) (leaf : Value) :
    pairOf (movesTo path key indices ++ as, leaf) =
      (path ++ Step.of key (indices ++ (Path.resume as).1) :: (Path.resume as).2, leaf) := by
  have hstep : Path.resume (.key key :: (indices.map .index ++ as)) =
      ([], Step.of key (indices ++ (Path.resume as).1) :: (Path.resume as).2) := by
    rw [Path.resume, Path.resume_indices]
  have hmoves : movesTo path key indices ++ as = path.accesses ++ .key key :: (indices.map .index ++ as) := by
    simp [movesTo, Path.accesses, Step.accesses_of]
  rw [pairOf, hmoves, Path.ofAccesses, Path.resume_accesses_append hp (by rw [hstep]), hstep]

theorem Path.crowdedKey?_step (hp : path.Within) (is : List Nat) (q : Path) (leaf : Value)
    (h : maxSequenceDepth < (indices ++ is).length + (if q.isEmpty then leaf.nesting else 0)) :
    crowdedKey? leaf (path ++ Step.of key (indices ++ is) :: q) = some key := by
  rw [crowdedKey?_append hp (List.cons_ne_nil _ _), crowdedKey?, Step.indices_of, if_pos h, Step.name_of]

/-! ## Answers at the places -/

/-- The answer of a walk at a leaf. -/
def outcome (record : Nat) (l : Path × Value) : Except RecordError PlacedLeaf :=
  match Path.crowdedKey? l.2 l.1 with
  | some key => .error (.depthExceeded record key (maxSequenceDepth + 1))
  | none => .ok ⟨record, l.1, l.2⟩

/-- The leaves that are found are those at the places below the moves, up to the first one
under a key with too many sequences. -/
def Meets (record : Nat) (moves : List Access) (places : List (List Access × Value)) (found : Leaves) : Prop :=
  upToError found = upToError ((places.map fun p => pairOf (moves ++ p.1, p.2)).map (outcome record))

namespace Meets

theorem nil (moves : List Access) : Meets record moves [] [] := rfl

theorem append {moves : List Access} {s s' : List (List Access × Value)} {f f' : Leaves} (h : Meets record moves s f)
    (h' : Meets record moves s' f') : Meets record moves (s ++ s') (f ++ f') := by
  rw [Meets, List.map_append, List.map_append]
  exact upToError_append_congr h h'

/-- The last of the moves may as well be the first one of each place. -/
theorem into {moves : List Access} {a : Access} {s : List (List Access × Value)} {f : Leaves}
    (h : Meets record (moves ++ [a]) s f) : Meets record moves (into a s) f := by
  rw [Meets, h]
  simp [Json.into, Function.comp_def]

end Meets

theorem meets_leaf (hp : path.Canonical) (hw : path.Within) {leaf : Value}
    (hl : indices.length + leaf.nesting ≤ maxSequenceDepth) :
    Meets record (movesTo path key indices) [([], leaf)] [.ok ⟨record, path ++ [Step.of key indices], leaf⟩] := by
  have hroom : Path.crowdedKey? leaf (path ++ [Step.of key indices]) = none := by
    rw [Path.crowdedKey?_append hw (List.cons_ne_nil _ _), Path.crowdedKey?, Step.indices_of,
      if_neg (by simpa using hl), Path.crowdedKey?]
  rw [Meets, List.map_singleton, List.map_singleton, pairOf_movesTo hp, outcome]
  simp [Path.resume, hroom]

/-- A sequence under as many indices as a key can carry: all its leaves lie too deep. -/
theorem meets_crowded (hp : path.Canonical) (hw : path.Within) (hi : indices.length = maxSequenceDepth)
    (items : List Value) : Meets record (movesTo path key indices) (Value.sequence items).places
      [.error (.depthExceeded record key (indices.length + 1))] := by
  obtain ⟨p, places, hplaces, hfirst⟩ : ∃ p places, (Value.sequence items).places = p :: places ∧
      maxSequenceDepth < (indices ++ (Path.resume p.1).1).length +
        (if (Path.resume p.1).2.isEmpty then p.2.nesting else 0) := by
    cases items with
    | nil =>
      refine ⟨([], .sequence []), [], Value.places_of_isLeaf rfl, ?_⟩
      simp [Path.resume, Value.nesting, hi]
    | cons v items =>
      obtain ⟨q, places, hq⟩ := List.exists_cons_of_ne_nil v.places_ne_nil
      refine ⟨(.index 0 :: q.1, q.2), _, by rw [Value.places_sequence (List.cons_ne_nil _ _), itemPlaces, hq]; rfl, ?_⟩
      rw [Path.resume, List.length_append, List.length_cons]
      omega
  rw [Meets, hplaces, List.map_cons, List.map_cons, pairOf_movesTo hp, outcome,
    Path.crowdedKey?_step hw _ _ _ hfirst, hi]
  rfl

theorem meets_itemLeaves {items : List Value} {next : Nat}
    (h : ∀ v ∈ items, ∀ i, Meets record (movesTo path key (indices ++ [i])) v.places
      (leavesAt record path key (indices ++ [i]) v)) :
    Meets record (movesTo path key indices) (itemPlaces next items) (itemLeaves record path key indices next items) := by
  induction items generalizing next with
  | nil => exact .nil _
  | cons v items ih =>
    rw [List.forall_mem_cons] at h
    rw [itemPlaces, itemLeaves]
    refine .append (.into ?_) (ih h.2)
    rw [← movesTo_index]
    exact h.1 next

theorem meets_entryLeaves {entries : List (String × Value)}
    (h : ∀ e ∈ entries, Meets record (movesTo path e.1 []) e.2.places (leavesAt record path e.1 [] e.2)) :
    Meets record path.accesses (entryPlaces entries) (entryLeaves record path entries) := by
  induction entries with
  | nil => exact .nil _
  | cons e entries ih =>
    obtain ⟨k, v⟩ := e
    rw [List.forall_mem_cons] at h
    rw [entryPlaces, entryLeaves]
    refine .append (.into ?_) (ih h.2)
    rw [← movesTo_key]
    exact h.1

theorem meets_leavesAt {v : Value} (hp : path.Canonical) (hw : path.Within) (hi : indices.length ≤ maxSequenceDepth) :
    Meets record (movesTo path key indices) v.places (leavesAt record path key indices v) := by
  induction v using Value.induct generalizing path key indices with
  | scalar s =>
    rw [leavesAt, Value.places]
    exact meets_leaf hp hw hi
  | sequence items ih =>
    rw [leavesAt]
    split
    · rename_i hfull
      exact meets_crowded hp hw (Nat.le_antisymm hi hfull) items
    · rename_i hroom
      rw [Value.places]
      split
      · exact meets_leaf hp hw (Nat.lt_of_not_le hroom)
      · refine meets_itemLeaves fun v hv i => ih v hv hp hw ?_
        rw [List.length_append, List.length_singleton]
        exact Nat.lt_of_not_le hroom
  | mapping entries ih =>
    rw [leavesAt, Value.places]
    split
    · exact meets_leaf hp hw hi
    · exact meets_entryLeaves fun e he => ih e he (hp.concat key indices) (hw.concat hi) (Nat.zero_le _)

end

/-! ## Walks -/

/-- The leaves under the keys of a mapping in depth-first order, each with its path. -/
def pathLeaves (entries : List (String × Value)) : List (Path × Value) :=
  (entryPlaces entries).map pairOf

theorem upToError_entryLeaves (record : Nat) (entries : List (String × Value)) :
    upToError (entryLeaves record [] entries) = upToError ((pathLeaves entries).map (outcome record)) := by
  have hmeets : Meets record [] (entryPlaces entries) (entryLeaves record [] entries) :=
    meets_entryLeaves fun e _ => meets_leavesAt nofun nofun (Nat.zero_le _)
  exact hmeets

theorem outcome_eq_ok {record : Nat} {l : Path × Value} {found : PlacedLeaf} :
    outcome record l = .ok found ↔ Path.crowdedKey? l.2 l.1 = none ∧ found = ⟨record, l.1, l.2⟩ := by
  rw [outcome]
  cases Path.crowdedKey? l.2 l.1 <;> simp [eq_comm]

theorem outcome_eq_error {record : Nat} {l : Path × Value} {e : RecordError} : outcome record l = .error e ↔
    ∃ key, Path.crowdedKey? l.2 l.1 = some key ∧ e = .depthExceeded record key (maxSequenceDepth + 1) := by
  rw [outcome]
  cases Path.crowdedKey? l.2 l.1 <;> simp [eq_comm]

/-- The leaves whose outcomes are no errors, as they are found. -/
theorem map_outcome_eq_ok {record : Nat} {ls : List (Path × Value)} {found : List PlacedLeaf}
    (h : ls.map (outcome record) = found.map .ok) :
    (∀ l ∈ ls, Path.crowdedKey? l.2 l.1 = none) ∧ found = ls.map fun l => ⟨record, l.1, l.2⟩ := by
  induction ls generalizing found with
  | nil => exact ⟨nofun, List.map_eq_nil_iff.1 h.symm⟩
  | cons l ls ih =>
    obtain ⟨x, found, rfl, hx, hfound⟩ := List.map_eq_cons_iff.1 h.symm
    obtain ⟨hl, rfl⟩ := outcome_eq_ok.1 hx.symm
    obtain ⟨hls, rfl⟩ := ih hfound.symm
    exact ⟨List.forall_mem_cons.2 ⟨hl, hls⟩, rfl⟩

namespace Walk

variable {record : Nat} {entries : List (String × Value)} {w : Walk}

theorem rest_of_start (hw : start record (.mapping entries) = .ok w) :
    w.rest = upToError ((pathLeaves entries).map (outcome record)) := by
  have hrest := map_rest_start record (.mapping entries)
  rw [hw] at hrest
  exact (Except.ok.inj hrest).trans (upToError_entryLeaves record entries)

/-- A walk of a mapping that meets no error yields the leaves at its places. -/
theorem pairs_of_yields {ls : List PlacedLeaf} (hw : start record (.mapping entries) = .ok w) (h : w.Yields ls) :
    ls.map PlacedLeaf.pair = (entryPlaces entries).map pairOf := by
  have hall : collect ((pathLeaves entries).map (outcome record)) = .ok ls := by
    rw [← collect_upToError, ← rest_of_start hw, yields_iff.1 h]
    exact collect_eq_ok.2 rfl
  obtain ⟨-, rfl⟩ := map_outcome_eq_ok (collect_eq_ok.1 hall)
  simp [PlacedLeaf.pair, pathLeaves, Function.comp_def]

/-- A walk fails exactly if some key carries too many sequences. -/
theorem fails_iff (hw : start record (.mapping entries) = .ok w) :
    (∃ i e, w.answer i = some (.error e)) ↔ ¬ (Value.mapping entries).Shallow := by
  have hclean : Clean (entryLeaves record [] entries) ↔ (Value.mapping entries).Shallow :=
    (Value.IsRecord.clean_iff record).trans ⟨Value.IsRecord.shallow, fun h => ⟨⟨entries, rfl⟩, h⟩⟩
  have hrest : Clean w.rest ↔ Clean (entryLeaves record [] entries) := by
    rw [clean_iff, clean_iff, rest_of_start hw, ← upToError_entryLeaves, collect_upToError]
  rw [← hclean, ← hrest]
  simp only [answer_eq]
  constructor
  · rintro ⟨i, e, h⟩ hc
    exact hc e (List.mem_of_getElem? h)
  · intro h
    obtain ⟨e, he⟩ : ∃ e, .error e ∈ w.rest := by simpa [Clean, Errors] using h
    obtain ⟨i, hi⟩ := List.mem_iff_getElem?.1 he
    exact ⟨i, e, hi⟩

/-- A walk of a mapping answers with all its leaves in depth-first order if no key carries
too many sequences. Else it answers with the leaves before the first one that lies in a
sequence too many, or is one, and then fails with the key of that one. From then on it
answers nothing. -/
theorem depth_first (record : Nat) (entries : List (String × Value)) :
    ∃ w, start record (.mapping entries) = .ok w ∧
      ((∃ i e, w.answer i = some (.error e)) ↔ ¬ (Value.mapping entries).Shallow) ∧
      ((∀ l ∈ pathLeaves entries, Path.crowdedKey? l.2 l.1 = none) ∧
          w.Yields ((pathLeaves entries).map fun l => ⟨record, l.1, l.2⟩) ∨
        ∃ before l after key, pathLeaves entries = before ++ l :: after ∧
          (∀ l ∈ before, Path.crowdedKey? l.2 l.1 = none) ∧ Path.crowdedKey? l.2 l.1 = some key ∧
          ∀ i, w.answer i = ((before.map fun l => .ok ⟨record, l.1, l.2⟩) ++
            [.error (.depthExceeded record key (maxSequenceDepth + 1))])[i]?) := by
  obtain ⟨w, hw⟩ : ∃ w, start record (.mapping entries) = .ok w := ⟨_, rfl⟩
  refine ⟨w, hw, fails_iff hw, ?_⟩
  have hrest := rest_of_start hw
  cases hc : collect ((pathLeaves entries).map (outcome record)) with
  | ok ls =>
    rw [collect_eq_ok] at hc
    obtain ⟨hnone, rfl⟩ := map_outcome_eq_ok hc
    refine .inl ⟨hnone, yields_iff.2 ?_⟩
    rw [hrest, ← collect_eq_ok, collect_upToError, collect_eq_ok, hc]
  | error e =>
    -- The first outcome that is an error cuts the leaves in two.
    obtain ⟨found, rest, hfound⟩ := eq_of_collect_eq_error hc
    obtain ⟨before, tail, hls, hbefore, htail⟩ := List.map_eq_append_iff.1 hfound
    obtain ⟨l, after, rfl, hl, -⟩ := List.map_eq_cons_iff.1 htail
    obtain ⟨key, hkey, rfl⟩ := outcome_eq_error.1 hl
    obtain ⟨hnone, rfl⟩ := map_outcome_eq_ok hbefore
    refine .inr ⟨before, l, after, key, hls, hnone, hkey, fun i => ?_⟩
    rw [answer_eq, hrest, hfound, upToError_ok_append_error, List.map_map]
    rfl

end Walk

end AtomLines.Json
