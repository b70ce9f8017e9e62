import AtomLines.Proofs.Json.Assembly
/-!
# The places of leaves

`places` lists the leaves of any value, as they are, by the moves that lead to them. The
path of a leaf can be told from its moves, since indices belong to the key before them.
-/

namespace AtomLines.Json

mutual

/-- Each leaf after the moves that lead to it. -/
def Value.places : Value → List (List Access × Value)
  | .scalar s => [([], .scalar s)]
  | .sequence items => if items.isEmpty then [([], .sequence [])] else itemPlaces 0 items
  | .mapping entries => if entries.isEmpty then [([], .mapping [])] else entryPlaces entries

def itemPlaces (next : Nat) : List Value → List (List Access × Value)
  | [] => []
  | v :: rest => into (.index next) v.places ++ itemPlaces (next + 1) rest

def entryPlaces : List (String × Value) → List (List Access × Value)
  | [] => []
  | (k, v) :: rest => into (.key k) v.places ++ entryPlaces rest

end

theorem Value.places_of_isLeaf {v : Value} (h : v.isLeaf = true) : v.places = [([], v)] := by
  cases v with
  | scalar s => rw [places]
  | sequence items =>
    obtain rfl : items = [] := List.isEmpty_iff.1 h
    rw [places, if_pos List.isEmpty_nil]
  | mapping entries =>
    obtain rfl : entries = [] := List.isEmpty_iff.1 h
    rw [places, if_pos List.isEmpty_nil]

theorem Value.places_sequence {items : List Value} (h : items ≠ []) : (sequence items).places = itemPlaces 0 items := by
  rw [places, if_neg (by simpa using h)]

theorem Value.places_mapping {entries : List (String × Value)} (h : entries ≠ []) :
    (mapping entries).places = entryPlaces entries := by
  rw [places, if_neg (by simpa using h)]

/-! ## Settled leaves -/

def settledPlace (p : List Access × Value) : List Access × Value :=
  (p.1, p.2.settle)

theorem map_settledPlace_into (a : Access) (places : List (List Access × Value)) :
    (into a places).map settledPlace = into a (places.map settledPlace) := by
  simp [into, settledPlace]

theorem itemSpots_eq {items : List Value} (h : ∀ v ∈ items, v.spots = v.places.map settledPlace) (next : Nat) :
    itemSpots next items = (itemPlaces next items).map settledPlace := by
  induction items generalizing next with
  | nil => rfl
  | cons v items ih =>
    rw [List.forall_mem_cons] at h
    rw [itemSpots, itemPlaces, List.map_append, map_settledPlace_into, h.1, ih h.2]

theorem entrySpots_eq {entries : List (String × Value)} (h : ∀ e ∈ entries, e.2.spots = e.2.places.map settledPlace) :
    entrySpots entries = (entryPlaces entries).map settledPlace := by
  induction entries with
  | nil => rfl
  | cons e entries ih =>
    rw [List.forall_mem_cons] at h
    rw [entrySpots, entryPlaces, List.map_append, map_settledPlace_into, h.1, ih h.2]

/-- The spots of a value are its places, with the leaves as they settle. -/
theorem Value.spots_eq (v : Value) : v.spots = v.places.map settledPlace := by
  induction v using Value.induct with
  | scalar s =>
    rw [spots, places]
    rfl
  | sequence items ih =>
    rw [spots, places]
    split
    · rfl
    · exact itemSpots_eq ih 0
  | mapping entries ih =>
    rw [spots, places]
    split
    · rfl
    · exact entrySpots_eq ih

theorem Value.places_ne_nil (v : Value) : v.places ≠ [] := by
  intro h
  apply v.spots_ne_nil
  rw [v.spots_eq, h, List.map_nil]

/-! ## Paths and moves -/

namespace Path

theorem accesses_cons (s : Step) (p : Path) :
    accesses (s :: p) = .key s.name :: (s.indices.map .index ++ accesses p) := rfl

/-- Every step has the form that its key and its indices give it. -/
def Canonical (p : Path) : Prop :=
  ∀ s ∈ p, Step.of s.name s.indices = s

theorem Canonical.concat {p : Path} (h : p.Canonical) (key : String) (indices : List Nat) :
    Canonical (p ++ [Step.of key indices]) := by
  intro s hs
  rcases List.mem_append.1 hs with hs | hs
  · exact h s hs
  · obtain rfl := List.mem_singleton.1 hs
    cases indices <;> rfl

theorem canonical_of_regular {p : Path} (h : ∀ s ∈ p, s.Regular) : p.Canonical := fun s hs => (h s hs).of_eq

/-- The indices before the first key, and the path of the other moves. -/
def resume : List Access → List Nat × Path
  | [] => ([], [])
  | .index i :: as => (i :: (resume as).1, (resume as).2)
  | .key k :: as => ([], Step.of k (resume as).1 :: (resume as).2)

theorem resume_indices (is : List Nat) (as : List Access) :
    resume (is.map .index ++ as) = (is ++ (resume as).1, (resume as).2) := by
  induction is with
  | nil => rfl
  | cons i is ih => rw [List.map_cons, List.cons_append, resume, ih, List.cons_append]

/-- The path that makes the moves. -/
def ofAccesses (as : List Access) : Path :=
  (resume as).2

theorem resume_accesses {p : Path} (h : p.Canonical) : resume p.accesses = ([], p) := by
  induction p with
  | nil => rfl
  | cons s p ih =>
    obtain ⟨hs, hp⟩ := List.forall_mem_cons.1 h
    rw [accesses_cons, resume, resume_indices, ih hp, List.append_nil, hs]

theorem ofAccesses_accesses {p : Path} (h : p.Canonical) : ofAccesses p.accesses = p := by
  rw [ofAccesses, resume_accesses h]

end Path

/-! ## Leaves with their paths -/

/-- Where a leaf stands, and the leaf. -/
def PlacedLeaf.pair (l : PlacedLeaf) : Path × Value :=
  (l.path, l.leaf)

/-- A leaf with the path that makes its moves. -/
def pairOf (p : List Access × Value) : Path × Value :=
  (Path.ofAccesses p.1, p.2)

end AtomLines.Json
