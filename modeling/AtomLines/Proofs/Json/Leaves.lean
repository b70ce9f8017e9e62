import AtomLines.Proofs.Json.Path
import AtomLines.Proofs.Json.Value
import AtomLines.Json.Assembly
/-!
# The leaves of a value that can be written

`spots` lists the leaves of a value by the moves that lead to them, relative to the
value. The walk of a value within the depth limit reports exactly these, each below
the path of the value, and meets no error.
-/

namespace AtomLines.Json

/-- The leaves of a part, seen from one move further out. -/
def into (a : Access) (spots : List (List Access × Value)) : List (List Access × Value) :=
  spots.map fun (as, leaf) => (a :: as, leaf)

mutual

/-- Each leaf, as it settles, after the moves that lead to it. -/
def Value.spots : Value → List (List Access × Value)
  | .scalar s => [([], (Value.scalar s).settle)]
  | .sequence items => if items.isEmpty then [([], .sequence [])] else itemSpots 0 items
  | .mapping entries => if entries.isEmpty then [([], .mapping [])] else entrySpots entries

def itemSpots (next : Nat) : List Value → List (List Access × Value)
  | [] => []
  | v :: rest => into (.index next) v.spots ++ itemSpots (next + 1) rest

def entrySpots : List (String × Value) → List (List Access × Value)
  | [] => []
  | (k, v) :: rest => into (.key k) v.spots ++ entrySpots rest

end

/-! ## What the walk reports -/

/-- The leaf as the assembly of its line meets it. -/
def PlacedLeaf.spot (l : PlacedLeaf) : List Access × Value :=
  (l.path.accesses, l.leaf.settle)

/-- A leaf whose line can be read back. -/
structure PlacedLeaf.Sound (l : PlacedLeaf) : Prop where
  nonempty : l.path ≠ []
  regular : ∀ s ∈ l.path, s.Regular
  leaf : l.leaf.isLeaf = true
  numbers : l.leaf.NumbersStable

/-- A walk without error whose leaves lie, below the given moves, at the given
spots. -/
def Reports (moves : List Access) (spots : List (List Access × Value)) (found : Leaves) : Prop :=
  ∃ ls : List PlacedLeaf, found = ls.map .ok ∧ (∀ l ∈ ls, l.Sound) ∧
    ls.map PlacedLeaf.spot = spots.map fun (as, leaf) => (moves ++ as, leaf)

namespace Reports

theorem nil (moves : List Access) : Reports moves [] [] := ⟨[], rfl, by simp, rfl⟩

theorem append {moves : List Access} {s s' : List (List Access × Value)} {f f' : Leaves}
    (h : Reports moves s f) (h' : Reports moves s' f') : Reports moves (s ++ s') (f ++ f') := by
  obtain ⟨ls, rfl, hs, he⟩ := h
  obtain ⟨ls', rfl, hs', he'⟩ := h'
  refine ⟨ls ++ ls', by simp, ?_, by simp [he, he']⟩
  intro l hl
  exact (List.mem_append.1 hl).elim (hs l) (hs' l)

/-- The last of the moves may as well be the first one of each spot. -/
theorem into {moves : List Access} {a : Access} {s : List (List Access × Value)} {f : Leaves}
    (h : Reports (moves ++ [a]) s f) : Reports moves (into a s) f := by
  obtain ⟨ls, rfl, hs, he⟩ := h
  exact ⟨ls, rfl, hs, by simp [he, Json.into]⟩

end Reports

theorem Step.accesses_of (key : String) (is : List Nat) :
    (Step.of key is).accesses = .key key :: is.map .index := by
  unfold Step.of
  split
  · rename_i h
    simp [Step.accesses, Step.name, Step.indices, List.isEmpty_iff.1 h]
  · simp [Step.accesses, Step.name, Step.indices]

/-- The moves to what lies under a key and indices. -/
def movesTo (path : Path) (key : String) (indices : List Nat) : List Access :=
  Path.accesses (path ++ [Step.of key indices])

theorem movesTo_index (path : Path) (key : String) (indices : List Nat) (i : Nat) :
    movesTo path key (indices ++ [i]) = movesTo path key indices ++ [.index i] := by
  simp [movesTo, Path.accesses, Step.accesses_of]

theorem movesTo_key (path : Path) (key : String) : movesTo path key [] = path.accesses ++ [.key key] := by
  simp [movesTo, Path.accesses, Step.accesses_of]

section
variable {record : Nat} {path : Path} {key : String} {indices : List Nat}

theorem regular_concat (hp : ∀ s ∈ path, s.Regular) (hl : indices.length ≤ maxSequenceDepth)
    (hb : ∀ i ∈ indices, i < Text.indexBound) : ∀ s ∈ path ++ [Step.of key indices], s.Regular := by
  intro s hs
  rcases List.mem_append.1 hs with hs | hs
  · exact hp s hs
  · rw [List.mem_singleton.1 hs]
    exact Step.regular_of hl hb

/-- A leaf under a key and indices is reported where it stands. -/
theorem reports_leaf (hp : ∀ s ∈ path, s.Regular) (hl : indices.length ≤ maxSequenceDepth)
    (hb : ∀ i ∈ indices, i < Text.indexBound) {leaf : Value} (hv : leaf.isLeaf = true) (hn : leaf.NumbersStable) :
    Reports (movesTo path key indices) [([], leaf.settle)] [.ok ⟨record, path ++ [Step.of key indices], leaf⟩] := by
  refine ⟨[⟨record, path ++ [Step.of key indices], leaf⟩], rfl, ?_, by simp [PlacedLeaf.spot, movesTo]⟩
  simp only [List.mem_singleton, forall_eq]
  exact ⟨by simp, regular_concat hp hl hb, hv, hn⟩

/-- The walk of a value reports its spots, under a key and indices that leave room
for the sequences in it. -/
def Walked (v : Value) : Prop :=
  ∀ (record : Nat) (path : Path) (key : String) (indices : List Nat), (∀ s ∈ path, s.Regular) →
    (∀ i ∈ indices, i < Text.indexBound) → indices.length + v.nesting ≤ maxSequenceDepth →
    Reports (movesTo path key indices) v.spots (leavesAt record path key indices v)

theorem reports_itemLeaves {items : List Value} (h : ∀ v ∈ items, Walked v) (hp : ∀ s ∈ path, s.Regular)
    (hb : ∀ i ∈ indices, i < Text.indexBound)
    (hd : indices.length + (Value.itemNesting items + 1) ≤ maxSequenceDepth) {next : Nat}
    (hn : next + items.length ≤ Text.indexBound) :
    Reports (movesTo path key indices) (itemSpots next items) (itemLeaves record path key indices next items) := by
  induction items generalizing next with
  | nil => exact .nil _
  | cons v items ih =>
    rw [List.forall_mem_cons] at h
    simp only [Value.itemNesting, List.length_cons] at hd hn
    rw [itemSpots, itemLeaves]
    refine .append (.into ?_) (ih h.2 (by omega) (by omega))
    rw [← movesTo_index]
    -- One more index for `v`, and one sequence less that it may hold.
    have hl : (indices ++ [next]).length = indices.length + 1 := by simp
    refine h.1 record path key (indices ++ [next]) hp ?_ (by omega)
    intro i hi
    rcases List.mem_append.1 hi with hi | hi
    · exact hb i hi
    · rw [List.mem_singleton.1 hi]
      omega

theorem reports_entryLeaves {entries : List (String × Value)} (h : ∀ e ∈ entries, Walked e.2)
    (hd : ∀ e ∈ entries, e.2.nesting ≤ maxSequenceDepth) (hp : ∀ s ∈ path, s.Regular) :
    Reports path.accesses (entrySpots entries) (entryLeaves record path entries) := by
  induction entries with
  | nil => exact .nil _
  | cons e entries ih =>
    obtain ⟨k, v⟩ := e
    rw [List.forall_mem_cons] at h hd
    rw [entrySpots, entryLeaves]
    refine .append (.into ?_) (ih h.2 hd.2)
    rw [← movesTo_key]
    exact h.1 record path k [] hp (by simp) (by simpa using hd.1)

/-- The walk of a fit value meets no error. -/
theorem walked_of_fit {v : Value} (h : v.Fit) : Walked v := by
  induction v using Value.induct with
  | scalar s =>
    intro record path key indices hp hb hd
    rw [leavesAt, Value.spots]
    exact reports_leaf hp (Nat.le_of_add_right_le hd) hb rfl h.numbers
  | sequence items ih =>
    intro record path key indices hp hb hd
    rw [Value.nesting] at hd
    -- A sequence takes one of the levels that are left, even if it is empty.
    have hl : indices.length < maxSequenceDepth := by omega
    rw [leavesAt, Value.spots, if_neg (Nat.not_le.2 hl)]
    split
    · rename_i hi
      obtain rfl := List.isEmpty_iff.1 hi
      exact reports_leaf hp (Nat.le_of_lt hl) hb rfl h.numbers
    · have hn : 0 + items.length ≤ Text.indexBound := by
        rw [Nat.zero_add]
        exact h.wellFormed.items items .self
      exact reports_itemLeaves (fun v hv => ih v hv (h.item hv)) hp hb hd hn
  | mapping entries ih =>
    intro record path key indices hp hb hd
    have hl : indices.length ≤ maxSequenceDepth := Nat.le_of_add_right_le hd
    rw [leavesAt, Value.spots]
    split
    · rename_i he
      obtain rfl := List.isEmpty_iff.1 he
      exact reports_leaf hp hl hb rfl h.numbers
    · exact reports_entryLeaves (fun e he => ih e he (h.entry he)) (fun e he => h.nesting he)
        (regular_concat hp hl hb)

end

end AtomLines.Json
