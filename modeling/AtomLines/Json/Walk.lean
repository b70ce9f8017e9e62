import AtomLines.Json.Leaves
/-!
# Walking a value one leaf at a time

A walk remembers what is left of each container that it has entered. `next`
goes on to the next leaf; a walk that has failed or ended stays at its end.
-/

namespace AtomLines.Json

/-- What is left of a container. -/
inductive Frame where
  | mapping (entries : List (String × Value)) (path : Path)
  | sequence (key : String) (items : List Value) (next : Nat) (path : Path) (indices : List Nat)

/-- What a walk does with a value that it meets. -/
inductive Visit where
  | fail (e : RecordError)
  | enter (frame : Frame)
  | report (leaf : PlacedLeaf)

def visit (record : Nat) (path : Path) (key : String) (indices : List Nat) : Value → Visit
  | .sequence items =>
    if maxSequenceDepth ≤ indices.length then .fail (.depthExceeded record key (indices.length + 1))
    else if items.isEmpty then .report ⟨record, path ++ [Step.of key indices], .sequence []⟩
    else .enter (.sequence key items 0 path indices)
  | .mapping entries =>
    if entries.isEmpty then .report ⟨record, path ++ [Step.of key indices], .mapping []⟩
    else .enter (.mapping entries (path ++ [Step.of key indices]))
  | .scalar s => .report ⟨record, path ++ [Step.of key indices], .scalar s⟩

/-! ## A walk ends -/

/-- What a frame still holds, one more than nothing. -/
noncomputable def Frame.size : Frame → Nat
  | mapping entries _ => sizeOf entries + 1
  | sequence _ items _ _ _ => sizeOf items + 1

noncomputable def stackSize (stack : List Frame) : Nat :=
  stack.foldr (fun f n => f.size + n) 0

theorem size_of_enter {record : Nat} {path : Path} {key : String} {indices : List Nat} {v : Value}
    {f : Frame} (h : visit record path key indices v = .enter f) : f.size ≤ sizeOf v := by
  cases v with
  | scalar s => simp [visit] at h
  | sequence items =>
    simp only [visit] at h
    split at h
    · cases h
    · split at h
      · cases h
      · cases h
        simp only [Frame.size, Value.sequence.sizeOf_spec]
        omega
  | mapping entries =>
    simp only [visit] at h
    split at h
    · cases h
    · cases h
      simp only [Frame.size, Value.mapping.sizeOf_spec]
      omega

/-! ## The next leaf -/

/-- The next leaf of the containers on a stack, and what is left after it. -/
def advance (record : Nat) (stack : List Frame) :
    Option (Except RecordError PlacedLeaf) × List Frame :=
  match stack with
  | [] => (none, [])
  | .mapping [] _ :: outer => advance record outer
  | .mapping ((key, v) :: rest) path :: outer =>
    match h : visit record path key [] v with
    | .fail e => (some (.error e), [])
    | .report leaf => (some (.ok leaf), .mapping rest path :: outer)
    | .enter f =>
      have := size_of_enter h
      advance record (f :: .mapping rest path :: outer)
  | .sequence _ [] _ _ _ :: outer => advance record outer
  | .sequence key (v :: rest) next path indices :: outer =>
    match h : visit record path key (indices ++ [next]) v with
    | .fail e => (some (.error e), [])
    | .report leaf => (some (.ok leaf), .sequence key rest (next + 1) path indices :: outer)
    | .enter f =>
      have := size_of_enter h
      advance record (f :: .sequence key rest (next + 1) path indices :: outer)
termination_by stackSize stack
decreasing_by
  all_goals
    simp_all only [stackSize, List.foldr_cons, Frame.size, List.cons.sizeOf_spec,
      Prod.mk.sizeOf_spec]
    omega

structure Walk where
  record : Nat
  stack : List Frame

namespace Walk

/-- The walk of a record that is a mapping. -/
def start (record : Nat) : Value → Except RecordError Walk
  | .mapping entries => .ok ⟨record, [.mapping entries []]⟩
  | _ => .error (.notMapping record)

/-- The next leaf or error, or nothing at the end, and the walk from there. -/
def next (w : Walk) : Option (Except RecordError PlacedLeaf) × Walk :=
  let (found, stack) := advance w.record w.stack
  (found, { w with stack })

end Walk

end AtomLines.Json
