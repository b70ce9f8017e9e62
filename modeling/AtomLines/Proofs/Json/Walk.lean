import AtomLines.Json.Walk
/-!
# What a walk answers

What a walk has still to find are the leaves of the containers on its stack, innermost
first. Its next answer is the first of them, and then the others are left; after an
error and at the end nothing is. So the answers of a walk from the start are the leaves
of the value, in their order, and nothing from then on.
-/

namespace AtomLines.Json

/-! ## What is left -/

/-- The leaves of what is left of a container. -/
def Frame.leaves (record : Nat) : Frame → Leaves
  | mapping entries path => entryLeaves record path entries
  | sequence key items next path indices => itemLeaves record path key indices next items

def stackLeaves (record : Nat) (stack : List Frame) : Leaves :=
  stack.flatMap (Frame.leaves record)

/-- The answers that a walk has still to give. -/
def Walk.rest (w : Walk) : Leaves :=
  upToError (stackLeaves w.record w.stack)

/-- What a visit adds to what is left. -/
def Visit.leaves (record : Nat) : Visit → Leaves
  | fail e => [.error e]
  | enter frame => frame.leaves record
  | report leaf => [.ok leaf]

/-- A visit stands for all leaves of the value. -/
theorem leavesAt_eq_visit (record : Nat) (path : Path) (key : String) (indices : List Nat) (v : Value) :
    leavesAt record path key indices v = (visit record path key indices v).leaves record := by
  cases v with
  | scalar s => rw [leavesAt, visit, Visit.leaves]
  | sequence items =>
    rw [leavesAt, visit]
    split
    · rfl
    · split <;> rfl
  | mapping entries =>
    rw [leavesAt, visit]
    split <;> rfl

theorem stackLeaves_entry (record : Nat) (key : String) (v : Value) (entries : List (String × Value)) (path : Path)
    (outer : List Frame) : stackLeaves record (.mapping ((key, v) :: entries) path :: outer) =
      (visit record path key [] v).leaves record ++ stackLeaves record (.mapping entries path :: outer) := by
  rw [stackLeaves, List.flatMap_cons, Frame.leaves, entryLeaves, leavesAt_eq_visit, List.append_assoc]
  rfl

theorem stackLeaves_item (record : Nat) (key : String) (v : Value) (items : List Value) (next : Nat) (path : Path)
    (indices : List Nat) (outer : List Frame) :
    stackLeaves record (.sequence key (v :: items) next path indices :: outer) =
      (visit record path key (indices ++ [next]) v).leaves record ++
        stackLeaves record (.sequence key items (next + 1) path indices :: outer) := by
  rw [stackLeaves, List.flatMap_cons, Frame.leaves, itemLeaves, leavesAt_eq_visit, List.append_assoc]
  rfl

/-! ## One answer -/

/-- One answer is the first of those that are left, and leaves the others. -/
theorem advance_eq (record : Nat) (stack : List Frame) :
    (advance record stack).1 = (upToError (stackLeaves record stack)).head? ∧
      upToError (stackLeaves record (advance record stack).2) = (upToError (stackLeaves record stack)).tail := by
  fun_induction advance record stack with
  | case1 => exact ⟨rfl, rfl⟩
  | case2 path outer ih => exact ih
  | case3 key v rest path outer e h =>
    rw [stackLeaves_entry, h]
    exact ⟨rfl, rfl⟩
  | case4 key v rest path outer leaf h =>
    rw [stackLeaves_entry, h]
    exact ⟨rfl, rfl⟩
  | case5 key v rest path outer f h _ ih =>
    rw [stackLeaves_entry, h]
    exact ih
  | case6 key next path indices outer ih => exact ih
  | case7 key v rest next path indices outer e h =>
    rw [stackLeaves_item, h]
    exact ⟨rfl, rfl⟩
  | case8 key v rest next path indices outer leaf h =>
    rw [stackLeaves_item, h]
    exact ⟨rfl, rfl⟩
  | case9 key v rest next path indices outer f h _ ih =>
    rw [stackLeaves_item, h]
    exact ih

namespace Walk

theorem next_eq (w : Walk) : w.next.1 = w.rest.head? ∧ w.next.2.rest = w.rest.tail :=
  advance_eq w.record w.stack

/-! ## All answers -/

/-- The answer after `i` others. -/
def answer (w : Walk) : Nat → Option (Except RecordError PlacedLeaf)
  | 0 => w.next.1
  | i + 1 => w.next.2.answer i

/-- The answers are those that are left, and nothing from then on. -/
theorem answer_eq (w : Walk) (i : Nat) : w.answer i = w.rest[i]? := by
  induction i generalizing w with
  | zero => rw [answer, w.next_eq.1, List.head?_eq_getElem?]
  | succ i ih => rw [answer, ih, w.next_eq.2, List.getElem?_tail]

/-- At the start the leaves of the value are left. -/
theorem map_rest_start (record : Nat) (v : Value) : (start record v).map rest = v.leaves record := by
  cases v with
  | mapping entries =>
    show Except.ok (upToError (entryLeaves record [] entries ++ [])) = _
    rw [List.append_nil, Value.leaves]
  | _ => rfl

/-- The walk answers with the leaves, one by one, and with nothing from then on. -/
def Yields (w : Walk) (ls : List PlacedLeaf) : Prop :=
  ∀ i, w.answer i = ls[i]?.map .ok

theorem yields_iff {w : Walk} {ls : List PlacedLeaf} : w.Yields ls ↔ w.rest = ls.map .ok := by
  rw [Yields, List.ext_getElem?_iff]
  simp only [answer_eq, List.getElem?_map]

end Walk

end AtomLines.Json
