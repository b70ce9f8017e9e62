import AtomLines.Json.Record
import AtomLines.Proofs.Json.Value
import AtomLines.Proofs.Outcome
/-!
# Which values can be written

The walk of a value meets an error exactly if some key carries too many sequences
directly inside each other. So a record has lines exactly if it is a mapping and
shallow, and every error of a record carries its index.
-/

namespace AtomLines.Json

/-! ## The first error -/

section Collect
variable {ε α : Type} {xs : List (Except ε α)} {as : List α}

theorem collect_eq_ok : collect xs = .ok as ↔ xs = as.map .ok := by
  induction xs generalizing as with
  | nil => simp [collect, eq_comm]
  | cons x xs ih =>
    simp only [collect, bind_eq_ok, ih]
    constructor
    · rintro ⟨a, rfl, rest, rfl, h⟩
      cases h
      rfl
    · intro h
      obtain ⟨a, rest, rfl, rfl, rfl⟩ := List.map_eq_cons_iff.1 h.symm
      exact ⟨a, rfl, rest, rfl, rfl⟩

/-- The first error comes after outcomes that are none. -/
theorem eq_of_collect_eq_error {e : ε} (h : collect xs = .error e) : ∃ (as : List α) (rest : List (Except ε α)),
    xs = as.map .ok ++ .error e :: rest := by
  induction xs with
  | nil => cases h
  | cons x xs ih =>
    cases x with
    | error e' =>
      cases h
      exact ⟨[], xs, rfl⟩
    | ok a =>
      cases hc : collect xs with
      | ok as =>
        rw [collect, hc] at h
        cases h
      | error e' =>
        rw [collect, hc] at h
        cases h
        obtain ⟨as, rest, rfl⟩ := ih hc
        exact ⟨a :: as, rest, rfl⟩

theorem mem_of_collect_eq_error {e : ε} (h : collect xs = .error e) : .error e ∈ xs := by
  obtain ⟨as, rest, rfl⟩ := eq_of_collect_eq_error h
  simp

theorem collect_upToError (xs : List (Except ε α)) : collect (upToError xs) = collect xs := by
  induction xs with
  | nil => rfl
  | cons x xs ih =>
    cases x with
    | error e => rfl
    | ok a => rw [upToError, collect, collect, ih]

/-- Every error among the outcomes is of one kind. -/
def Errors (Q : ε → Prop) (xs : List (Except ε α)) : Prop :=
  ∀ e, .error e ∈ xs → Q e

theorem errors_nil (Q : ε → Prop) : Errors Q ([] : List (Except ε α)) := nofun

theorem errors_ok (Q : ε → Prop) (a : α) : Errors Q [.ok a] := by
  intro e he
  cases List.mem_singleton.1 he

theorem errors_error {Q : ε → Prop} {e : ε} : Errors Q ([.error e] : List (Except ε α)) ↔ Q e := by
  constructor
  · exact fun h => h e List.mem_cons_self
  · intro h e' he
    cases List.mem_singleton.1 he
    exact h

theorem errors_append {Q : ε → Prop} {ys : List (Except ε α)} : Errors Q (xs ++ ys) ↔ Errors Q xs ∧ Errors Q ys := by
  simp only [Errors, List.mem_append, or_imp, forall_and]

/-- No error is among the outcomes. -/
def Clean (xs : List (Except ε α)) : Prop :=
  Errors (fun _ => False) xs

theorem clean_iff : Clean xs ↔ ∃ as, collect xs = .ok as := by
  constructor
  · intro h
    cases hc : collect xs with
    | ok as => exact ⟨as, rfl⟩
    | error e => exact (h e (mem_of_collect_eq_error hc)).elim
  · rintro ⟨as, h⟩ e he
    rw [collect_eq_ok.1 h] at he
    obtain ⟨a, -, ha⟩ := List.mem_map.1 he
    cases ha

end Collect

/-! ## Depth -/

namespace Value

theorem itemNesting_le {items : List Value} {n : Nat} : itemNesting items ≤ n ↔ ∀ v ∈ items, v.nesting ≤ n := by
  induction items with
  | nil => simp [itemNesting]
  | cons v items ih => rw [itemNesting, Nat.max_le, ih, List.forall_mem_cons]

theorem shallow_scalar (s : Scalar) : (scalar s).Shallow := nofun

theorem shallow_sequence {items : List Value} : (sequence items).Shallow ↔ ∀ v ∈ items, v.Shallow := by
  constructor
  · exact fun h v hv entries hi => h entries (.item hv hi)
  · intro h entries hi
    cases hi with
    | item hv hi => exact h _ hv entries hi

theorem shallow_mapping {entries : List (String × Value)} :
    (mapping entries).Shallow ↔ ∀ e ∈ entries, e.2.Shallow ∧ e.2.nesting ≤ maxSequenceDepth := by
  constructor
  · exact fun h e he => ⟨fun entries' hi => h entries' (.entry he hi), h entries .self e he⟩
  · intro h entries' hi
    cases hi with
    | self => exact fun e he => (h e he).2
    | entry hv hi => exact (h _ hv).1 entries' hi

/-- The value has room for its sequences under `n` others. -/
structure FitsUnder (n : Nat) (v : Value) : Prop where
  shallow : v.Shallow
  nesting : n + v.nesting ≤ maxSequenceDepth

theorem fitsUnder_sequence {items : List Value} {n : Nat} (hn : n < maxSequenceDepth) :
    (sequence items).FitsUnder n ↔ ∀ v ∈ items, v.FitsUnder (n + 1) := by
  have hroom : n + (sequence items).nesting ≤ maxSequenceDepth ↔ itemNesting items ≤ maxSequenceDepth - (n + 1) := by
    rw [Value.nesting]
    omega
  constructor
  · rintro ⟨hs, hd⟩ v hv
    have hle := itemNesting_le.1 (hroom.1 hd) v hv
    exact ⟨shallow_sequence.1 hs v hv, by omega⟩
  · intro h
    refine ⟨shallow_sequence.2 fun v hv => (h v hv).shallow, hroom.2 (itemNesting_le.2 fun v hv => ?_)⟩
    have hle := (h v hv).nesting
    omega

theorem fitsUnder_mapping {entries : List (String × Value)} {n : Nat} (hn : n ≤ maxSequenceDepth) :
    (mapping entries).FitsUnder n ↔ ∀ e ∈ entries, e.2.FitsUnder 0 := by
  have hzero : ∀ v : Value, v.FitsUnder 0 ↔ v.Shallow ∧ v.nesting ≤ maxSequenceDepth := by
    intro v
    constructor
    · exact fun h => ⟨h.shallow, Nat.zero_add v.nesting ▸ h.nesting⟩
    · exact fun h => ⟨h.1, (Nat.zero_add v.nesting).symm ▸ h.2⟩
  simp only [hzero, ← shallow_mapping]
  exact ⟨FitsUnder.shallow, fun h => ⟨h, hn⟩⟩

theorem not_fitsUnder_sequence {items : List Value} {n : Nat} (hn : maxSequenceDepth ≤ n) :
    ¬ (sequence items).FitsUnder n := by
  intro h
  have hd := h.nesting
  rw [Value.nesting] at hd
  omega

end Value

/-! ## What the walk meets -/

section
variable {record : Nat} {path : Path} {key : String} {indices : List Nat} {Q : RecordError → Prop}
  {P : Value → Prop}

theorem errors_itemLeaves {items : List Value} {next : Nat}
    (h : ∀ v ∈ items, ∀ i, Errors Q (leavesAt record path key (indices ++ [i]) v) ↔ P v) :
    Errors Q (itemLeaves record path key indices next items) ↔ ∀ v ∈ items, P v := by
  induction items generalizing next with
  | nil => simp [itemLeaves, errors_nil]
  | cons v items ih =>
    rw [List.forall_mem_cons] at h
    rw [itemLeaves, errors_append, h.1, ih h.2, List.forall_mem_cons]

theorem errors_entryLeaves {entries : List (String × Value)}
    (h : ∀ e ∈ entries, Errors Q (leavesAt record path e.1 [] e.2) ↔ P e.2) :
    Errors Q (entryLeaves record path entries) ↔ ∀ e ∈ entries, P e.2 := by
  induction entries with
  | nil => simp [entryLeaves, errors_nil]
  | cons e entries ih =>
    rw [List.forall_mem_cons] at h
    rw [entryLeaves, errors_append, h.1, ih h.2, List.forall_mem_cons]

/-- The walk meets no error exactly if there is room for all sequences. -/
theorem clean_leavesAt {v : Value} (hi : indices.length ≤ maxSequenceDepth) :
    Clean (leavesAt record path key indices v) ↔ v.FitsUnder indices.length := by
  induction v using Value.induct generalizing path key indices with
  | scalar s =>
    rw [leavesAt]
    exact ⟨fun _ => ⟨Value.shallow_scalar s, hi⟩, fun _ => errors_ok _ _⟩
  | sequence items ih =>
    rw [leavesAt]
    split
    · rename_i hfull
      exact ⟨fun h => (errors_error.1 h).elim, fun h => (Value.not_fitsUnder_sequence hfull h).elim⟩
    · rename_i hroom
      rw [Value.fitsUnder_sequence (Nat.lt_of_not_le hroom)]
      split
      · rename_i hempty
        rw [List.isEmpty_iff.1 hempty]
        exact ⟨fun _ => nofun, fun _ => errors_ok _ _⟩
      · refine errors_itemLeaves fun v hv i => ?_
        -- One more index under the key.
        have hl : (indices ++ [i]).length = indices.length + 1 := by simp
        rw [← hl]
        exact ih v hv (by omega)
  | mapping entries ih =>
    rw [leavesAt, Value.fitsUnder_mapping hi]
    split
    · rename_i hempty
      rw [List.isEmpty_iff.1 hempty]
      exact ⟨fun _ => nofun, fun _ => errors_ok _ _⟩
    · exact errors_entryLeaves fun e he => ih e he (Nat.zero_le _)

/-- A key of the record carries one sequence too many. -/
def TooDeep (record : Nat) (e : RecordError) : Prop :=
  ∃ key, e = .depthExceeded record key (maxSequenceDepth + 1)

theorem errors_leavesAt {v : Value} (hi : indices.length ≤ maxSequenceDepth) :
    Errors (TooDeep record) (leavesAt record path key indices v) := by
  induction v using Value.induct generalizing path key indices with
  | scalar s =>
    rw [leavesAt]
    exact errors_ok _ _
  | sequence items ih =>
    rw [leavesAt]
    split
    · rename_i hfull
      exact errors_error.2 ⟨key, by rw [Nat.le_antisymm hi hfull]⟩
    · split
      · exact errors_ok _ _
      · refine (errors_itemLeaves (P := fun _ => True) fun v hv i => iff_true_intro (ih v hv ?_)).2 fun _ _ => trivial
        rw [List.length_append, List.length_singleton]
        omega
  | mapping entries ih =>
    rw [leavesAt]
    split
    · exact errors_ok _ _
    · exact (errors_entryLeaves (P := fun _ => True) fun e he => iff_true_intro (ih e he (Nat.zero_le _))).2
        fun _ _ => trivial

end

/-! ## Records -/

/-- A mapping without too many sequences under any key: what can be written as a
record. -/
structure Value.IsRecord (v : Value) : Prop where
  isMapping : ∃ entries, v = mapping entries
  shallow : v.Shallow

/-- The record that an error belongs to. -/
def RecordError.record? : RecordError → Option Nat
  | depthExceeded record _ _ => some record
  | malformed record _ => record
  | notMapping record => some record

theorem Value.bodies_mapping (record : Nat) (entries : List (String × Value)) :
    (mapping entries).bodies record =
      (collect (entryLeaves record [] entries)).map fun leaves => leaves.map PlacedLeaf.line := by
  rw [bodies, leaves]
  show (do
    let leaves ← collect (upToError (entryLeaves record [] entries))
    return leaves.map PlacedLeaf.line) = _
  rw [collect_upToError]
  cases collect (entryLeaves record [] entries) <;> rfl

theorem Value.isRecord_mapping {entries : List (String × Value)} :
    (mapping entries).IsRecord ↔ (mapping entries).FitsUnder 0 :=
  ⟨fun h => ⟨h.shallow, Nat.zero_le _⟩, fun h => ⟨⟨entries, rfl⟩, h.shallow⟩⟩

theorem Value.IsRecord.clean_iff (record : Nat) {entries : List (String × Value)} :
    Clean (entryLeaves record [] entries) ↔ (mapping entries).IsRecord := by
  rw [isRecord_mapping, fitsUnder_mapping (Nat.zero_le _)]
  exact errors_entryLeaves fun e _ => clean_leavesAt (Nat.zero_le _)

/-- A value has lines exactly if it is a record. -/
theorem Value.bodies_succeeds_iff (record : Nat) {v : Value} : (∃ bodies, v.bodies record = .ok bodies) ↔ v.IsRecord := by
  cases v with
  | mapping entries =>
    rw [← IsRecord.clean_iff record, Json.clean_iff, bodies_mapping]
    constructor
    · rintro ⟨bodies, h⟩
      obtain ⟨leaves, hl, -⟩ := map_eq_ok.1 h
      exact ⟨leaves, hl⟩
    · rintro ⟨leaves, hl⟩
      exact ⟨_, by rw [hl]; rfl⟩
  | scalar | sequence =>
    constructor
    · rintro ⟨bodies, h⟩
      cases h
    · rintro ⟨⟨entries, h⟩, -⟩
      cases h

/-- What cannot be written is no mapping or too deep. -/
theorem Value.error_of_bodies {v : Value} {record : Nat} {e : RecordError} (h : v.bodies record = .error e) :
    e = .notMapping record ∨ TooDeep record e := by
  cases v with
  | mapping entries =>
    rw [bodies_mapping] at h
    cases hc : collect (entryLeaves record [] entries) with
    | ok leaves =>
      rw [hc] at h
      cases h
    | error e' =>
      rw [hc] at h
      cases h
      have herrors : Errors (TooDeep record) (entryLeaves record [] entries) :=
        (errors_entryLeaves (P := fun _ => True) fun e _ =>
          iff_true_intro (errors_leavesAt (Nat.zero_le _))).2 fun _ _ => trivial
      exact .inr (herrors e (mem_of_collect_eq_error hc))
  | scalar | sequence =>
    cases h
    exact .inl rfl

theorem encodeRecord_eq (marker : String) (record : Nat) (v : Value) : encodeRecord marker record v =
    (v.bodies record).map fun bodies =>
      (if bodies.isEmpty then [.symbol emptyMapping] else bodies).map (recordLine marker record) := by
  rw [encodeRecord]
  cases v.bodies record <;> rfl

theorem encodeRecord_succeeds_iff (marker : String) (record : Nat) {v : Value} :
    (∃ lines, encodeRecord marker record v = .ok lines) ↔ v.IsRecord := by
  rw [← Value.bodies_succeeds_iff record, encodeRecord_eq]
  cases v.bodies record <;> simp [Except.map]

/-- An error of a record carries its index. -/
theorem record?_of_encodeRecord {marker : String} {record : Nat} {v : Value} {e : RecordError}
    (h : encodeRecord marker record v = .error e) : e.record? = some record := by
  have hb : v.bodies record = .error e := by
    rw [encodeRecord_eq] at h
    cases hv : v.bodies record with
    | ok bodies =>
      rw [hv] at h
      cases h
    | error e' =>
      rw [hv] at h
      cases h
      rfl
  rcases Value.error_of_bodies hb with rfl | ⟨key, rfl⟩
  · rfl
  · rfl

end AtomLines.Json
