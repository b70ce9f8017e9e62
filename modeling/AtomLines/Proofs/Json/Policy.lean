import AtomLines.Proofs.Json.Records
import AtomLines.Proofs.Json.RoundTrip
/-!
# Records that cannot be written

Each record is written for itself, under its own index. Skipping keeps the lines of
those that can be written, all of them, and nothing of the others; aborting gives the
same lines if there are no others, and else the error of the first one.
-/

namespace AtomLines.Json

/-! ## The outcomes of the records -/

/-- What writing each record from an index on comes to. -/
def outcomesFrom (marker : String) (next : Nat) (records : List Value) : List (Except RecordError (List SExpr)) :=
  records.mapIdx fun i v => encodeRecord marker (next + i) v

section
variable {marker : String} {next : Nat} {records : List Value}

theorem outcomesFrom_cons (v : Value) :
    outcomesFrom marker next (v :: records) = encodeRecord marker next v :: outcomesFrom marker (next + 1) records := by
  have hshift : (fun i v => encodeRecord marker (next + (i + 1)) v) = fun i v => encodeRecord marker (next + 1 + i) v := by
    funext i v
    rw [Nat.add_comm i, Nat.add_assoc]
  rw [outcomesFrom, outcomesFrom, List.mapIdx_cons, hshift, Nat.add_zero]

theorem outcomesFrom_zero : outcomesFrom marker 0 records = records.mapIdx (encodeRecord marker) := by
  simp only [outcomesFrom, Nat.zero_add]

/-- Skipping leaves the lines of the outcomes that are no errors. -/
theorem encodeFrom_skip : encodeFrom marker .skip next records =
    .ok ((outcomesFrom marker next records).flatMap fun outcome => outcome.toOption.getD []) := by
  induction records generalizing next with
  | nil => rfl
  | cons v records ih =>
    rw [outcomesFrom_cons, List.flatMap_cons]
    cases h : encodeRecord marker next v with
    | ok lines =>
      simp only [encodeFrom, h, ih]
      rfl
    | error e =>
      simp only [encodeFrom, h, ih]
      rfl

/-- Aborting leaves the lines of all outcomes, or the first error. -/
theorem encodeFrom_abort :
    encodeFrom marker .abort next records = (collect (outcomesFrom marker next records)).map List.flatten := by
  induction records generalizing next with
  | nil => rfl
  | cons v records ih =>
    rw [outcomesFrom_cons, collect]
    cases h : encodeRecord marker next v with
    | ok lines =>
      simp only [encodeFrom, h, ih]
      cases collect (outcomesFrom marker (next + 1) records) <;> rfl
    | error e =>
      simp only [encodeFrom, h]
      rfl

end

section
variable {marker : String} {records : List Value}

theorem encodeRecords_abort_eq_ok {lines : List SExpr} (h : encodeRecords marker .abort records = .ok lines) :
    encodeRecords marker .skip records = .ok lines := by
  rw [encodeRecords, encodeFrom_abort] at h
  obtain ⟨outcomes, hc, rfl⟩ := map_eq_ok.1 h
  rw [encodeRecords, encodeFrom_skip, collect_eq_ok.1 hc, List.flatMap_map]
  exact congrArg Except.ok List.flatMap_id

/-- What aborts is the error of the first record that cannot be written. -/
theorem encodeRecords_abort_eq_error {e : RecordError} (h : encodeRecords marker .abort records = .error e) :
    ∃ i v, records[i]? = some v ∧ encodeRecord marker i v = .error e ∧
      ∀ j < i, ∀ u, records[j]? = some u → u.IsRecord := by
  rw [encodeRecords, encodeFrom_abort, outcomesFrom_zero] at h
  have hc : collect (records.mapIdx (encodeRecord marker)) = .error e := by
    cases hc : collect (records.mapIdx (encodeRecord marker)) with
    | ok outcomes =>
      rw [hc] at h
      cases h
    | error e' =>
      rw [hc] at h
      cases h
      rfl
  -- The error stands after the outcomes of the records before it, so their number is its index.
  obtain ⟨outcomes, rest, hsplit⟩ := eq_of_collect_eq_error hc
  have hat : ∀ i, records[i]?.map (encodeRecord marker i) = (outcomes.map .ok ++ .error e :: rest)[i]? := by
    intro i
    rw [← hsplit, List.getElem?_mapIdx]
  have hfails := hat outcomes.length
  rw [List.getElem?_append_right (by simp), List.length_map, Nat.sub_self, List.getElem?_cons_zero,
    Option.map_eq_some_iff] at hfails
  obtain ⟨v, hv, he⟩ := hfails
  refine ⟨outcomes.length, v, hv, he, fun j hj u hu => ?_⟩
  have hsucceeds := hat j
  rw [hu, List.getElem?_append_left (by simpa using hj), List.getElem?_map, List.getElem?_eq_getElem hj] at hsucceeds
  exact (encodeRecord_succeeds_iff marker j).1 ⟨_, Option.some.inj hsucceeds⟩

theorem encodeRecords_abort_succeeds_iff :
    (∃ lines, encodeRecords marker .abort records = .ok lines) ↔ ∀ v ∈ records, v.IsRecord := by
  constructor
  · rintro ⟨lines, h⟩ v hv
    rw [encodeRecords, encodeFrom_abort, outcomesFrom_zero] at h
    obtain ⟨outcomes, hc, -⟩ := map_eq_ok.1 h
    obtain ⟨i, hi, rfl⟩ := List.mem_iff_getElem.1 hv
    have hat : records[i]?.map (encodeRecord marker i) = outcomes[i]?.map .ok := by
      rw [← List.getElem?_mapIdx, collect_eq_ok.1 hc, List.getElem?_map]
    rw [List.getElem?_eq_getElem hi, Option.map_some, eq_comm, Option.map_eq_some_iff] at hat
    obtain ⟨out, -, hout⟩ := hat
    exact (encodeRecord_succeeds_iff marker i).1 ⟨out, hout.symm⟩
  · intro hall
    cases h : encodeRecords marker .abort records with
    | ok lines => exact ⟨lines, rfl⟩
    | error e =>
      obtain ⟨i, v, hv, he, -⟩ := encodeRecords_abort_eq_error h
      obtain ⟨out, hout⟩ := (encodeRecord_succeeds_iff marker i).2 (hall v (List.mem_of_getElem? hv))
      rw [he] at hout
      cases hout

end

/-! ## What is kept -/

theorem kept?_eq_some {marker : String} {v w : Value} {i j : Nat} :
    kept? marker (v, i) = some (j, w) ↔ v.IsRecord ∧ i = j ∧ w = v.settle := by
  rw [← encodeRecord_succeeds_iff marker i, kept?]
  cases encodeRecord marker i v with
  | ok lines => simp [Except.toOption, eq_comm]
  | error e => simp [Except.toOption]

theorem mem_keptFrom {marker : String} {records : List Value} {i : Nat} {w : Value} :
    (i, w) ∈ keptFrom marker 0 records ↔ ∃ v, records[i]? = some v ∧ v.IsRecord ∧ w = v.settle := by
  simp only [keptFrom, List.mem_filterMap, Prod.exists, List.mem_zipIdx_iff_getElem?, kept?_eq_some]
  constructor
  · rintro ⟨v, j, hv, hr, rfl, rfl⟩
    exact ⟨v, hv, hr, rfl⟩
  · rintro ⟨v, hv, hr, rfl⟩
    exact ⟨v, i, hv, hr, rfl, rfl⟩

/-- What is skipped leaves the other records under their own indices. -/
theorem decodeRecords_skipped {marker : String} {records : List Value} {lines : List SExpr}
    (hl : encodeRecords marker .skip records = .ok lines)
    (hfit : ∀ v ∈ records, v.IsRecord → v.WellFormed ∧ v.NumbersStable) (hb : records.length ≤ Text.indexBound) :
    ∃ es rs, SExpr.read (SExpr.write lines) = .ok es ∧ decodeRecords marker es = .ok rs ∧ Keyed.Ascending rs ∧
      ∀ i w, (i, w) ∈ rs ↔ ∃ v, records[i]? = some v ∧ v.IsRecord ∧ w = v.settle := by
  have hkept : ∀ e ∈ records.zipIdx 0, e.1.Writable ∨
      ErrorPolicy.skip = .skip ∧ ∃ err, encodeRecord marker e.2 e.1 = .error err := by
    rintro ⟨v, i⟩ he
    cases hv : encodeRecord marker i v with
    | error err => exact .inr ⟨rfl, err, rfl⟩
    | ok out =>
      have hrecord := (encodeRecord_succeeds_iff marker i).1 ⟨out, hv⟩
      obtain ⟨hwell, hnumbers⟩ := hfit v (List.fst_mem_of_mem_zipIdx he) hrecord
      exact .inl ⟨⟨hrecord.shallow, hwell, hnumbers⟩, hrecord.isMapping⟩
  obtain ⟨lines', trees, hl', hp, hf, ht⟩ := encodeFrom_restores_kept marker .skip hkept (by rwa [Nat.zero_add])
  obtain rfl : lines' = lines := Except.ok.inj (hl'.symm.trans hl)
  have hdecode : decodeRecords marker (lines'.map SExpr.reread) = .ok (keptFrom marker 0 records) := by
    rw [decodeRecords, ht [] (List.forall_mem_nil _)]
    exact hf
  exact ⟨_, _, (SExpr.readsAs_lineChars hp).read_eq, hdecode, ascending_of_decodeRecords hdecode,
    fun i w => mem_keptFrom⟩

/-- Skipping always succeeds and keeps just the records that can be written, each under
its own index; aborting gives the same lines, or the error of the first record that
cannot be written. -/
theorem records_under_policy (marker : String) (records : List Value) :
    ∃ lines, encodeRecords marker .skip records = .ok lines ∧
      lines = (records.mapIdx (encodeRecord marker)).flatMap (fun outcome => outcome.toOption.getD []) ∧
      (∀ i v, records[i]? = some v → ((∃ out, encodeRecord marker i v = .ok out) ↔ v.IsRecord)) ∧
      ((∀ v ∈ records, v.IsRecord → v.WellFormed ∧ v.NumbersStable) → records.length ≤ Text.indexBound →
        ∃ es rs, SExpr.read (SExpr.write lines) = .ok es ∧ decodeRecords marker es = .ok rs ∧ Keyed.Ascending rs ∧
          ∀ i w, (i, w) ∈ rs ↔ ∃ v, records[i]? = some v ∧ v.IsRecord ∧ w = v.settle) ∧
      ((∀ v ∈ records, v.IsRecord) → encodeRecords marker .abort records = .ok lines) ∧
      ((∃ v ∈ records, ¬ v.IsRecord) → ∃ i v e, records[i]? = some v ∧
        (∀ j < i, ∀ u, records[j]? = some u → u.IsRecord) ∧ encodeRecord marker i v = .error e ∧
        encodeRecords marker .abort records = .error e ∧ e.record? = some i) := by
  refine ⟨_, encodeFrom_skip, by rw [outcomesFrom_zero], fun i v _ => encodeRecord_succeeds_iff marker i,
    decodeRecords_skipped encodeFrom_skip, ?_, ?_⟩
  · intro hall
    obtain ⟨lines, h⟩ := encodeRecords_abort_succeeds_iff.2 hall
    rw [h]
    exact (encodeRecords_abort_eq_ok h).symm.trans encodeFrom_skip
  · rintro ⟨u, hu, hnot⟩
    cases h : encodeRecords marker .abort records with
    | ok lines => exact absurd (encodeRecords_abort_succeeds_iff.1 ⟨lines, h⟩ u hu) hnot
    | error e =>
      obtain ⟨i, v, hv, he, hbefore⟩ := encodeRecords_abort_eq_error h
      exact ⟨i, v, e, hv, hbefore, he, rfl, record?_of_encodeRecord he⟩

/-- An empty record, one that fails after its first leaf, one that is no mapping and a
number in quotes. -/
def mixedRecords : List Value :=
  [.mapping [],
    .mapping [("a", .scalar (.boolean true)), ("b", .sequence [.sequence [.sequence [.sequence [.sequence []]]]])],
    .scalar .null, .mapping [("n", .scalar (.string "7"))]]

theorem records_under_policy_mixed : ∃ lines es rs, encodeRecords "json" .skip mixedRecords = .ok lines ∧
    SExpr.read (SExpr.write lines) = .ok es ∧ decodeRecords "json" es = .ok rs ∧
    (0, .mapping []) ∈ rs ∧ (3, .mapping [("n", .scalar (.number (.integer 7)))]) ∈ rs ∧
    (∀ w, (1, w) ∉ rs ∧ (2, w) ∉ rs) ∧ ∃ i e, encodeRecords "json" .abort mixedRecords = .error e ∧ e.record? = some i := by
  obtain ⟨lines, hl, -, hrecord, hkept, -, hfirst⟩ := records_under_policy "json" mixedRecords
  have hempty : (Value.mapping []).IsRecord := (hrecord 0 _ rfl).1 ⟨_, rfl⟩
  have hquoted : (Value.mapping [("n", .scalar (.string "7"))]).IsRecord := (hrecord 3 _ rfl).1 ⟨_, rfl⟩
  have hdeep : ¬ mixedRecords[1].IsRecord := fun h => nomatch (hrecord 1 _ rfl).2 h
  have hnull : ¬ mixedRecords[2].IsRecord := fun h => nomatch (hrecord 2 _ rfl).2 h
  have hfit : ∀ v ∈ mixedRecords, v.IsRecord → v.WellFormed ∧ v.NumbersStable := by
    have hfit₀ : (Value.mapping []).Fit := Value.fit_mapping (by simp [Keyed.keys]) (List.forall_mem_nil _)
    have hfit₃ : (Value.mapping [("n", .scalar (.string "7"))]).Fit :=
      Value.fit_mapping (by decide) (by simp [Value.fit_scalar, Value.nesting])
    simp only [mixedRecords, List.forall_mem_cons, List.not_mem_nil, false_implies, implies_true, and_true]
    exact ⟨fun _ => ⟨hfit₀.wellFormed, hfit₀.numbers⟩, fun h => absurd h hdeep, fun h => absurd h hnull,
      fun _ => ⟨hfit₃.wellFormed, hfit₃.numbers⟩⟩
  obtain ⟨es, rs, hread, hdecode, -, hmem⟩ := hkept hfit (by decide)
  obtain ⟨i, v, e, -, -, -, herror, hindex⟩ := hfirst ⟨mixedRecords[1], by simp [mixedRecords], hdeep⟩
  refine ⟨lines, es, rs, hl, hread, hdecode, (hmem 0 _).2 ⟨_, rfl, hempty, rfl⟩, (hmem 3 _).2 ⟨_, rfl, hquoted, rfl⟩,
    fun w => ⟨fun h => ?_, fun h => ?_⟩, i, e, herror, hindex⟩
  · obtain ⟨v, hv, hr, -⟩ := (hmem 1 w).1 h
    cases hv
    exact hdeep hr
  · obtain ⟨v, hv, hr, -⟩ := (hmem 2 w).1 h
    cases hv
    exact hnull hr

end AtomLines.Json
