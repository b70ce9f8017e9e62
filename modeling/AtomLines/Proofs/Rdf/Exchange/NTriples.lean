import AtomLines.Proofs.Rdf.Exchange.Fact
/-!
# Exported lines

A fact is written as a line. If its labels are portable, the line is read as the statement
of the fact; else it is wrong, and nothing after it is read.
-/

namespace AtomLines.Rdf.Exchange.NTriples

/-! ## Terms -/

theorem iri_append (i : Iri) (rest : List Char) :
    iri (i.text.toList ++ '>' :: rest) = some (i.text, rest) := by
  simp only [iri, iriBody_append i.chars, Option.bind_some, i.valid, String.ofList_toList]

theorem predicate_iriChars (i : Iri) (rest : List Char) : predicate (iriChars i ++ rest) = some (i.text, rest) := by
  rw [iriChars, List.cons_append, List.append_assoc]
  exact iri_append i rest

theorem resource_iriChars (depth : Nat) (i : Iri) (rest : List Char) :
    resource depth (iriChars i ++ rest) = some (.iri i.text, rest) := by
  obtain ⟨c, cs, he, hc⟩ := i.exists_cons
  have hlt : c ≠ '<' := by
    rintro rfl
    cases hc
  have hr : resource depth (iriChars i ++ rest) =
      (iri (i.text.toList ++ '>' :: rest)).map fun read => (.iri read.1, read.2) := by
    rw [iriChars, List.cons_append, List.append_assoc, he, List.cons_append]
    cases depth <;> rw [resource] <;> simp [hlt]
  rw [hr, iri_append]
  rfl

theorem finds_resource (depth : Nat) (r : Resource) (rest : List Char) :
    Finds r.Portable (resource depth (r.chars ++ ' ' :: rest)) r.node (' ' :: rest) := by
  cases r with
  | iri i => exact .of_eq (resource_iriChars depth i _)
  | blank l =>
    have hr : resource depth (blankChars l ++ ' ' :: rest) =
        (blankLabel (l.text.toList ++ ' ' :: rest)).map fun read => (.blank (String.ofList read.1), read.2) := by
      rw [blankChars, List.cons_append, List.cons_append]
      cases depth <;> rw [resource]
    have hl := (finds_blankLabel l rest).map fun label => Node.blank (String.ofList label)
    rw [String.ofList_toList, ← hr] at hl
    exact hl

/-! ## Objects

Blanks after a string are skipped while a tag or a datatype is looked for, so what is left
after an object is told up to blanks. -/

theorem skipBlanks_cons {c : Char} (h : c ≠ ' ' ∧ c ≠ '\t') (cs : List Char) : skipBlanks (c :: cs) = c :: cs := by
  simp [skipBlanks, h]

theorem skipBlanks_of_stuck {cs : List Char} (h : Stuck cs) : skipBlanks cs = cs := by
  obtain ⟨rest, rfl⟩ | ⟨c, rest, rfl, -⟩ := stuck_cases h <;> rfl

theorem finds_skipBlanks {α : Type} {portable : Prop} {found : Lexed α} {a : α} {rest : List Char}
    (h : Finds portable found a rest) :
    Finds portable (found.map fun (b, after) => (b, skipBlanks after)) a (skipBlanks rest) := by
  refine h.imp (fun ⟨hp, he⟩ => ⟨hp, by rw [he]; rfl⟩) fun ⟨hp, hs⟩ => ⟨hp, ?_⟩
  intro b after h
  obtain ⟨⟨b, after⟩, he, h⟩ := Option.map_eq_some_iff.1 h
  cases h
  have hstuck := hs b after he
  rwa [skipBlanks_of_stuck hstuck]

/-- What is read at the end of a line, up to blanks. -/
def objectAt (cs : List Char) : Lexed Node := (object cs).map fun (o, rest) => (o, skipBlanks rest)

theorem object_stringChars (s : String) (rest : List Char) :
    object (stringChars s ++ rest) = literal (s.toList.flatMap stringChar ++ '"' :: rest) := by
  rw [stringChars, List.cons_append, List.append_assoc]
  rfl

theorem objectAt_literal (l : Literal) (rest : List Char) :
    objectAt (literalChars l ++ ' ' :: '.' :: rest) = some (Value.node (.literal l), '.' :: rest) := by
  unfold objectAt
  cases l with
  | typed s d =>
    rw [literalChars, Value.node, List.append_assoc, object_stringChars]
    by_cases hd : d = .xsdString
    · simp only [if_pos hd, List.nil_append, literal, stringBody_flatMap, Option.bind_some, String.ofList_toList]
      rfl
    · have hp : predicate (skipBlanks (iriChars d ++ ' ' :: '.' :: rest)) = some (d.text, ' ' :: '.' :: rest) :=
        predicate_iriChars d _
      simp only [if_neg hd, List.cons_append, literal, stringBody_flatMap, Option.bind_some, String.ofList_toList,
        skipBlanks_cons (show '^' ≠ ' ' ∧ '^' ≠ '\t' by decide), hp]
      rfl
  | tagged s t =>
    simp only [literalChars, List.append_assoc, object_stringChars, literal, stringBody_flatMap, Option.bind_some,
      String.ofList_toList, List.cons_append, skipBlanks_cons (show '@' ≠ ' ' ∧ '@' ≠ '\t' by decide),
      languageTag_append t (show LanguageTag.isTagChar ' ' = false from rfl)]
    rfl

theorem object_resource (r : Resource) (rest : List Char) :
    object (r.chars ++ rest) = resource maxDepth (r.chars ++ rest) := by
  cases r <;> rfl

theorem finds_objectAt (v : Value) (rest : List Char) :
    Finds v.Portable (objectAt (v.chars ++ ' ' :: '.' :: rest)) v.node ('.' :: rest) := by
  cases v with
  | literal l => exact .of_eq (objectAt_literal l rest)
  | resource r =>
    rw [objectAt, Value.chars, object_resource]
    exact finds_skipBlanks (finds_resource maxDepth r ('.' :: rest))

/-! ## Lines -/

theorem predicate_of_stuck {cs : List Char} (h : Stuck cs) : predicate (skipBlanks cs) = none := by
  rw [skipBlanks_of_stuck h]
  obtain ⟨rest, rfl⟩ | ⟨c, rest, rfl, -⟩ := stuck_cases h <;> rfl

/-- The statement of a line and what is left after it, up to blanks. -/
def statementAt (cs : List Char) : Lexed Statement := (statement cs).map fun (s, rest) => (s, skipBlanks rest)

theorem skipBlanks_resource (r : Resource) (rest : List Char) :
    skipBlanks (r.chars ++ rest) = r.chars ++ rest := by
  cases r <;> rfl

theorem skipBlanks_value (v : Value) (rest : List Char) :
    skipBlanks (' ' :: (v.chars ++ rest)) = v.chars ++ rest := by
  cases v with
  | resource r => exact skipBlanks_resource r rest
  | literal l => cases l <;> rfl

theorem finds_statementAt (x : Fact) (rest : List Char) :
    Finds x.Portable (statementAt (x.written.chars ++ ' ' :: '.' :: rest)) x.statement ('.' :: rest) := by
  obtain ⟨hs, he⟩ | ⟨hs, hstuck⟩ := finds_resource maxDepth x.subject
      (iriChars x.predicate ++ ' ' :: (x.object.chars ++ ' ' :: '.' :: rest))
  · have hp : ∀ i rest, predicate (skipBlanks (' ' :: (iriChars i ++ rest))) = some (i.text, rest) :=
      fun i rest => predicate_iriChars i rest
    have hobject : statementAt (x.written.chars ++ ' ' :: '.' :: rest) =
        (objectAt (x.object.chars ++ ' ' :: '.' :: rest)).map
          fun (o, rest) => (Statement.mk x.subject.node x.predicate.text o, rest) := by
      rw [x.chars_written, statementAt, statement, he]
      simp only [Option.bind_eq_bind, Option.bind_some, hp, skipBlanks_value, objectAt, Option.map_map]
      cases object (x.object.chars ++ ' ' :: '.' :: rest) <;> rfl
    have hportable : x.Portable ↔ x.object.Portable := ⟨fun hx => hx.object, fun ho => ⟨hs, ho⟩⟩
    rw [hobject, hportable]
    exact (finds_objectAt x.object rest).map (Statement.mk x.subject.node x.predicate.text)
  · refine .inr ⟨fun hx => hs hx.subject, ?_⟩
    intro s after h
    rw [x.chars_written, statementAt, statement] at h
    cases hr : resource maxDepth (x.subject.chars ++ ' ' ::
        (iriChars x.predicate ++ ' ' :: (x.object.chars ++ ' ' :: '.' :: rest))) with
    | none =>
      rw [hr] at h
      cases h
    | some found =>
      have hnone := predicate_of_stuck (hstuck found.1 found.2 hr)
      simp only [hr, Option.bind_eq_bind, Option.bind_some, hnone, Option.bind_none, Option.map_none] at h
      cases h

/-- A line that starts with a term has a statement, a point and no more. -/
theorem line_eq (x : Fact) (rest : List Char) :
    line (x.written.chars ++ rest) =
      (statementAt (x.written.chars ++ rest)).bind fun (s, after) =>
        match after with
        | '.' :: rest => if endsLine (skipBlanks rest) then some (some s) else none
        | _ => none := by
  have hskip : skipBlanks (x.written.chars ++ rest) = x.written.chars ++ rest := by
    rw [x.chars_written, skipBlanks_resource]
  have hstart : endsLine (x.written.chars ++ rest) = false := by
    rw [x.chars_written]
    cases x.subject <;> rfl
  simp only [line, hskip, hstart, Bool.false_eq_true, if_false, statementAt]
  cases statement (x.written.chars ++ rest) <;> rfl

theorem line_fact (x : Fact) :
    x.Portable ∧ line (x.written.chars ++ [' ', '.']) = some (some x.statement) ∨
      ¬ x.Portable ∧ line (x.written.chars ++ [' ', '.']) = none := by
  rw [line_eq]
  obtain ⟨hx, he⟩ | ⟨hx, hstuck⟩ := finds_statementAt x []
  · rw [he]
    exact .inl ⟨hx, rfl⟩
  · refine .inr ⟨hx, ?_⟩
    cases hs : statementAt (x.written.chars ++ [' ', '.']) with
    | none => rfl
    | some found =>
      obtain ⟨s, after⟩ := found
      obtain ⟨rest, rfl⟩ | ⟨c, rest, rfl, hc⟩ := stuck_cases (hstuck s after hs)
      · rfl
      · rcases hc with rfl | rfl <;> rfl

/-! ## Texts -/

theorem pieces_append {cs : List Char} (h : '\n' ∉ cs) (rest : List Char) :
    Text.pieces (cs ++ '\n' :: rest) = (cs, (Text.pieces rest).1 :: (Text.pieces rest).2) := by
  induction cs with
  | nil => rfl
  | cons c cs ih =>
    rw [List.mem_cons, not_or] at h
    rw [List.cons_append, Text.pieces, ih h.2]
    exact if_neg (Ne.symm h.1)

theorem linefeed_notMem_iri (i : Iri) : '\n' ∉ i.text.toList := fun h => by cases i.chars _ h

theorem linefeed_notMem_string (s : String) : '\n' ∉ stringChars s := by
  have hc : ∀ c, '\n' ∉ stringChar c := by
    intro c
    obtain ⟨e, hs, he⟩ | ⟨hs, -, -, hn, -⟩ := stringChar_cases c
    · have hn : e ≠ '\n' := by
        rintro rfl
        cases he
      simp [hs, Ne.symm hn]
    · simp [hs, Ne.symm hn]
  simp [stringChars, hc]

theorem linefeed_notMem_resource (r : Resource) : '\n' ∉ r.chars := by
  cases r with
  | iri i => simp [Resource.chars, iriChars, linefeed_notMem_iri]
  | blank l =>
    have hl : '\n' ∉ l.text.toList := fun h => by cases l.chars _ h
    simp [Resource.chars, blankChars, hl]

theorem linefeed_notMem_value (v : Value) : '\n' ∉ v.chars := by
  cases v with
  | resource r => exact linefeed_notMem_resource r
  | literal l =>
    cases l with
    | typed s d =>
      by_cases hd : d = .xsdString
      · simp [Value.chars, literalChars, linefeed_notMem_string, hd]
      · simp [Value.chars, literalChars, linefeed_notMem_string, hd, iriChars, linefeed_notMem_iri]
    | tagged s t =>
      have ht : '\n' ∉ t.text.toList := fun h => by cases t.chars _ h
      simp [Value.chars, literalChars, linefeed_notMem_string, ht]

theorem linefeed_notMem_fact (x : Fact) : '\n' ∉ x.written.chars := by
  simp [Fact.written, WrittenTriple.chars, linefeed_notMem_resource, linefeed_notMem_value, iriChars, linefeed_notMem_iri]

theorem read_cons (x : Fact) (xs : List Fact) :
    read (nTriplesChars ((x :: xs).map Fact.written)) =
      match line (x.written.chars ++ [' ', '.']) with
      | none => ⟨[], false, []⟩
      | some none => read (nTriplesChars (xs.map Fact.written))
      | some (some s) =>
        let r := read (nTriplesChars (xs.map Fact.written))
        { r with statements := s :: r.statements } := by
  have htext : nTriplesChars ((x :: xs).map Fact.written) =
      (x.written.chars ++ [' ', '.']) ++ '\n' :: nTriplesChars (xs.map Fact.written) := by
    simp [nTriplesChars]
  rw [htext, read, pieces_append (by simp [linefeed_notMem_fact])]
  rfl

/-- Exported lines are read as their facts, up to the first that is not portable. -/
theorem read_facts (xs : List Fact) :
    (∀ x ∈ xs, x.Portable) ∧ read (nTriplesChars (xs.map Fact.written)) = ⟨xs.map Fact.statement, true, []⟩ ∨
      ¬ (∀ x ∈ xs, x.Portable) ∧ (read (nTriplesChars (xs.map Fact.written))).complete = false := by
  induction xs with
  | nil => exact .inl ⟨nofun, rfl⟩
  | cons x xs ih =>
    rw [List.forall_mem_cons, read_cons]
    obtain ⟨hx, he⟩ | ⟨hx, he⟩ := line_fact x
    · rw [he]
      refine ih.imp (fun ⟨hxs, hr⟩ => ⟨⟨hx, hxs⟩, ?_⟩) fun ⟨hxs, hr⟩ => ⟨fun h => hxs h.2, hr⟩
      dsimp only
      rw [hr]
      rfl
    · rw [he]
      exact .inr ⟨fun h => hx h.1, rfl⟩

end AtomLines.Rdf.Exchange.NTriples
