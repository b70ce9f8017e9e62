import AtomLines.Proofs.Rdf.Exchange.Parse
/-!
# Exported statements

After an object the text goes on in one of four ways: with another object, with another
predicate, with another statement, or with its end. What a reader does from there on is
one step of reading, so that the induction is on the facts that are left.
-/

namespace AtomLines.Rdf.Exchange.Turtle

section
variable {α : Type}

/-- The step fails in front of the text. -/
def Fails (p : Parse α) (cs : List Char) : Prop :=
  ∀ ss, (p.run (plain cs ss)).1 = none

/-- The step reads the text to its end, and from it the facts, if these are portable; else it fails. -/
def Completes (p : Parse Unit) (cs : List Char) (xs : List Fact) : Prop :=
  ∀ ss, (∀ x ∈ xs, x.Portable) ∧
      p.run (plain cs ss) = (some (), plain [] ((xs.map fun x => (x.relabel apart).statement).reverse ++ ss)) ∨
    ¬ (∀ x ∈ xs, x.Portable) ∧ (p.run (plain cs ss)).1 = none

theorem Completes.congr {p q : Parse Unit} {cs ds : List Char} {xs : List Fact} (h : Completes p cs xs)
    (he : ∀ ss, q.run (plain ds ss) = p.run (plain cs ss)) : Completes q ds xs := by
  intro ss
  rw [he]
  exact h ss

theorem run_bind_congr {β : Type} {p q : Parse α} {s t : State} (h : q.run s = p.run t) (k : α → Parse β) :
    (q >>= k).run s = (p >>= k).run t := by
  rw [run_bind_eq, run_bind_eq, h]

end

/-! ## After an object -/

/-- What `objects` does after an object. -/
def moreObjects (fuel depth : Nat) (subject : Node) (predicate : String) : Parse Unit := do
  if ← startsWith ['\x7b', '|'] then
    expect ['\x7b', '|']
    space
    predicates fuel depth .quotation
    expect ['|', '\x7d']
    space
  if ← startsWith [','] then
    expect [',']
    space
    objects fuel depth subject predicate

/-- What `predicates` does after the objects of a predicate. -/
def morePredicates (fuel depth : Nat) (subject : Node) : Parse Unit := do
  if ← startsWith [';'] then
    semicolons (← peek).length
    if endsPredicates (← peek) then pure () else predicates fuel depth subject

/-- What is read after an object, to the end of the text. -/
def afterObject (objectFuel predicateFuel length fuel : Nat) (subject : Node) (predicate : String) : Parse Unit := do
  moreObjects objectFuel maxDepth subject predicate
  morePredicates predicateFuel maxDepth subject
  expect ['.']
  statements length fuel

section
variable (f₁ f₂ length fuel depth : Nat) (s : Node) (p : String)

theorem objects_succ : objects (fuel + 1) depth s p = (do
    let o ← spaced (object fuel depth)
    emit s p o
    moreObjects fuel depth s p) := by
  rw [objects, spaced]
  simp only [bind_assoc, pure_bind]
  rfl

theorem predicates_succ : predicates (fuel + 1) depth s = (do
    let p ← verb
    space
    objects fuel depth s p
    morePredicates fuel depth s) := by
  rw [predicates]
  rfl

variable {c : Char} (cs : List Char) (ss : List Statement)

theorem run_moreObjects_comma :
    (moreObjects fuel depth s p).run (plain (',' :: cs) ss) = (objects fuel depth s p).run (plain (skipSpace cs) ss) := by
  rw [moreObjects, run_startsWith]
  show (startsWith [','] >>= _).run _ = _
  rw [run_startsWith]
  show (expect [','] >>= fun _ => space >>= fun _ => objects fuel depth s p : Parse Unit).run (plain ([','] ++ cs) ss) = _
  rw [run_expect, run_space]

theorem run_moreObjects_of_ne (h₁ : c ≠ '\x7b') (h₂ : c ≠ ',') :
    (moreObjects fuel depth s p).run (plain (c :: cs) ss) = (some (), plain (c :: cs) ss) := by
  have hb : ['\x7b', '|'].isPrefixOf (c :: cs) = false := by simp [List.isPrefixOf, Ne.symm h₁]
  have hc : [','].isPrefixOf (c :: cs) = false := by simp [List.isPrefixOf, Ne.symm h₂]
  rw [moreObjects, run_startsWith, hb]
  show (startsWith [','] >>= _).run _ = _
  rw [run_startsWith, hc]
  rfl

theorem run_semicolons_of_ne (h : c ≠ ';') :
    (semicolons fuel).run (plain (c :: cs) ss) = (some (), plain (c :: cs) ss) := by
  have hc : [';'].isPrefixOf (c :: cs) = false := by simp [List.isPrefixOf, Ne.symm h]
  cases fuel with
  | zero => rfl
  | succ fuel =>
    rw [semicolons, run_startsWith, hc]
    rfl

theorem run_morePredicates_semicolon (i : Iri) :
    (morePredicates fuel depth s).run (plain (';' :: '\n' :: '\t' :: (iriChars i ++ cs)) ss) =
      (predicates fuel depth s).run (plain (iriChars i ++ cs) ss) := by
  have hskip : skipSpace ('\n' :: '\t' :: (iriChars i ++ cs)) = iriChars i ++ cs := by
    rw [skipSpace_of_isGap rfl, skipSpace_of_isGap rfl]
    exact skipSpace_of_not rfl (by decide) _
  have hone : ∀ n, (semicolons (n + 1)).run (plain (';' :: '\n' :: '\t' :: (iriChars i ++ cs)) ss) =
      (some (), plain (iriChars i ++ cs) ss) := by
    intro n
    rw [semicolons, run_startsWith]
    show (expect [';'] >>= fun _ => space >>= fun _ => semicolons n : Parse Unit).run
      (plain ([';'] ++ '\n' :: '\t' :: (iriChars i ++ cs)) ss) = _
    rw [run_expect, run_space, hskip]
    exact run_semicolons_of_ne n _ ss (by decide)
  rw [morePredicates, run_startsWith]
  show (peek >>= _).run _ = _
  rw [run_peek, List.length_cons, run_bind (hone _), run_peek]
  rfl

theorem run_morePredicates_of_ne (h : c ≠ ';') :
    (morePredicates fuel depth s).run (plain (c :: cs) ss) = (some (), plain (c :: cs) ss) := by
  have hc : [';'].isPrefixOf (c :: cs) = false := by simp [List.isPrefixOf, Ne.symm h]
  rw [morePredicates, run_startsWith, hc]
  rfl

/-- Other statements follow after a point. -/
theorem run_afterObject_point :
    (afterObject f₁ f₂ length fuel s p).run (plain ('.' :: cs) ss) = (statements length fuel).run (plain cs ss) := by
  rw [afterObject, run_bind (run_moreObjects_of_ne f₁ maxDepth s p cs ss (by decide) (by decide)),
    run_bind (run_morePredicates_of_ne f₂ maxDepth s cs ss (by decide))]
  exact run_expect ['.'] fun _ => statements length fuel

end

/-! ## Statements -/

/-- In front of one of these characters a reader takes triples, and no declaration. -/
theorem run_statements {c : Char} (hc : c = '<' ∨ c = '_' ∨ c = '.' ∨ c = ':') (length fuel : Nat) (cs : List Char)
    (ss : List Statement) :
    (statements length (fuel + 1)).run (plain (c :: cs) ss) = (do
      let node ← spaced (subject length)
      predicates length maxDepth node
      expect ['.']
      statements length fuel : Parse Unit).run (plain (c :: cs) ss) := by
  have hskip : skipSpace (c :: cs) = c :: cs := by
    rcases hc with rfl | rfl | rfl | rfl <;> exact skipSpace_of_not rfl (by decide) cs
  have hdeclaration : "@prefix".toList.isPrefixOf (c :: cs) = false ∧ "@base".toList.isPrefixOf (c :: cs) = false := by
    rcases hc with rfl | rfl | rfl | rfl <;> exact ⟨rfl, rfl⟩
  have hkeyword : ∀ next, startsKeyword "base".toList next (c :: cs) = false ∧
      startsKeyword "prefix".toList next (c :: cs) = false := by
    intro next
    rcases hc with rfl | rfl | rfl | rfl <;> simp [startsKeyword]
  have hbracket : ['['].isPrefixOf (c :: cs) = false := by
    rcases hc with rfl | rfl | rfl | rfl <;> rfl
  have htriples : (triples length).run (plain (c :: cs) ss) =
      (spaced (subject length) >>= fun node => predicates length maxDepth node).run (plain (c :: cs) ss) := by
    rw [triples, run_peek, hbracket, spaced]
    simp only [bind_assoc, pure_bind]
    rfl
  have hstatement : (statement length).run (plain (c :: cs) ss) =
      (triples length >>= fun _ => expect ['.']).run (plain (c :: cs) ss) := by
    rw [statement, run_peek]
    simp only [hdeclaration, hkeyword, Bool.false_eq_true, if_false]
  rw [statements, run_space, hskip, run_peek, if_neg (List.cons_ne_nil c cs), run_bind_congr hstatement, bind_assoc,
    run_bind_congr htriples, bind_assoc]

/-! ## Where a reader is stuck -/

section
variable {c : Char} (hc : c = '.' ∨ c = ':') (cs : List Char)
include hc

theorem fails_iri : Fails iri (c :: cs) := by
  intro ss
  have hc' : ['<'].isPrefixOf (c :: cs) = false := by rcases hc with rfl | rfl <;> rfl
  rw [iri, run_startsWith, hc']
  show (prefixedName.run (plain (c :: cs) ss)).1 = none
  rw [prefixedName]
  rcases hc with rfl | rfl
  · exact run_lex_none rfl _
  · rw [run_lex (show prefixLabel (':' :: cs) = some ([], cs) from rfl)]
    rfl

theorem fails_verb : Fails verb (c :: cs) := by
  intro ss
  have hc' : isTypeWord (c :: cs) = false := by rcases hc with rfl | rfl <;> rfl
  rw [verb, run_peek, hc']
  exact fails_iri hc cs ss

theorem fails_subject (fuel : Nat) : Fails (subject fuel) (c :: cs) := by
  intro ss
  have hb : ['['].isPrefixOf (c :: cs) = false := by rcases hc with rfl | rfl <;> rfl
  have hu : ['_'].isPrefixOf (c :: cs) = false := by rcases hc with rfl | rfl <;> rfl
  have hp : ['('].isPrefixOf (c :: cs) = false := by rcases hc with rfl | rfl <;> rfl
  have hq : ['<', '<'].isPrefixOf (c :: cs) = false := by rcases hc with rfl | rfl <;> rfl
  simp only [subject, run_startsWith, hb, hu, hp, hq, Bool.false_eq_true, if_false]
  exact run_bind_none (fails_iri hc cs ss)

theorem fails_predicates (fuel depth : Nat) (s : Node) : Fails (predicates fuel depth s) (c :: cs) := by
  intro ss
  cases fuel with
  | zero =>
    rw [predicates]
    rfl
  | succ fuel =>
    rw [predicates_succ]
    exact run_bind_none (fails_verb hc cs ss)

theorem fails_statements (length fuel : Nat) : Fails (statements length fuel) (c :: cs) := by
  intro ss
  cases fuel with
  | zero => rfl
  | succ fuel =>
    rw [run_statements (.inr (.inr hc))]
    exact run_bind_none (run_bind_none (fails_subject hc cs length ss))

end

theorem fails_afterObject {cs : List Char} (h : Stuck cs) (f₁ f₂ length fuel : Nat) (s : Node) (p : String) :
    Fails (afterObject f₁ f₂ length fuel s p) cs := by
  intro ss
  obtain ⟨rest, rfl⟩ | ⟨c, rest, rfl, hc⟩ := stuck_cases h
  · rw [afterObject, run_bind (run_moreObjects_of_ne f₁ maxDepth s p rest ss (by decide) (by decide)),
      run_bind (run_morePredicates_of_ne f₂ maxDepth s rest ss (by decide))]
    exact run_expect_none rfl _
  · rw [run_afterObject_point]
    exact fails_statements hc rest length fuel ss

/-! ## Facts -/

section
variable {x : Fact} {xs : List Fact} {c : Char} {rest : List Char} {f₁ f₂ length fuel : Nat}

/-- One more object, and then what follows it. -/
theorem completes_object (hx : x.subject.Portable) (hc : isMark c)
    (h : Completes (afterObject (f₁ + 1) f₂ length fuel (x.relabel apart).subject.node x.predicate.text) (c :: rest) xs) :
    Completes (do
      objects (f₁ + 2) maxDepth (x.relabel apart).subject.node x.predicate.text
      morePredicates f₂ maxDepth (x.relabel apart).subject.node
      expect ['.']
      statements length fuel) (x.object.chars ++ ' ' :: c :: rest) (x :: xs) := by
  intro ss
  rw [objects_succ, bind_assoc, List.forall_mem_cons]
  obtain ⟨ho, he⟩ | ⟨ho, he | ⟨o, after, he, hstuck⟩⟩ := reads_object x.object hc rest f₁ maxDepth ss
  · rw [run_bind he, bind_assoc, run_emit]
    refine (h _).imp (fun ⟨hxs, hr⟩ => ⟨⟨⟨hx, ho⟩, hxs⟩, ?_⟩) fun ⟨hxs, hr⟩ => ⟨fun hall => hxs hall.2, hr⟩
    rw [List.map_cons, List.reverse_cons, List.append_assoc]
    exact hr
  · exact .inr ⟨fun hall => ho hall.1.object, run_bind_none he⟩
  · refine .inr ⟨fun hall => ho hall.1.object, ?_⟩
    rw [run_bind he, bind_assoc, run_emit]
    exact fails_afterObject hstuck _ _ _ _ _ _ _

/-- One more predicate with an object, and then what follows it. -/
theorem completes_predicate (hx : x.subject.Portable) (hc : isMark c)
    (h : Completes (afterObject (f₁ + 1) (f₁ + 2) length fuel (x.relabel apart).subject.node x.predicate.text) (c :: rest) xs) :
    Completes (do
      predicates (f₁ + 3) maxDepth (x.relabel apart).subject.node
      expect ['.']
      statements length fuel) (iriChars x.predicate ++ ' ' :: (x.object.chars ++ ' ' :: c :: rest)) (x :: xs) := by
  have hskip : skipSpace (' ' :: (x.object.chars ++ ' ' :: c :: rest)) = x.object.chars ++ ' ' :: c :: rest := by
    rw [skipSpace_of_isGap rfl, skipSpace_value]
  refine (completes_object hx hc h).congr fun ss => ?_
  rw [predicates_succ, bind_assoc, run_bind (run_verb x.predicate _ ss), bind_assoc, run_space, hskip, bind_assoc]

/-- One more statement, and then what follows it. -/
theorem completes_statement (hc : isMark c) (h : x.subject.Portable → Completes
      (afterObject (f₁ + 1) (f₁ + 2) (f₁ + 3) fuel (x.relabel apart).subject.node x.predicate.text) (c :: rest) xs) :
    Completes (statements (f₁ + 3) (fuel + 1)) (x.written.chars ++ ' ' :: c :: rest) (x :: xs) := by
  intro ss
  have hstart : ∃ d cs, x.written.chars ++ ' ' :: c :: rest = d :: cs ∧ (d = '<' ∨ d = '_') := by
    rw [x.chars_written]
    cases x.subject with
    | iri i => exact ⟨_, _, rfl, .inl rfl⟩
    | blank l => exact ⟨_, _, rfl, .inr rfl⟩
  obtain ⟨d, cs, hd, hd'⟩ := hstart
  rw [hd, run_statements (hd'.imp_right .inl), ← hd, x.chars_written]
  have hskip : skipSpace (iriChars x.predicate ++ ' ' :: (x.object.chars ++ ' ' :: c :: rest)) =
      iriChars x.predicate ++ ' ' :: (x.object.chars ++ ' ' :: c :: rest) :=
    skipSpace_value (.resource (.iri x.predicate)) _
  obtain ⟨hs, he⟩ | ⟨hs, he | ⟨node, after, he, hstuck⟩⟩ := reads_subject x.subject
      (iriChars x.predicate ++ ' ' :: (x.object.chars ++ ' ' :: c :: rest)) (f₁ + 3) ss
  · rw [run_bind he, hskip]
    exact completes_predicate hs hc (h hs) ss
  · exact .inr ⟨fun hall => hs (hall x List.mem_cons_self).subject, run_bind_none he⟩
  · refine .inr ⟨fun hall => hs (hall x List.mem_cons_self).subject, ?_⟩
    rw [run_bind he]
    refine run_bind_none ?_
    obtain ⟨rest, rfl⟩ | ⟨c, rest, rfl, -⟩ := stuck_cases hstuck
    · exact fails_predicates (.inr rfl) _ _ _ _ _
    · exact fails_predicates (.inl rfl) _ _ _ _ _

end

/-! ## Texts -/

theorem turtleRest_cons (w : WrittenTriple) (ws : List WrittenTriple) :
    ∃ c rest, turtleRest w ws = ' ' :: c :: rest ∧ isMark c := by
  cases ws with
  | nil => exact ⟨_, _, rfl, .inl rfl⟩
  | cons v ws =>
    rw [turtleRest]
    split
    · split
      · exact ⟨_, _, rfl, .inr (.inl rfl)⟩
      · exact ⟨_, _, rfl, .inr (.inr rfl)⟩
    · exact ⟨_, _, rfl, .inl rfl⟩

section
variable {x y : Fact} {ws : List WrittenTriple}

/-- Another object. -/
theorem turtleRest_object (hs : y.subject = x.subject) (hp : y.predicate = x.predicate) :
    turtleRest x.written (y.written :: ws) = ' ' :: ',' :: ' ' :: (y.object.chars ++ turtleRest y.written ws) := by
  rw [turtleRest, if_pos (Fact.written_subject_inj.2 hs), if_pos (Fact.written_predicate_inj.2 hp)]
  rfl

/-- Another predicate. -/
theorem turtleRest_predicate (hs : y.subject = x.subject) (hp : y.predicate ≠ x.predicate) :
    turtleRest x.written (y.written :: ws) = ' ' :: ';' :: '\n' :: '\t' ::
      (iriChars y.predicate ++ ' ' :: (y.object.chars ++ turtleRest y.written ws)) := by
  rw [turtleRest, if_pos (Fact.written_subject_inj.2 hs), if_neg (mt Fact.written_predicate_inj.1 hp)]
  simp [Fact.written]

/-- Another statement. -/
theorem turtleRest_statement (hs : y.subject ≠ x.subject) :
    turtleRest x.written (y.written :: ws) = ' ' :: '.' :: '\n' :: (y.written.chars ++ turtleRest y.written ws) := by
  rw [turtleRest, if_neg (mt Fact.written_subject_inj.1 hs)]
  rfl

end

theorem run_statements_linefeed (length fuel : Nat) (cs : List Char) (ss : List Statement) :
    (statements length (fuel + 1)).run (plain ('\n' :: cs) ss) = (statements length (fuel + 1)).run (plain cs ss) := by
  rw [statements, run_space, run_space, skipSpace_of_isGap rfl]

theorem completes_nil (length fuel : Nat) : Completes (statements length (fuel + 1)) [] [] :=
  fun _ => .inl ⟨nofun, rfl⟩

/-- From an object on, the rest of an exported text is read as the facts that are left. -/
theorem completes_rest (x : Fact) (hx : x.subject.Portable) (xs : List Fact) {c : Char} {rest : List Char}
    {f₁ f₂ length fuel : Nat} (h₁ : xs.length + 1 ≤ f₁) (h₂ : xs.length + 2 ≤ f₂) (hl : xs.length + 3 ≤ length)
    (hf : xs.length + 1 ≤ fuel) (ht : turtleRest x.written (xs.map Fact.written) = ' ' :: c :: rest) :
    Completes (afterObject f₁ f₂ length fuel (x.relabel apart).subject.node x.predicate.text) (c :: rest) xs := by
  induction xs generalizing x c rest f₁ f₂ fuel with
  | nil =>
    cases ht
    obtain ⟨fuel, rfl⟩ := Nat.exists_eq_add_of_le' (show 1 ≤ fuel from hf)
    refine (completes_nil length fuel).congr fun ss => ?_
    rw [run_afterObject_point, run_statements_linefeed]
  | cons y xs ih =>
    obtain ⟨d, more, hmore, hd⟩ := turtleRest_cons y.written (xs.map Fact.written)
    rw [List.length_cons] at h₁ h₂ hl hf
    rw [List.map_cons] at ht
    -- The separator before the next fact tells what it shares with this one: the subject and
    -- the predicate, the subject alone, or nothing.
    by_cases hs : y.subject = x.subject
    · have hy : y.subject.Portable := hs ▸ hx
      have hnode : (x.relabel apart).subject.node = (y.relabel apart).subject.node := by
        rw [Fact.relabel, Fact.relabel, hs]
      rw [hnode]
      by_cases hp : y.predicate = x.predicate
      · rw [turtleRest_object hs hp, hmore] at ht
        cases ht
        obtain ⟨f₁, rfl⟩ := Nat.exists_eq_add_of_le' (show 2 ≤ f₁ by omega)
        have hk : Completes (afterObject (f₁ + 1) f₂ length fuel (y.relabel apart).subject.node y.predicate.text)
            (d :: more) xs := ih y hy (by omega) (by omega) (by omega) (by omega) hmore
        refine (completes_object hy hd hk).congr fun ss => ?_
        rw [afterObject, ← hp]
        refine run_bind_congr ?_ _
        rw [run_moreObjects_comma, skipSpace_of_isGap rfl, skipSpace_value]
      · rw [turtleRest_predicate hs hp, hmore] at ht
        cases ht
        obtain ⟨f₂, rfl⟩ := Nat.exists_eq_add_of_le' (show 3 ≤ f₂ by omega)
        have hk : Completes (afterObject (f₂ + 1) (f₂ + 2) length fuel (y.relabel apart).subject.node y.predicate.text)
            (d :: more) xs := ih y hy (by omega) (by omega) (by omega) (by omega) hmore
        refine (completes_predicate hy hd hk).congr fun ss => ?_
        rw [afterObject, run_bind (run_moreObjects_of_ne _ _ _ _ _ ss (by decide) (by decide))]
        refine run_bind_congr ?_ _
        rw [run_morePredicates_semicolon]
    · rw [turtleRest_statement hs, hmore] at ht
      cases ht
      obtain ⟨fuel, rfl⟩ := Nat.exists_eq_add_of_le' (show 1 ≤ fuel by omega)
      obtain ⟨length, rfl⟩ := Nat.exists_eq_add_of_le' (show 3 ≤ length by omega)
      have hk : y.subject.Portable → Completes (afterObject (length + 1) (length + 2) (length + 3) fuel
          (y.relabel apart).subject.node y.predicate.text) (d :: more) xs :=
        fun hy => ih y hy (by omega) (by omega) (by omega) (by omega) hmore
      refine (completes_statement hd hk).congr fun ss => ?_
      rw [run_afterObject_point, run_statements_linefeed]

/-- An exported text is read as its facts. -/
theorem completes_text (xs : List Fact) {length fuel : Nat} (hl : xs.length + 3 ≤ length) (hf : xs.length + 1 ≤ fuel) :
    Completes (statements length fuel) (turtleChars (xs.map Fact.written)) xs := by
  obtain ⟨fuel, rfl⟩ := Nat.exists_eq_add_of_le' (show 1 ≤ fuel by omega)
  cases xs with
  | nil => exact completes_nil length fuel
  | cons x xs =>
    rw [List.length_cons] at hl hf
    obtain ⟨c, rest, ht, hc⟩ := turtleRest_cons x.written (xs.map Fact.written)
    obtain ⟨length, rfl⟩ := Nat.exists_eq_add_of_le' (show 3 ≤ length by omega)
    rw [List.map_cons, turtleChars, ht]
    exact completes_statement hc fun hx => completes_rest x hx xs (by omega) (by omega) (by omega) (by omega) ht

theorem length_le_turtleRest (w : WrittenTriple) (ws : List WrittenTriple) : ws.length ≤ (turtleRest w ws).length := by
  induction ws generalizing w with
  | nil => exact Nat.zero_le _
  | cons v ws ih =>
    have hv := ih v
    rw [turtleRest, List.length_append]
    split
    · split
      all_goals
        simp only [List.cons_append, List.length_cons]
        omega
    · simp only [List.length_cons]
      omega

theorem length_le_turtleChars (ws : List WrittenTriple) : ws.length ≤ (turtleChars ws).length := by
  cases ws with
  | nil => exact Nat.zero_le _
  | cons w ws =>
    have hw := length_le_turtleRest w ws
    simp only [turtleChars, WrittenTriple.chars, List.length_append, List.length_cons]
    omega

/-- There is fuel enough for a text of facts. -/
theorem read_facts (xs : List Fact) :
    (∀ x ∈ xs, x.Portable) ∧ read none (turtleChars (xs.map Fact.written)) =
        ⟨xs.map fun x => (x.relabel apart).statement, true, []⟩ ∨
      ¬ (∀ x ∈ xs, x.Portable) ∧ (read none (turtleChars (xs.map Fact.written))).complete = false := by
  have hlen := length_le_turtleChars (xs.map Fact.written)
  rw [List.length_map] at hlen
  generalize hcs : turtleChars (xs.map Fact.written) = cs at hlen
  have hl : xs.length + 3 ≤ fuelFor cs := by
    unfold fuelFor
    omega
  have hf : xs.length + 1 ≤ fuelFor cs := by omega
  have hrun : read none cs = (fun r : Option Unit × State => ⟨r.2.statements.reverse, r.1.isSome, r.2.prefixes⟩)
      ((statements (fuelFor cs) (fuelFor cs)).run (plain cs [])) := rfl
  rw [hrun, ← hcs]
  refine (completes_text xs (hcs ▸ hl) (hcs ▸ hf) []).imp (fun ⟨hx, he⟩ => ⟨hx, ?_⟩) fun ⟨hx, he⟩ => ⟨hx, ?_⟩
  · rw [he]
    simp [plain]
  · dsimp only
    rw [he]
    rfl

end AtomLines.Rdf.Exchange.Turtle
