import AtomLines.Proofs.Rdf.Exchange.Fact
/-!
# Steps of reading

How the steps of a reader change the state in a text that declares nothing. A written
term is read together with the white space after it, since that is skipped after a literal
while a tag or a datatype is looked for.
-/

namespace AtomLines.Rdf.Exchange.Turtle

/-- The state in front of the rest of a text without declarations. -/
def plain (cs : List Char) (ss : List Statement) : State := ⟨cs, none, [], 0, ss⟩

section
variable {α β : Type} {p : Parse α} {k : α → Parse β} {s t : State} {a : α} {cs rest : List Char} {ss : List Statement}

/-! ## One step and what follows it -/

theorem run_bind_eq (p : Parse α) (k : α → Parse β) (s : State) :
    (p >>= k).run s = match p.run s with
      | (some a, t) => (k a).run t
      | (none, t) => (none, t) := by
  rw [OptionT.run_bind]
  simp only [Option.elimM, bind, StateT.bind]
  generalize p.run s = r
  obtain ⟨_ | a, t⟩ := r <;> rfl

theorem run_bind (h : p.run s = (some a, t)) : (p >>= k).run s = (k a).run t := by
  rw [run_bind_eq, h]

theorem run_bind_none (h : (p.run s).1 = none) : ((p >>= k).run s).1 = none := by
  rw [run_bind_eq]
  generalize p.run s = r at h
  obtain ⟨_ | a, t⟩ := r
  · rfl
  · cases h

theorem run_peek (k : List Char → Parse β) : (peek >>= k).run (plain cs ss) = (k cs).run (plain cs ss) := rfl

theorem run_get (k : State → Parse β) : (get >>= k).run s = (k s).run s := rfl

theorem run_space (k : Unit → Parse β) : (space >>= k).run (plain cs ss) = (k ()).run (plain (skipSpace cs) ss) := rfl

theorem run_startsWith (w : List Char) (k : Bool → Parse β) :
    (startsWith w >>= k).run (plain cs ss) = (k (w.isPrefixOf cs)).run (plain cs ss) := rfl

theorem run_emit (s : Node) (p : String) (o : Node) (k : Unit → Parse β) :
    (emit s p o >>= k).run (plain cs ss) = (k ()).run (plain cs (⟨s, p, o⟩ :: ss)) := rfl

theorem run_expect (w : List Char) (k : Unit → Parse β) :
    (expect w >>= k).run (plain (w ++ cs) ss) = (k ()).run (plain cs ss) := by
  refine run_bind ?_
  rw [expect, run_peek, if_pos (List.isPrefixOf_iff_prefix.2 (List.prefix_append w cs)), List.drop_left]
  rfl

theorem run_expect_none {w : List Char} (h : w.isPrefixOf cs = false) (k : Unit → Parse β) :
    ((expect w >>= k).run (plain cs ss)).1 = none := by
  refine run_bind_none ?_
  rw [expect, run_peek, h]
  rfl

theorem run_lex {f : List Char → Lexed α} (h : f cs = some (a, rest)) (k : α → Parse β) :
    (lex f >>= k).run (plain cs ss) = (k a).run (plain rest ss) := by
  refine run_bind ?_
  rw [lex, run_peek, h]
  rfl

theorem run_lex_none {f : List Char → Lexed α} (h : f cs = none) (k : α → Parse β) :
    ((lex f >>= k).run (plain cs ss)).1 = none := by
  refine run_bind_none ?_
  rw [lex, run_peek, h]
  rfl

theorem run_lex_cases (f : List Char → Lexed α) (k : α → Parse β) (cs : List Char) (ss : List Statement) :
    (∃ a rest, f cs = some (a, rest) ∧ (lex f >>= k).run (plain cs ss) = (k a).run (plain rest ss)) ∨
      f cs = none ∧ ((lex f >>= k).run (plain cs ss)).1 = none := by
  cases h : f cs with
  | none => exact .inr ⟨rfl, run_lex_none h k⟩
  | some found => exact .inl ⟨found.1, found.2, rfl, run_lex h k⟩

end

/-! ## White space -/

theorem skipSpace_of_isGap {c : Char} (h : Text.isGap c = true) (cs : List Char) : skipSpace (c :: cs) = skipSpace cs := by
  rw [skipSpace, if_pos h]

theorem skipSpace_of_not {c : Char} (h : Text.isGap c = false) (hc : c ≠ '#') (cs : List Char) :
    skipSpace (c :: cs) = c :: cs := by
  rw [skipSpace, h, if_neg hc]
  rfl

theorem skipSpace_of_stuck {cs : List Char} (h : Stuck cs) : skipSpace cs = cs := by
  obtain ⟨rest, rfl⟩ | ⟨c, rest, rfl, -⟩ := stuck_cases h
  · exact skipSpace_of_not rfl (by decide) rest
  · exact skipSpace_of_not rfl (by decide) _

theorem skipSpace_value (v : Value) (rest : List Char) : skipSpace (v.chars ++ rest) = v.chars ++ rest := by
  cases v with
  | resource r => cases r <;> exact skipSpace_of_not rfl (by decide) _
  | literal l => cases l <;> exact skipSpace_of_not rfl (by decide) _

/-! ## Terms -/

section
variable (i : Iri) (rest : List Char) (ss : List Statement)

/-- Without a base an absolute IRI stands for itself. -/
theorem resolve_text : Iri.resolve none i.text.toList = some i.text.toList := by
  obtain ⟨after, ha, hh⟩ := iriProblem?_eq_none i.valid
  simp only [Iri.resolve, ha, hh]

theorem run_iri : iri.run (plain (iriChars i ++ rest) ss) = (some i.text, plain rest ss) := by
  have hb : iriBody (i.text.toList ++ '>' :: rest) = some (i.text.toList, rest) := iriBody_append i.chars rest
  have hcs : iriChars i ++ rest = ['<'] ++ (i.text.toList ++ '>' :: rest) := by simp [iriChars]
  rw [hcs, iri, run_startsWith]
  show iriReference.run _ = _
  rw [iriReference, run_expect, run_lex hb, run_get]
  simp only [plain, resolve_text, String.ofList_toList]
  rfl

theorem run_verb : verb.run (plain (iriChars i ++ rest) ss) = (some i.text, plain rest ss) := by
  rw [verb, run_peek]
  exact run_iri i rest ss

end

/-! ## Labels

A label that looks like that of a numbered node gets one more letter, and still looks so.
Hence no two labels become one. -/

theorem looksNumbered_iff {label : List Char} :
    looksNumbered label = true ↔ ∃ digits ds, label = numberedStem ++ (digits ++ ds) ∧ digits.length = 8 ∧
      digits.all Char.isDigit = true ∧ ds.all (· = 'd') = true := by
  have hlen : numberedStem.length = 4 := rfl
  simp only [looksNumbered, Bool.and_eq_true, decide_eq_true_eq, List.isPrefixOf_iff_prefix]
  constructor
  · rintro ⟨⟨⟨⟨rest, rfl⟩, hl⟩, hdigits⟩, hds⟩
    rw [← hlen, List.drop_left] at hl hdigits hds
    exact ⟨rest.take 8, rest.drop 8, by rw [List.take_append_drop], hl, hdigits, hds⟩
  · rintro ⟨digits, ds, rfl, hl, hdigits, hds⟩
    rw [← hlen, List.drop_left, ← hl, List.take_left, List.drop_left]
    exact ⟨⟨⟨List.prefix_append _ _, rfl⟩, hdigits⟩, hds⟩

theorem looksNumbered_append {label : List Char} (h : looksNumbered label = true) :
    looksNumbered (label ++ ['d']) = true := by
  obtain ⟨digits, ds, rfl, hl, hdigits, hds⟩ := looksNumbered_iff.1 h
  refine looksNumbered_iff.2 ⟨digits, ds ++ ['d'], by simp, hl, hdigits, ?_⟩
  rw [List.all_append, hds]
  rfl

theorem distinct_injective {l l' : List Char} (h : distinct l = distinct l') : l = l' := by
  have happ : ∀ {l l' : List Char}, looksNumbered l = true → ¬ looksNumbered l' = true → l ++ ['d'] ≠ l' := by
    rintro l l' hl hl' rfl
    exact hl' (looksNumbered_append hl)
  unfold distinct at h
  split at h
  · rename_i hl
    split at h
    · exact List.append_cancel_right h
    · rename_i hl'
      exact absurd h (happ hl hl')
  · rename_i hl
    split at h
    · rename_i hl'
      exact absurd h.symm (happ hl' hl)
    · exact h

theorem isLabel_append {cs : List Char} {c : Char} (h : isLabel cs = true) (hc : isLabelChar c = true) (hp : c ≠ '.') :
    isLabel (cs ++ [c]) = true := by
  cases cs with
  | nil => cases h
  | cons d cs =>
    simp only [isLabel, Bool.and_eq_true] at h
    simp [isLabel, h.1, hc, hp]

theorem isLabel_distinct {cs : List Char} (h : isLabel cs = true) : isLabel (distinct cs) = true := by
  unfold distinct
  split
  · exact isLabel_append h (by decide) (by decide)
  · exact h

/-- The label that a written one is read as. -/
def apart (l : BlankLabel) : BlankLabel :=
  ⟨String.ofList (distinct l.text.toList), by rw [String.toList_ofList]; exact isLabel_distinct l.valid⟩

theorem apart_injective : Function.Injective apart := by
  intro l l' h
  have ht : distinct l.text.toList = distinct l'.text.toList := String.ofList_injective (congrArg BlankLabel.text h)
  exact BlankLabel.text_injective (String.toList_inj.1 (distinct_injective ht))

/-! ## Terms with the white space after them -/

/-- The step with the white space after what it reads. -/
def spaced {α : Type} (p : Parse α) : Parse α := do
  let a ← p
  space
  return a

/-- What is read of a written thing: the thing, if it is portable; else nothing, or less
than that, and the reader is stuck. -/
def Reads {α : Type} (portable : Prop) (p : Parse α) (cs : List Char) (a : α) (rest : List Char) : Prop :=
  ∀ ss, portable ∧ p.run (plain cs ss) = (some a, plain rest ss) ∨
    ¬ portable ∧ ((p.run (plain cs ss)).1 = none ∨
      ∃ b after, p.run (plain cs ss) = (some b, plain after ss) ∧ Stuck after)

theorem reads_writtenBlank (l : BlankLabel) (rest : List Char) :
    Reads l.Portable writtenBlank (blankChars l ++ ' ' :: rest) (.blank (apart l).text) (' ' :: rest) := by
  intro ss
  have hcs : blankChars l ++ ' ' :: rest = ['_', ':'] ++ (l.text.toList ++ ' ' :: rest) := by simp [blankChars]
  rw [hcs, writtenBlank, run_expect]
  obtain ⟨hp, hl⟩ | ⟨hp, hstuck⟩ := finds_blankLabel l rest
  · rw [run_lex hl]
    exact .inl ⟨hp, rfl⟩
  · refine .inr ⟨hp, ?_⟩
    obtain ⟨label, after, hl, hrun⟩ | ⟨-, hnone⟩ := run_lex_cases blankLabel
        (fun label => pure (Node.blank (String.ofList (distinct label)))) (l.text.toList ++ ' ' :: rest) ss
    · exact .inr ⟨_, _, hrun, hstuck label after hl⟩
    · exact .inl hnone

theorem run_spaced {α : Type} {p : Parse α} {a : α} {cs rest : List Char} {ss : List Statement}
    (h : p.run (plain cs ss) = (some a, plain rest ss)) :
    (spaced p).run (plain cs ss) = (some a, plain (skipSpace rest) ss) := by
  rw [spaced, run_bind h]
  rfl

theorem Reads.spaced {α : Type} {portable : Prop} {p : Parse α} {cs rest : List Char} {a : α}
    (h : Reads portable p cs a rest) : Reads portable (spaced p) cs a (skipSpace rest) := by
  intro ss
  refine (h ss).imp (fun ⟨hp, he⟩ => ⟨hp, run_spaced he⟩) fun ⟨hp, he⟩ => ⟨hp, he.imp run_bind_none ?_⟩
  rintro ⟨b, after, he, hs⟩
  refine ⟨b, after, ?_, hs⟩
  rw [run_spaced he, skipSpace_of_stuck hs]

/-! ## Objects -/

/-- What can follow an object and a space: the end of a statement or more of it. -/
def isMark (c : Char) : Prop := c = '.' ∨ c = ',' ∨ c = ';'

theorem skipSpace_mark {c : Char} (hc : isMark c) (rest : List Char) : skipSpace (c :: rest) = c :: rest := by
  rcases hc with rfl | rfl | rfl <;> exact skipSpace_of_not rfl (by decide) rest

theorem skipSpace_space_mark {c : Char} (hc : isMark c) (rest : List Char) :
    skipSpace (' ' :: c :: rest) = c :: rest := by
  rw [skipSpace_of_isGap rfl, skipSpace_mark hc]

/-- What `literal` does after the string. -/
def literalTail (text : String) : Parse Node := do
  space
  if ← startsWith ['@'] then
    expect ['@']
    return .tagged text (← lex languageTag)
  else if ← startsWith ['^'] then
    expect ['^', '^']
    space
    return .typed text (← iri)
  else return .plain text

theorem run_literal (s : String) {d : Char} (hd : d ≠ '"') (rest : List Char) (ss : List Statement) :
    literal.run (plain (stringChars s ++ d :: rest) ss) = (literalTail s).run (plain (d :: rest) ss) := by
  have happ : (stringChars s ++ d :: rest).drop 1 = s.toList.flatMap stringChar ++ '"' :: d :: rest := by
    simp [stringChars]
  have hl : anyString '"' ((stringChars s ++ d :: rest).drop 1) = some (s.toList, d :: rest) := by
    rw [happ, anyString_flatMap s.toList hd]
  rw [literal, run_peek]
  show ((lex fun cs => anyString '"' (cs.drop 1)) >>= fun text => literalTail (String.ofList text)).run _ = _
  rw [run_lex (f := fun cs => anyString '"' (cs.drop 1)) hl, String.ofList_toList]

theorem literalTail_plain (s : String) {c : Char} (hc : isMark c) (rest : List Char) (ss : List Statement) :
    (literalTail s).run (plain (' ' :: c :: rest) ss) = (some (.plain s), plain (c :: rest) ss) := by
  rw [literalTail, run_space, skipSpace_space_mark hc, run_startsWith]
  rcases hc with rfl | rfl | rfl <;> rfl

theorem literalTail_tagged (s : String) (t : LanguageTag) (rest : List Char) (ss : List Statement) :
    (literalTail s).run (plain ('@' :: (t.text.toList ++ ' ' :: rest)) ss) =
      (some (.tagged s t), plain (' ' :: rest) ss) := by
  have ht : languageTag (t.text.toList ++ ' ' :: rest) = some (t, ' ' :: rest) := languageTag_append t rfl rest
  rw [literalTail, run_space, skipSpace_of_not rfl (by decide), run_startsWith]
  show (expect ['@'] >>= fun _ => lex languageTag >>= fun tag => pure (Node.tagged s tag) : Parse Node).run
    (plain (['@'] ++ (t.text.toList ++ ' ' :: rest)) ss) = _
  rw [run_expect, run_lex ht]
  rfl

theorem literalTail_typed (s : String) (d : Iri) (rest : List Char) (ss : List Statement) :
    (literalTail s).run (plain ('^' :: '^' :: (iriChars d ++ rest)) ss) = (some (.typed s d.text), plain rest ss) := by
  have hskip : skipSpace (iriChars d ++ rest) = iriChars d ++ rest := skipSpace_of_not rfl (by decide) _
  rw [literalTail, run_space, skipSpace_of_not rfl (by decide), run_startsWith]
  show (expect ['^', '^'] >>= fun _ => space >>= fun _ => iri >>= fun d => pure (Node.typed s d) : Parse Node).run
    (plain (['^', '^'] ++ (iriChars d ++ rest)) ss) = _
  rw [run_expect, run_space, hskip, run_bind (run_iri d rest ss)]
  rfl

theorem run_spaced_literal (l : Literal) {c : Char} (hc : isMark c) (rest : List Char) (ss : List Statement) :
    (spaced literal).run (plain (literalChars l ++ ' ' :: c :: rest) ss) =
      (some (Value.node (.literal l)), plain (c :: rest) ss) := by
  -- After a tag or a datatype the space is still there, after a plain string it is not.
  have hspaced : ∀ {cs o}, literal.run (plain cs ss) = (some o, plain (' ' :: c :: rest) ss) →
      (spaced literal).run (plain cs ss) = (some o, plain (c :: rest) ss) := by
    intro cs o h
    rw [run_spaced h, skipSpace_space_mark hc]
  cases l with
  | typed s d =>
    rw [literalChars, Value.node, List.append_assoc]
    by_cases hd : d = .xsdString
    · rw [if_pos hd, if_pos hd, ← skipSpace_mark hc rest]
      refine run_spaced ?_
      rw [skipSpace_mark hc, List.nil_append, run_literal s (by decide), literalTail_plain s hc]
    · rw [if_neg hd, if_neg hd, List.cons_append, List.cons_append]
      refine hspaced ?_
      rw [run_literal s (by decide), literalTail_typed]
  | tagged s t =>
    rw [literalChars, Value.node, List.append_assoc, List.cons_append]
    refine hspaced ?_
    rw [run_literal s (by decide), literalTail_tagged]

theorem isPrefixOf_quotation (i : Iri) (rest : List Char) : ['<', '<'].isPrefixOf (iriChars i ++ rest) = false := by
  obtain ⟨c, cs, he, hc⟩ := i.exists_cons
  have hlt : '<' ≠ c := by
    rintro rfl
    cases hc
  simp [iriChars, he, List.isPrefixOf, hlt]

theorem run_object {cs : List Char} (hq : ['<', '<'].isPrefixOf cs = false) (hp : ['('].isPrefixOf cs = false)
    (hb : ['['].isPrefixOf cs = false) (fuel depth : Nat) (ss : List Statement) :
    (object (fuel + 1) depth).run (plain cs ss) = simpleNode.run (plain cs ss) := by
  simp only [object, run_startsWith, hq, hp, hb, Bool.false_eq_true, if_false]

theorem reads_iri (i : Iri) (rest : List Char) :
    Reads True (do return Node.iri (← iri)) (iriChars i ++ rest) (.iri i.text) rest := by
  intro ss
  refine .inl ⟨trivial, ?_⟩
  rw [run_bind (run_iri i rest ss)]
  rfl

theorem reads_simpleNode (r : Resource) (rest : List Char) :
    Reads r.Portable simpleNode (r.chars ++ ' ' :: rest) (r.relabel apart).node (' ' :: rest) := by
  cases r with
  | iri i => exact reads_iri i (' ' :: rest)
  | blank l => exact reads_writtenBlank l rest

theorem Reads.congr {α : Type} {portable : Prop} {p q : Parse α} {cs rest : List Char} {a : α}
    (h : Reads portable p cs a rest) (he : ∀ ss, q.run (plain cs ss) = p.run (plain cs ss)) :
    Reads portable q cs a rest := by
  intro ss
  rw [he]
  exact h ss

theorem spaced_congr {α : Type} {p q : Parse α} {s : State} (h : q.run s = p.run s) :
    (spaced q).run s = (spaced p).run s := by
  rw [spaced, spaced, run_bind_eq, run_bind_eq, h]

/-- An object is read with the space after it. -/
theorem reads_object (v : Value) {c : Char} (hc : isMark c) (rest : List Char) (fuel depth : Nat) :
    Reads v.Portable (spaced (object (fuel + 1) depth)) (v.chars ++ ' ' :: c :: rest) (v.relabel apart).node
      (c :: rest) := by
  cases v with
  | resource r =>
    have hr := (reads_simpleNode r (c :: rest)).spaced
    rw [skipSpace_space_mark hc] at hr
    refine hr.congr fun ss => spaced_congr ?_
    cases r with
    | iri i => exact run_object (isPrefixOf_quotation i _) rfl rfl fuel depth ss
    | blank l => exact run_object rfl rfl rfl fuel depth ss
  | literal l =>
    intro ss
    have ho : (object (fuel + 1) depth).run (plain (literalChars l ++ ' ' :: c :: rest) ss) =
        literal.run (plain (literalChars l ++ ' ' :: c :: rest) ss) := by
      cases l <;> exact run_object rfl rfl rfl fuel depth ss
    exact .inl ⟨trivial, (spaced_congr ho).trans (run_spaced_literal l hc rest ss)⟩

/-- A subject is read with the space after it. -/
theorem reads_subject (r : Resource) (rest : List Char) (fuel : Nat) :
    Reads r.Portable (spaced (subject fuel)) (r.chars ++ ' ' :: rest) (r.relabel apart).node (skipSpace rest) := by
  rw [← skipSpace_of_isGap (show Text.isGap ' ' = true from rfl) rest]
  refine ((reads_simpleNode r rest).congr fun ss => ?_).spaced
  cases r with
  | iri i =>
    have h₁ : ['['].isPrefixOf (iriChars i ++ ' ' :: rest) = false := rfl
    have h₂ : ['_'].isPrefixOf (iriChars i ++ ' ' :: rest) = false := rfl
    have h₃ : ['('].isPrefixOf (iriChars i ++ ' ' :: rest) = false := rfl
    simp only [Resource.chars, subject, run_startsWith, h₁, h₂, h₃, isPrefixOf_quotation, Bool.false_eq_true, if_false]
    rfl
  | blank l => rfl

end AtomLines.Rdf.Exchange.Turtle
