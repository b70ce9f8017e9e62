import AtomLines.Proofs.Outcome
import AtomLines.Proofs.Rdf.Sameness
import AtomLines.Rdf.Lines.Read
import Mathlib.Data.List.Induction
/-!
# The order of lines

What a document of lines contains is said of the set of its lines: which labels are
bound, which graphs are named and which triples are stated. So lines in another order,
or said more than once, are read as the same document, if no label is bound to
different texts.
-/

namespace AtomLines.Rdf

variable {encoding : GraphEncoding} {address : Option String} {lines lines' : List SExpr}

/-! ## Terms -/

theorem Namespaces.localBase_congr {ns ns' : Namespaces} (h : ns.own = ns'.own) : ns.localBase = ns'.localBase := by
  funext name
  rw [localBase, localBase, h]

theorem Namespaces.isLocalName_congr {ns ns' : Namespaces} (h : ns.own = ns'.own) : ns.isLocalName = ns'.isLocalName := by
  funext name
  rw [isLocalName, isLocalName, h]

/-- Prefixes do not matter to terms; only the local namespace does. -/
theorem Term.ofAtom_congr {ns ns' : Namespaces} (h : ns.own = ns'.own) (e : SExpr) :
    Term.ofAtom ns e = Term.ofAtom ns' e := by
  have hi : iriText ns = iriText ns' := by
    funext body
    unfold iriText
    simp only [Namespaces.localBase_congr h, Namespaces.isLocalName_congr h]
  have hk : Term.ofKind? ns = Term.ofKind? ns' := by
    funext kind
    unfold Term.ofKind?
    simp only [Iri.ofBody, hi]
  unfold Term.ofAtom
  simp only [hk]

namespace GraphLine

variable {ks ks' : List GraphLine}

/-! ## Lines told apart -/

theorem exists_mem_zipIdx {α : Type} {p : α → Prop} {xs : List α} {n : Nat} :
    (∃ q ∈ xs.zipIdx n, p q.1) ↔ ∃ x ∈ xs, p x := by
  conv_rhs => rw [← List.zipIdx_map_fst n xs]
  simp only [List.mem_map, exists_exists_and_eq_and]

theorem mem_of_ofLines (h : ofLines encoding lines = .ok ks) (k : GraphLine) :
    k ∈ ks ↔ ∃ e ∈ lines, ofExpr encoding e = .ok k := by
  rw [(mapM_ok_mem h).2]
  simp only [mapError_eq_ok]
  exact exists_mem_zipIdx (p := fun e => ofExpr encoding e = .ok k)

theorem ofLines_exists_ok : (∃ ks, ofLines encoding lines = .ok ks) ↔ ∀ e ∈ lines, ∃ k, ofExpr encoding e = .ok k := by
  constructor
  · rintro ⟨ks, h⟩ e he
    obtain ⟨q, hq, rfl⟩ := exists_mem_zipIdx.2 ⟨e, he, rfl⟩
    obtain ⟨k, hk⟩ := (mapM_ok_mem h).1 q hq
    exact ⟨k, mapError_eq_ok.1 hk⟩
  · intro h
    refine mapM_exists_ok fun q hq => ?_
    obtain ⟨k, hk⟩ := h q.1 (List.fst_mem_of_mem_zipIdx hq)
    exact ⟨k, mapError_eq_ok.2 hk⟩

/-- A line of the list binds the label. -/
def Binds (lines : List SExpr) (label iri : String) : Prop :=
  ∃ e ∈ lines, e.hasHead "Namespace" = true ∧ binding? e = some (.binding label iri)

/-- No label is bound to different texts. -/
def Unambiguous (lines : List SExpr) : Prop :=
  ∀ label iri iri', Binds lines label iri → Binds lines label iri' → iri = iri'

theorem graph?_of_quoted? {e : SExpr} {k : GraphLine} (h : quoted? e = some k) : k.graph? ≠ none := by
  rw [quoted?.eq_def] at h
  split at h
  · obtain ⟨g, -, rfl⟩ := Option.map_eq_some_iff.1 h
    exact Option.some_ne_none g
  · obtain ⟨g, -, rfl⟩ := Option.map_eq_some_iff.1 h
    exact Option.some_ne_none g
  · cases h

theorem graph?_of_flat? {e : SExpr} {k : GraphLine} (h : flat? e = some k) : k.graph? ≠ none := by
  rw [flat?.eq_def] at h
  split at h
  · cases h
    exact Option.some_ne_none _
  · cases h

section
variable {e : SExpr} {k : GraphLine}

theorem ofExpr_of_hasHead (h : e.hasHead "Namespace" = true) : ofExpr encoding e = .ok k ↔ binding? e = some k := by
  unfold ofExpr
  rw [if_pos h]
  cases binding? e <;> simp

theorem ofExpr_quoted (h : ¬ e.hasHead "Namespace" = true) : ofExpr .quoted e = .ok k ↔ quoted? e = some k := by
  unfold ofExpr
  rw [if_neg h]
  cases quoted? e <;> simp

theorem ofExpr_flat (h : ¬ e.hasHead "Namespace" = true) : ofExpr .flat e = .ok k ↔ flat? e = some k := by
  unfold ofExpr
  rw [if_neg h]
  cases flat? e <;> simp

end

/-- Only lines with the head of bindings bind anything. -/
theorem binding_of_ofExpr {e : SExpr} {label iri : String} (h : ofExpr encoding e = .ok (.binding label iri)) :
    e.hasHead "Namespace" = true ∧ binding? e = some (.binding label iri) := by
  by_cases hn : e.hasHead "Namespace" = true
  · exact ⟨hn, (ofExpr_of_hasHead hn).1 h⟩
  · exfalso
    cases encoding with
    | quoted => exact graph?_of_quoted? ((ofExpr_quoted hn).1 h) rfl
    | flat => exact graph?_of_flat? ((ofExpr_flat hn).1 h) rfl

/-- No label is bound to different texts by lines that are told apart. -/
def Consistent (ks : List GraphLine) : Prop :=
  ∀ label iri iri', binding label iri ∈ ks → binding label iri' ∈ ks → iri = iri'

theorem Unambiguous.consistent (hu : Unambiguous lines) (h : ofLines encoding lines = .ok ks) : Consistent ks := by
  have hb : ∀ {label iri}, binding label iri ∈ ks → Binds lines label iri := by
    intro label iri hm
    obtain ⟨e, he, hk⟩ := (mem_of_ofLines h _).1 hm
    exact ⟨e, he, binding_of_ofExpr hk⟩
  exact fun label iri iri' hm hm' => hu label iri iri' (hb hm) (hb hm')

theorem Consistent.of_mem_iff (hc : Consistent ks) (hk : ∀ k, k ∈ ks ↔ k ∈ ks') : Consistent ks' :=
  fun label iri iri' h h' => hc label iri iri' ((hk _).2 h) ((hk _).2 h')

theorem Unambiguous.of_mem_iff (hu : Unambiguous lines) (hs : ∀ e, e ∈ lines ↔ e ∈ lines') : Unambiguous lines' := by
  intro label iri iri'
  simp only [Binds, ← hs]
  exact hu label iri iri'

/-- Lines of the same expressions are told apart alike. -/
theorem ofLines_transfer (hs : ∀ e, e ∈ lines ↔ e ∈ lines') (h : ofLines encoding lines = .ok ks) :
    ∃ ks', ofLines encoding lines' = .ok ks' ∧ ∀ k, k ∈ ks ↔ k ∈ ks' := by
  obtain ⟨ks', h'⟩ := ofLines_exists_ok.2 fun e he => ofLines_exists_ok.1 ⟨ks, h⟩ e ((hs e).2 he)
  refine ⟨ks', h', fun k => ?_⟩
  rw [mem_of_ofLines h, mem_of_ofLines h']
  simp only [hs]

/-! ## Namespaces -/

/-- The last text that is bound to a label. -/
def bound? (label : String) (ks : List GraphLine) : Option String :=
  ks.foldl (fun found k =>
    match k with
    | binding label' iri => if label' = label then some iri else found
    | _ => found) none

theorem bound?_concat (label : String) (ks : List GraphLine) (k : GraphLine) :
    bound? label (ks ++ [k]) =
      match k with
      | binding label' iri => if label' = label then some iri else bound? label ks
      | _ => bound? label ks := by
  rw [bound?, List.foldl_append]
  cases k <;> rfl

theorem prefixes_concat (ks : List GraphLine) (k : GraphLine) :
    prefixes (ks ++ [k]) =
      match k with
      | binding label iri => if label = localLabel then prefixes ks else Keyed.put label iri (prefixes ks)
      | _ => prefixes ks := by
  rw [prefixes, List.foldl_append]
  cases k <;> rfl

/-- Where all bindings of a label agree, the last one is any of them. -/
theorem bound?_eq_some (hc : Consistent ks) {label iri : String} :
    bound? label ks = some iri ↔ binding label iri ∈ ks := by
  induction ks using List.reverseRecOn with
  | nil => simp [bound?]
  | append_singleton ks k ih =>
    have hks : Consistent ks := fun label iri iri' h h' =>
      hc label iri iri' (List.mem_append_left _ h) (List.mem_append_left _ h')
    rw [bound?_concat, List.mem_append, List.mem_singleton, ← ih hks]
    cases k with
    | binding label' iri' =>
      dsimp only
      by_cases hl : label' = label
      · subst hl
        rw [if_pos rfl, Option.some.injEq, binding.injEq]
        refine ⟨fun e => .inr ⟨rfl, e.symm⟩, ?_⟩
        rintro (h | ⟨-, e⟩)
        · exact hc _ _ _ (List.mem_append_right _ List.mem_cons_self) (List.mem_append_left _ ((ih hks).1 h))
        · exact e.symm
      · rw [if_neg hl, binding.injEq]
        exact ⟨.inl, fun h => h.resolve_right fun e => hl e.1.symm⟩
    | definition graph => simp
    | statement graph s p o => simp

theorem nodup_keys_prefixes (ks : List GraphLine) : (Keyed.keys (prefixes ks)).Nodup := by
  induction ks using List.reverseRecOn with
  | nil => exact List.nodup_nil
  | append_singleton ks k ih =>
    rw [prefixes_concat]
    cases k with
    | binding label iri =>
      dsimp only
      split
      · exact ih
      · exact Keyed.nodup_keys_put ih
    | definition graph => exact ih
    | statement graph s p o => exact ih

theorem get?_prefixes (label : String) (ks : List GraphLine) :
    Keyed.get? label (prefixes ks) = if label = localLabel then none else bound? label ks := by
  induction ks using List.reverseRecOn with
  | nil => simp [prefixes, bound?, Keyed.get?]
  | append_singleton ks k ih =>
    rw [prefixes_concat, bound?_concat]
    cases k with
    | binding label' iri =>
      dsimp only
      by_cases hl : label' = label
      · subst hl
        by_cases hloc : label' = localLabel
        · rw [if_pos hloc, ih, if_pos hloc, if_pos hloc]
        · rw [if_neg hloc, if_neg hloc, if_pos rfl, Keyed.get?_put_self]
      · rw [if_neg hl, ← ih]
        split
        · rfl
        · exact Keyed.get?_put_of_ne hl iri _
    | definition graph => exact ih
    | statement graph s p o => exact ih

theorem mem_prefixes (hc : Consistent ks) {label iri : String} :
    (label, iri) ∈ prefixes ks ↔ label ≠ localLabel ∧ binding label iri ∈ ks := by
  rw [← Keyed.get?_eq_some (nodup_keys_prefixes ks), get?_prefixes, ← bound?_eq_some hc]
  by_cases hl : label = localLabel <;> simp [hl]

theorem own_congr (hk : ∀ k, k ∈ ks ↔ k ∈ ks') (hc : Consistent ks) (address : Option String) :
    own ks address = own ks' address := by
  have hc' : Consistent ks' := hc.of_mem_iff hk
  have hl : bound? localLabel ks = bound? localLabel ks' := by
    ext iri
    rw [bound?_eq_some hc, bound?_eq_some hc', hk]
  have hn : localName? ks = localName? ks' := hl
  rw [own, own, hn]

/-! ## The frame -/

theorem namespaces_skeleton (ks : List GraphLine) (address : Option String) :
    (skeleton ks address).namespaces = namespaces ks address :=
  Document.namespaces_foldl_touch _ _

theorem mem_ids_skeleton {address : Option String} {id : GraphId} :
    id ∈ (skeleton ks address).ids ↔ id = .top ∨ ∃ k ∈ ks, k.graph? = some id := by
  rw [skeleton, Document.mem_ids_foldl_touch, List.mem_filterMap]
  exact or_congr_left List.mem_singleton

theorem contains_skeleton (ks : List GraphLine) (address : Option String) (id : GraphId) (t : Triple) :
    (skeleton ks address).contains id t = false := by
  rw [skeleton, Document.contains_foldl_touch, Document.contains_new]

theorem wellFormed_skeleton (ks : List GraphLine) (address : Option String) : (skeleton ks address).WellFormed :=
  (Document.WellFormed.new (nodup_keys_prefixes ks)).foldl_touch _

/-- A frame, as the reader of a statement sees it. -/
structure SameFrame (frame frame' : Document) : Prop where
  own : frame.namespaces.own = frame'.namespaces.own
  ids : ∀ id, id ∈ frame.ids ↔ id ∈ frame'.ids

theorem skeleton_congr (hk : ∀ k, k ∈ ks ↔ k ∈ ks') (hc : Consistent ks) (address : Option String) :
    SameFrame (skeleton ks address) (skeleton ks' address) where
  own := by
    rw [namespaces_skeleton, namespaces_skeleton]
    exact own_congr hk hc address
  ids id := by
    rw [mem_ids_skeleton, mem_ids_skeleton]
    simp only [hk]

/-! ## Statements -/

variable {frame frame' d d' : Document} {id : GraphId} {t : Triple}

theorem readTerm_congr (h : SameFrame frame frame') (e : SExpr) :
    readTerm encoding frame id e = readTerm encoding frame' id e := by
  have ht : Term.ofAtom frame.namespaces e = Term.ofAtom frame'.namespaces e := Term.ofAtom_congr h.own e
  have hg : ∀ r, (frame.graph? r).isNone = (frame'.graph? r).isNone := by
    intro r
    rw [← Option.not_isSome, ← Option.not_isSome, Bool.eq_iff_iff.2 (Document.isSome_graph?.trans
      ((h.ids r).trans Document.isSome_graph?.symm))]
  simp only [readTerm, ht, hg]

theorem readTriple_congr (h : SameFrame frame frame') (s p o : SExpr) :
    readTriple encoding frame id s p o = readTriple encoding frame' id s p o := by
  simp only [readTriple, readTerm_congr h]

/-- One of the lines states a triple of a graph. -/
def States (encoding : GraphEncoding) (frame : Document) (ks : List GraphLine) (id : GraphId) (t : Triple) : Prop :=
  ∃ s p o, statement id s p o ∈ ks ∧ readTriple encoding frame id s p o = .ok t

/-- All statements can be read. -/
def Readable (encoding : GraphEncoding) (frame : Document) (ks : List GraphLine) : Prop :=
  ∀ id s p o, statement id s p o ∈ ks → ∃ t, readTriple encoding frame id s p o = .ok t

theorem states_congr (hf : SameFrame frame frame') (hk : ∀ k, k ∈ ks ↔ k ∈ ks') :
    States encoding frame ks id t ↔ States encoding frame' ks' id t := by
  simp only [States, readTriple_congr hf, hk]

theorem readable_congr (hf : SameFrame frame frame') (hk : ∀ k, k ∈ ks ↔ k ∈ ks') :
    Readable encoding frame ks ↔ Readable encoding frame' ks' := by
  simp only [Readable, readTriple_congr hf, hk]

/-- What a document gains by lines: no more and no less than the triples that they
state. -/
structure Gained (encoding : GraphEncoding) (frame : Document) (ks : List GraphLine) (d d' : Document) : Prop where
  namespaces : d'.namespaces = d.namespaces
  ids : ∀ id, id ∈ d'.ids ↔ id ∈ d.ids ∨ ∃ t, States encoding frame ks id t
  contains : ∀ id t, d'.contains id t = true ↔ d.contains id t = true ∨ States encoding frame ks id t
  wellFormed : d.WellFormed → d'.WellFormed

theorem gained_add {k : GraphLine} (h : add encoding frame d k = .ok d') : Gained encoding frame [k] d d' := by
  cases k with
  | binding label iri =>
    cases h
    exact ⟨rfl, by simp [States], by simp [States], id⟩
  | definition graph =>
    cases h
    exact ⟨rfl, by simp [States], by simp [States], id⟩
  | statement graph s p o =>
    obtain ⟨t, hr, h⟩ := bind_eq_ok.1 h
    cases h
    have hst : ∀ id t', States encoding frame [statement graph s p o] id t' ↔ id = graph ∧ t' = t := by
      intro id t'
      constructor
      · rintro ⟨s', p', o', hm, hr'⟩
        cases List.mem_singleton.1 hm
        rw [hr] at hr'
        cases hr'
        exact ⟨rfl, rfl⟩
      · rintro ⟨rfl, rfl⟩
        exact ⟨s, p, o, List.mem_singleton_self _, hr⟩
    refine ⟨rfl, fun id => ?_, fun id t' => ?_, fun hd => hd.insert graph t⟩
    · simp only [hst, Document.mem_ids_insert, exists_and_left, exists_eq, and_true]
    · rw [hst, Document.contains_insert]

theorem states_cons {k : GraphLine} :
    States encoding frame (k :: ks) id t ↔ States encoding frame [k] id t ∨ States encoding frame ks id t := by
  simp only [States, List.mem_cons, List.not_mem_nil, or_false, or_and_right, exists_or]

theorem gained_foldlM (h : ks.foldlM (add encoding frame) d = .ok d') : Gained encoding frame ks d d' := by
  induction ks generalizing d with
  | nil =>
    cases h
    exact ⟨rfl, by simp [States], by simp [States], id⟩
  | cons k ks ih =>
    obtain ⟨d₁, h₁, h⟩ := foldlM_cons_eq_ok h
    have hk := gained_add h₁
    have hks := ih h
    refine ⟨hks.namespaces.trans hk.namespaces, fun id => ?_, fun id t => ?_, hks.wellFormed ∘ hk.wellFormed⟩
    · rw [hks.ids, hk.ids, or_assoc, ← exists_or]
      simp only [← states_cons]
    · rw [hks.contains, hk.contains, or_assoc, ← states_cons]

theorem readable_cons {k : GraphLine} :
    Readable encoding frame (k :: ks) ↔ Readable encoding frame [k] ∧ Readable encoding frame ks := by
  simp only [Readable, List.mem_cons, List.not_mem_nil, or_false, or_imp, forall_and]

/-- A step succeeds if its line can be read, whatever is there already. -/
theorem add_exists_ok {k : GraphLine} : (∃ d', add encoding frame d k = .ok d') ↔ Readable encoding frame [k] := by
  cases k with
  | binding label iri => exact ⟨fun _ => by simp [Readable], fun _ => ⟨d, rfl⟩⟩
  | definition graph => exact ⟨fun _ => by simp [Readable], fun _ => ⟨d, rfl⟩⟩
  | statement graph s p o =>
    constructor
    · rintro ⟨d', h⟩ id s' p' o' hm
      cases List.mem_singleton.1 hm
      obtain ⟨t, ht, -⟩ := bind_eq_ok.1 h
      exact ⟨t, ht⟩
    · intro h
      obtain ⟨t, ht⟩ := h graph s p o (List.mem_singleton_self _)
      exact ⟨d.insert graph t, by rw [add, ht]; rfl⟩

theorem foldlM_exists_ok :
    (∃ d', ks.foldlM (add encoding frame) d = .ok d') ↔ Readable encoding frame ks := by
  induction ks generalizing d with
  | nil => exact ⟨fun _ => by simp [Readable], fun _ => ⟨d, rfl⟩⟩
  | cons k ks ih =>
    rw [readable_cons]
    constructor
    · rintro ⟨d', h⟩
      obtain ⟨d₁, h₁, h⟩ := foldlM_cons_eq_ok h
      exact ⟨add_exists_ok.1 ⟨d₁, h₁⟩, ih.1 ⟨d', h⟩⟩
    · rintro ⟨hk, hks⟩
      obtain ⟨d₁, h₁⟩ := add_exists_ok.2 hk
      obtain ⟨d', h'⟩ := ih.2 hks
      exact ⟨d', by rw [foldlM_cons_ok h₁, h']⟩

/-- Lines that say the same, each from its own frame, give documents that hold the
same. -/
theorem foldlM_transfer (hk : ∀ k, k ∈ ks ↔ k ∈ ks') (hc : Consistent ks) {address : Option String}
    (h : ks.foldlM (add encoding (skeleton ks address)) (skeleton ks address) = .ok d) :
    ∃ d', ks'.foldlM (add encoding (skeleton ks' address)) (skeleton ks' address) = .ok d' ∧
      d.WellFormed ∧ d'.WellFormed ∧ Document.Alike d d' := by
  have hf := skeleton_congr hk hc address
  have hc' : Consistent ks' := hc.of_mem_iff hk
  obtain ⟨d', h'⟩ := foldlM_exists_ok.2 ((readable_congr hf hk).1 (foldlM_exists_ok.1 ⟨d, h⟩))
  have hd := gained_foldlM h
  have hd' := gained_foldlM h'
  refine ⟨d', h', hd.wellFormed (wellFormed_skeleton ks address), hd'.wellFormed (wellFormed_skeleton ks' address),
    ?_, ?_, ?_, ?_⟩
  · rw [hd.namespaces, hd'.namespaces, hf.own]
  · rintro ⟨label, iri⟩
    rw [hd.namespaces, hd'.namespaces, namespaces_skeleton, namespaces_skeleton]
    exact (mem_prefixes hc).trans ((and_congr_right fun _ => hk _).trans (mem_prefixes hc').symm)
  · intro id
    rw [hd.ids, hd'.ids, hf.ids]
    simp only [states_congr hf hk]
  · intro id t
    rw [Bool.eq_iff_iff, hd.contains, hd'.contains, states_congr hf hk, contains_skeleton, contains_skeleton]

end GraphLine

namespace Document

open GraphLine

theorem decode_eq_ok {d : Document} : decode encoding address lines = .ok d ↔
    ∃ ks, ofLines encoding lines = .ok ks ∧
      ks.foldlM (add encoding (skeleton ks address)) (skeleton ks address) = .ok d ∧ d.Sound := by
  rw [← checkReferences_succeeds, decode]
  simp only [bind_eq_ok]
  constructor
  · rintro ⟨ks, hl, d', hf, reached, hr, h⟩
    cases h
    exact ⟨ks, hl, hf, reached, hr⟩
  · rintro ⟨ks, hl, hf, reached, hr⟩
    exact ⟨ks, hl, d, hf, reached, hr, rfl⟩

theorem decode_transfer (hs : ∀ e, e ∈ lines ↔ e ∈ lines') (hu : Unambiguous lines) {d : Document}
    (h : decode encoding address lines = .ok d) :
    ∃ d', decode encoding address lines' = .ok d' ∧ d.same d' = true := by
  obtain ⟨ks, hl, hf, hd⟩ := decode_eq_ok.1 h
  obtain ⟨ks', hl', hk⟩ := ofLines_transfer hs hl
  obtain ⟨d', hf', hw, hw', ha⟩ := foldlM_transfer hk (hu.consistent hl) hf
  exact ⟨d', decode_eq_ok.2 ⟨ks', hl', hf', ha.sound hd⟩, (same_iff_alike hw hw').2 ha⟩

/-- Lines of the same expressions, in any order and said any number of times, are
read alike if no label is bound to different texts: both or none of the lists is
accepted, and the documents are the same. -/
theorem decode_of_same_lines (encoding : GraphEncoding) (address : Option String) {lines lines' : List SExpr}
    (hs : ∀ e, e ∈ lines ↔ e ∈ lines') (hu : Unambiguous lines) :
    ((∃ d, decode encoding address lines = .ok d) ↔ ∃ d', decode encoding address lines' = .ok d') ∧
      ∀ d d', decode encoding address lines = .ok d → decode encoding address lines' = .ok d' →
        d.same d' = true := by
  refine ⟨⟨?_, ?_⟩, ?_⟩
  · rintro ⟨d, h⟩
    obtain ⟨d', h', -⟩ := decode_transfer hs hu h
    exact ⟨d', h'⟩
  · rintro ⟨d', h'⟩
    obtain ⟨d, h, -⟩ := decode_transfer (fun e => (hs e).symm) (hu.of_mem_iff hs) h'
    exact ⟨d, h⟩
  · intro d d' h h'
    obtain ⟨d'', h'', hsame⟩ := decode_transfer hs hu h
    rw [h'] at h''
    cases h''
    exact hsame

/-- A name in the local namespace before that has its name, a reference before its
graph, and a graph without triples. -/
def scatteredLines : List SExpr := [
  .list [(0 : GraphId).atom, .list [.list [.symbol "uriref", .list [.symbol "here", .symbol "a"]],
    .list [.symbol "uriref", .symbol "ex:p"], (2 : GraphId).atom]],
  .list [.symbol "Namespace", .list [.symbol "local", .symbol "here"]],
  .list [(2 : GraphId).atom, .list [(1 : GraphId).atom, .list [.symbol "uriref", .symbol "ex:p"],
    .list [.symbol "variable", .symbol "x"]]],
  .list [(1 : GraphId).atom],
  .list [.symbol "Namespace", .list [.symbol "ex", .string "http://example.org/"]]]

/-- What these lines say. -/
def scattered : Document where
  graphs := [
    ⟨.top, [⟨.iri ⟨"file:///kb#a", by decide +kernel⟩, .iri ⟨"ex:p", by decide +kernel⟩, .graph 2⟩]⟩,
    ⟨2, [⟨.graph 1, .iri ⟨"ex:p", by decide +kernel⟩, .var ⟨"x", by decide +kernel⟩⟩]⟩,
    ⟨1, []⟩]
  namespaces := ⟨[("ex", "http://example.org/")], some ⟨"here", some "file:///kb#"⟩⟩

theorem decode_of_same_lines_scattered :
    let lines' := scatteredLines.reverse ++ scatteredLines
    (∀ e, e ∈ scatteredLines ↔ e ∈ lines') ∧ Unambiguous scatteredLines ∧
      decode .quoted (some "file:///kb") scatteredLines = .ok scattered ∧
      ∃ d', decode .quoted (some "file:///kb") lines' = .ok d' ∧ scattered.same d' = true := by
  intro lines'
  have hs : ∀ e, e ∈ scatteredLines ↔ e ∈ lines' := by simp [lines']
  have hb : ∀ label iri, Binds scatteredLines label iri →
      (label, iri) = ("local", "here") ∨ (label, iri) = ("ex", "http://example.org/") := by
    rintro label iri ⟨e, he, -, hb⟩
    have h : binding label iri ∈ scatteredLines.filterMap binding? := List.mem_filterMap.2 ⟨e, he, hb⟩
    have hl : scatteredLines.filterMap binding? = [binding "local" "here", binding "ex" "http://example.org/"] := by
      decide
    simpa [hl] using h
  have hu : Unambiguous scatteredLines := by
    intro label iri iri' h h'
    rcases hb _ _ h with h | h <;> rcases hb _ _ h' with h' | h' <;> simp_all
  have hd : decode .quoted (some "file:///kb") scatteredLines = .ok scattered :=
    decode_eq_ok.2 ⟨_, rfl, by decide +kernel, checkReferences_succeeds.1 ⟨[0, 2, 1], by cbv⟩⟩
  obtain ⟨hiff, hsame⟩ := decode_of_same_lines .quoted (some "file:///kb") hs hu
  obtain ⟨d', hd'⟩ := hiff.1 ⟨scattered, hd⟩
  exact ⟨hs, hu, hd, d', hd', hsame scattered d' hd hd'⟩
end Document

end AtomLines.Rdf
