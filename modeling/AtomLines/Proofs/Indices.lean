import AtomLines.Proofs.Json.Records
import AtomLines.Proofs.Json.Unwrapped
import AtomLines.Proofs.Rdf.Term
import AtomLines.Proofs.SExpr.Atoms
import AtomLines.Proofs.SExpr.Grammar
import AtomLines.Proofs.Table.Entry
/-!
# Indices have one spelling

An atom that was read is an index exactly if its token is the decimal numeral of a
natural below the bound. Whatever is looked up by index, a record, a row, a position in
a sequence or a graph, is therefore denoted by one atom only.
-/

namespace AtomLines

namespace SExpr

/-! ## Atoms and their tokens -/

mutual

/-- The parts that are no lists, from left to right. -/
def atoms : SExpr → List SExpr
  | symbol s => [symbol s]
  | string s => [string s]
  | number s => [number s]
  | list items => itemAtoms items

def itemAtoms : List SExpr → List SExpr
  | [] => []
  | e :: rest => atoms e ++ itemAtoms rest

end

def Token.isAtom : Token → Bool
  | .opening | .closing => false
  | .quoted _ | .bare _ => true

/-- The tokens of a text that are no parentheses. -/
def atomTokens (text : String) : List Token :=
  (tokens text.toList).kinds.filter Token.isAtom

/-- The atom that a token gives. -/
inductive Token.Gives : Token → SExpr → Prop
  | bare (text : List Char) : Gives (.bare text) (ofBare text)
  | quoted {body text : List Char} : unescape? body = some text → Gives (.quoted body) (.string (String.ofList text))

section
variable {text : String} {ts : List Token} {es : List SExpr} {t : Token} {a : SExpr} {i : Nat}

theorem itemAtoms_cons_ofBare (text : List Char) (es : List SExpr) :
    itemAtoms (ofBare text :: es) = ofBare text :: itemAtoms es := by
  rw [ofBare]
  split <;> rfl

/-- The atoms of what tokens spell are given by the tokens one by one. -/
theorem Spelled.gives (h : Spelled ts es) : List.Forall₂ Token.Gives (ts.filter Token.isAtom) (itemAtoms es) := by
  induction h with
  | nil => exact .nil
  | bare _ ih =>
    rw [itemAtoms_cons_ofBare]
    exact .cons (.bare _) ih
  | quoted hq _ ih => exact .cons (.quoted hq) ih
  | list _ _ ihi ih =>
    -- Parentheses give no atom; what is inside gives its own before what follows.
    rw [List.filter_cons_of_neg (by decide), List.filter_append, List.filter_cons_of_neg (by decide), itemAtoms, atoms]
    exact List.rel_append ihi ih

theorem gives_of_read (h : read text = .ok es) : List.Forall₂ Token.Gives (atomTokens text) (itemAtoms es) :=
  (spelled_itemLexemes es _ (readChars_eq_ok.1 h).tokens.2).gives

theorem Token.Gives.index?_iff (h : t.Gives a) :
    a.index? = some i ↔ i < Text.indexBound ∧ t = .bare (Text.naturalDigits i) := by
  cases h with
  | bare text => rw [index?_ofBare, Token.bare.injEq]
  | quoted => exact iff_of_false nofun nofun

/-- The token of some text is read as the atom. -/
def Token.ReadAs (t : Token) (a : SExpr) : Prop :=
  ∃ text es, read text = .ok es ∧ (t, a) ∈ (atomTokens text).zip (itemAtoms es)

theorem Token.ReadAs.eq_bare (h : t.ReadAs a) (hi : a.index? = some i) : t = .bare (Text.naturalDigits i) := by
  obtain ⟨text, es, hr, ht⟩ := h
  exact ((List.forall₂_zip (gives_of_read hr) ht).index?_iff.1 hi).2

/-! ## Indices that are written -/

/-- The text of an index is one token, whatever delimiter comes after it. -/
theorem extends_ofIndex (i : Nat) {rest : List Char} (hr : Ends rest) :
    Tokens.Extends [.bare (Text.naturalDigits i)] (tokens rest) (tokens ((ofIndex i).chars ++ rest)) := by
  rw [ofIndex, chars, String.toList_ofList]
  exact extends_numeral (Text.naturalDigits_numeral i) hr

mutual

theorem atoms_reread : (e : SExpr) → atoms e.reread = (atoms e).map reread
  | symbol s => by
    rw [atoms, List.map_singleton, reread]
    split
    · rfl
    · split <;> rfl
  | string s => by rw [reread_string, atoms, List.map_singleton, reread_string]
  | number s => by rw [reread_number, atoms, List.map_singleton, reread_number]
  | list items => by rw [reread_list, atoms, atoms, itemAtoms_reread items]

theorem itemAtoms_reread : (es : List SExpr) → itemAtoms (es.map reread) = (itemAtoms es).map reread
  | [] => rfl
  | e :: rest => by rw [List.map_cons, itemAtoms, itemAtoms, List.map_append, atoms_reread e, itemAtoms_reread rest]

end

/-- An index is read back where it was written. -/
theorem getElem?_atoms_reread {e : SExpr} {k : Nat} (h : e.atoms[k]? = some (ofIndex i)) :
    e.reread.atoms[k]? = some (ofIndex i) := by
  rw [atoms_reread, List.getElem?_map, h, Option.map_some, reread_ofIndex]

end

end SExpr

/-! ## What indices denote -/

/-- What is looked up by index. -/
inductive Referent where
  | record (index : Nat)
  | row (index : Nat)
  | position (index : Nat)
  | graph (id : Rdf.GraphId)

def Referent.index : Referent → Nat
  | record i | row i | position i => i
  | graph id => id.toNat

/-- The atom is read as the index of something: in a line of a record or of a table, under
a key, in the label of a graph or in a reference to it. -/
inductive Denotes (a : SExpr) : Referent → Prop
  | record {marker : String} {head body : SExpr} {i : Nat} :
    Json.recordParts marker (.list [head, a, body]) = .ok (i, body) → Denotes a (.record i)
  | row {line i : Nat} : Table.index line a = .ok i → Denotes a (.row i)
  | position {key : String} {atoms : List SExpr} {indices : List Nat} {n i : Nat} :
    Json.Path.readIndices key atoms = .ok indices → atoms[n]? = some a → indices[n]? = some i → Denotes a (.position i)
  | label {head : SExpr} {id : Rdf.GraphId} : Rdf.GraphId.ofAtom? (.list [head, a]) = some id → Denotes a (.graph id)
  | reference {ns : Rdf.Namespaces} {head : SExpr} {id : Rdf.GraphId} :
    Rdf.Term.ofAtom ns (.list [head, a]) = .ok (.graph id) → Denotes a (.graph id)

/-- Nothing is lost when an index becomes the number of a graph. -/
theorem index?_of_graphId {a : SExpr} {i : Nat} (h : a.index? = some i) : a.index? = some (UInt64.ofNat i).toNat := by
  have hi : i < 2 ^ 64 := SExpr.lt_of_index? h
  rw [h, UInt64.toNat_ofNat', Nat.mod_eq_of_lt hi]

theorem index?_of_label {head a : SExpr} {id : Rdf.GraphId} (h : Rdf.GraphId.ofAtom? (.list [head, a]) = some id) :
    a.index? = some id.toNat := by
  simp only [Rdf.GraphId.ofAtom?, Option.ite_none_right_eq_some, Option.map_eq_some_iff] at h
  obtain ⟨-, i, hi, rfl⟩ := h
  exact index?_of_graphId hi

theorem index?_of_reference {ns : Rdf.Namespaces} {head a : SExpr} {id : Rdf.GraphId}
    (h : Rdf.Term.ofAtom ns (.list [head, a]) = .ok (.graph id)) : a.index? = some id.toNat := by
  rcases Rdf.Term.ofAtom_cases h with ⟨_, _, _, -, -, e⟩ | ⟨_, _, _, e, hk, hr⟩
  · cases e
  · cases e
    rcases Rdf.Term.ofKind?_cases hk hr with ⟨_, -, -, e⟩ | ⟨_, _, -, -, -, e⟩ | ⟨_, _, -, -, -, e⟩ | ⟨i, -, hi, e⟩ <;>
      cases e
    exact index?_of_graphId hi

theorem Denotes.index?_eq {a : SExpr} {r : Referent} (h : Denotes a r) : a.index? = some r.index := by
  cases h with
  | record h =>
    obtain ⟨head, index, he, -, hi⟩ := Json.recordParts_eq_ok.1 h
    cases he
    exact hi
  | row h => exact Table.index_eq_ok.1 h
  | @position _ _ _ n i h ha hi =>
    have hn := (Json.Path.readIndices_eq_ok.1 h).2.getElem? n
    rw [ha, hi] at hn
    exact hn.symm
  | label h => exact index?_of_label h
  | reference h => exact index?_of_reference h

open SExpr in
/-- Indices have one spelling. Of the atoms of a text those are indices whose tokens are
decimal numerals of naturals below the bound. An index is written as that token, and read
back as the same atom wherever it stands in an expression. Two tokens that denote the same
thing are therefore the same. -/
theorem indices_have_one_spelling :
    (∀ text es, read text = .ok es →
      List.Forall₂ (fun t a => ∀ i, a.index? = some i ↔ i < Text.indexBound ∧ t = .bare (Text.naturalDigits i))
        (atomTokens text) (itemAtoms es)) ∧
    (∀ i < Text.indexBound, (ofIndex i).index? = some i ∧
      (∀ rest, Ends rest →
        Tokens.Extends [.bare (Text.naturalDigits i)] (tokens rest) (tokens ((ofIndex i).chars ++ rest))) ∧
      ∀ (e : SExpr) (k : Nat), e.Proper → e.atoms[k]? = some (ofIndex i) →
        ∃ e' : SExpr, read e.text = .ok [e'] ∧ e'.atoms.length = e.atoms.length ∧ e'.atoms[k]? = some (ofIndex i)) ∧
    ∀ t u a b r, Token.ReadAs t a → Token.ReadAs u b → Denotes a r → Denotes b r → t = u := by
  refine ⟨fun text es h => ?_, fun i hi => ⟨index?_ofIndex hi, fun _ => extends_ofIndex i, fun e k he hk => ?_⟩, ?_⟩
  · exact (gives_of_read h).imp fun t a ht i => ht.index?_iff
  · refine ⟨e.reread, read_text he, ?_, getElem?_atoms_reread hk⟩
    rw [atoms_reread, List.length_map]
  · intro t u a b r ht hu ha hb
    rw [ht.eq_bare ha.index?_eq, hu.eq_bare hb.index?_eq]

/-- Sevens of several kinds, and what lies on both sides of the bounds. -/
def sevens : String :=
  "(7 007 +7 -7 7.0 7e0 \"7\" 18446744073709551615 18446744073709551616 -0 0)"

open SExpr in
theorem indices_have_one_spelling_sevens : ∃ es, read sevens = .ok es ∧
    es = [.list [.number "7", .symbol "007", .symbol "+7", .number "-7", .number "7.0", .number "7e0", .string "7",
      .number "18446744073709551615", .number "18446744073709551616", .number "-0", .number "0"]] ∧
    (itemAtoms es).map SExpr.index? = [some 7, none, none, none, none, none, none, some 18446744073709551615,
      none, none, some 0] ∧
    List.Forall₂ (fun t a => ∀ i, a.index? = some i ↔ i < Text.indexBound ∧ t = .bare (Text.naturalDigits i))
      (atomTokens sevens) (itemAtoms es) ∧
    (∃ e' : SExpr, read (list [.symbol "a b", .list [ofIndex 7]]).text = .ok [e'] ∧ e'.atoms[1]? = some (ofIndex 7)) ∧
    ∀ t a, Token.ReadAs t a → Denotes a (.record 7) → t = .bare ['7'] := by
  have hr : read sevens = .ok [.list [.number "7", .symbol "007", .symbol "+7", .number "-7", .number "7.0",
      .number "7e0", .string "7", .number "18446744073709551615", .number "18446744073709551616", .number "-0",
      .number "0"]] := by decide +kernel
  have h7 : Token.ReadAs (.bare ['7']) (ofIndex 7) := ⟨"7", [ofIndex 7], by decide +kernel, by decide +kernel⟩
  have d7 : Denotes (ofIndex 7) (.record 7) := @Denotes.record _ "json" (.symbol "json") (.list []) 7 rfl
  refine ⟨_, hr, rfl, ?_, indices_have_one_spelling.1 sevens _ hr, ?_, fun t a ht ha => ?_⟩
  · decide +kernel
  · obtain ⟨e', he, -, hk⟩ := (indices_have_one_spelling.2.1 7 (by decide)).2.2
      (list [.symbol "a b", .list [ofIndex 7]]) 1 (by simp [Proper.list, Proper.symbol, proper_ofIndex]) rfl
    exact ⟨e', he, hk⟩
  · exact indices_have_one_spelling.2.2 t _ a _ _ ht h7 ha d7

end AtomLines
