import AtomLines.Proofs.Outcome
import AtomLines.Proofs.SExpr.RoundTrip
/-!
# Names and indices in text

A name is known by its text, whichever atom carries it, so writing and reading keeps
it. An index keeps its spelling, and so does a symbol that is plainly a symbol.
-/

namespace AtomLines.SExpr

theorem reread_symbol {s : String} (hq : ¬ NeedsQuotation s) (hn : ¬ Text.Numeral s.toList) :
    (symbol s).reread = symbol s := by
  rw [reread, if_neg hq, if_neg hn]

/-- Writing and reading keeps the text of a symbol. -/
@[simp]
theorem name?_reread_symbol (s : String) : (symbol s).reread.name? = some s := by
  rw [reread]
  split
  · rfl
  · split <;> rfl

@[simp]
theorem index?_ofIndex {n : Nat} (h : n < Text.indexBound) : (ofIndex n).index? = some n := by
  simp [ofIndex, index?, Text.indexOf?_naturalDigits h]

theorem lt_of_index? {e : SExpr} {n : Nat} (h : e.index? = some n) : n < Text.indexBound := by
  cases e with
  | number s =>
    simp only [index?, Text.indexOf?, Option.ite_none_right_eq_some, Bool.and_eq_true, decide_eq_true_eq] at h
    exact Option.some.inj h.2 ▸ h.1.2
  | _ => cases h

/-- A bare token is an index exactly if its text is the numeral of the index. -/
theorem index?_ofBare {text : List Char} {i : Nat} :
    (ofBare text).index? = some i ↔ i < Text.indexBound ∧ text = Text.naturalDigits i := by
  rw [ofBare]
  split
  · rename_i h
    rw [index?, String.toList_ofList, (Text.isNumeral_iff.1 h).indexOf?_eq_some]
  · rename_i hn
    constructor
    · intro h
      cases h
    · rintro ⟨-, rfl⟩
      exact absurd (Text.isNumeral_iff.2 (Text.naturalDigits_numeral i)) hn

@[simp]
theorem reread_ofIndex (n : Nat) : (ofIndex n).reread = ofIndex n := by
  rw [ofIndex, reread_number]

theorem ofIndex_inj {m n : Nat} : ofIndex m = ofIndex n ↔ m = n := by
  refine ⟨fun h => ?_, congrArg _⟩
  rw [ofIndex, ofIndex, number.injEq, String.ofList_inj] at h
  rw [← Text.naturalValue_digits m, h, Text.naturalValue_digits]

/-- The text of one expression is read as one expression. -/
theorem read_text {e : SExpr} (h : e.Proper) : read e.text = .ok [e.reread] :=
  (readsAs_chars h).read_eq

theorem proper_ofIndex (n : Nat) : (ofIndex n).Proper :=
  .number (by simpa using Text.naturalDigits_numeral n)

/-! ## Expressions that come back as they are -/

/-- The expression comes back unchanged from its written form. -/
structure Faithful (e : SExpr) : Prop where
  proper : e.Proper
  reread : e.reread = e

namespace Faithful

theorem string (s : String) : (string s).Faithful := ⟨.string s, reread_string s⟩

theorem ofIndex (n : Nat) : (ofIndex n).Faithful := ⟨proper_ofIndex n, reread_ofIndex n⟩

theorem symbol {s : String} (hq : ¬ NeedsQuotation s) (hn : ¬ Text.Numeral s.toList) : (symbol s).Faithful :=
  ⟨.symbol s, reread_symbol hq hn⟩

theorem list {items : List SExpr} (h : ∀ e ∈ items, e.Faithful) : (list items).Faithful := by
  refine ⟨.list fun e he => (h e he).proper, ?_⟩
  rw [reread_list, map_eq_self fun e he => (h e he).reread]

end Faithful

/-- Lines that come back as they are. -/
theorem read_write_faithful {es : List SExpr} (h : ∀ e ∈ es, e.Faithful) : read (write es) = .ok es := by
  rw [read_write es fun e he => (h e he).proper, map_eq_self fun e he => (h e he).reread]

end AtomLines.SExpr
