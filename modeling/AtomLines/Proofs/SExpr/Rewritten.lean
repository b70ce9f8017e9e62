import AtomLines.Proofs.SExpr.Grammar
import AtomLines.Proofs.SExpr.RoundTrip
/-!
# Rewriting a text

A text that was read is written again with one space between items. Reading it once
more gives the same expressions but for symbols with a white space character other than
the four that end a token: such a symbol is written in quotation marks and comes back
as a string. After that nothing changes any more.
-/

namespace AtomLines.SExpr

/-! ## Symbols with white space -/

/-- The text has white space of any kind. -/
def HasBlank (s : String) : Prop :=
  ∃ c ∈ s.toList, Text.isBlank c = true

instance (s : String) : Decidable (HasBlank s) :=
  decidable_of_iff (s.toList.any Text.isBlank = true) List.any_eq_true

mutual

/-- The expression with each symbol that has white space turned into a string. -/
def requoted : SExpr → SExpr
  | symbol s => if HasBlank s then string s else symbol s
  | string s => string s
  | number s => number s
  | list items => list (requotedItems items)

def requotedItems : List SExpr → List SExpr
  | [] => []
  | e :: rest => requoted e :: requotedItems rest

end

theorem requotedItems_eq_map (es : List SExpr) : requotedItems es = es.map requoted := by
  induction es with
  | nil => rfl
  | cons e es ih => rw [requotedItems, ih, List.map_cons]

@[simp]
theorem requoted_list (items : List SExpr) : requoted (list items) = list (items.map requoted) := by
  rw [requoted, requotedItems_eq_map]

@[simp]
theorem requoted_string (s : String) : requoted (string s) = string s := by rw [requoted]

@[simp]
theorem requoted_number (s : String) : requoted (number s) = number s := by rw [requoted]

theorem requoted_symbol_eq_self {s : String} : requoted (symbol s) = symbol s ↔ ¬ HasBlank s := by
  rw [requoted]
  split <;> simp_all

theorem mem_itemLexemes {l : Lexeme} {es : List SExpr} : l ∈ itemLexemes es ↔ ∃ e ∈ es, l ∈ e.lexemes := by
  induction es with
  | nil => simp [itemLexemes]
  | cons e es ih => simp [itemLexemes, ih]

mutual

/-- Exactly the expressions without white space in their symbols stay as they are. -/
theorem requoted_eq_self : ∀ e : SExpr, e.requoted = e ↔ ∀ s, .symbol s ∈ e.lexemes → ¬ HasBlank s
  | symbol s => by simp [requoted_symbol_eq_self, lexemes]
  | string s => by simp [lexemes]
  | number s => by simp [lexemes]
  | list items => by
    rw [requoted, list.injEq, requotedItems_eq_self items]
    simp [lexemes]

theorem requotedItems_eq_self :
    ∀ es : List SExpr, requotedItems es = es ↔ ∀ s, .symbol s ∈ itemLexemes es → ¬ HasBlank s
  | [] => by simp [requotedItems, itemLexemes]
  | e :: es => by
    rw [requotedItems, List.cons.injEq, requoted_eq_self e, requotedItems_eq_self es]
    simp only [itemLexemes, List.mem_append, or_imp, forall_and]

end

/-! ## Writing -/

theorem itemChars_cons_cons (e f : SExpr) (es : List SExpr) :
    itemChars (e :: f :: es) = chars e ++ ' ' :: itemChars (f :: es) := by
  rw [itemChars]
  simp

theorem lineChars_map {f : SExpr → SExpr} {es : List SExpr} (h : ∀ e ∈ es, chars (f e) = chars e) :
    lineChars (es.map f) = lineChars es := by
  induction es with
  | nil => rfl
  | cons e es ih =>
    rw [List.map_cons, lineChars, h e (by simp), ih fun g hg => h g (List.mem_cons_of_mem e hg), lineChars]

theorem HasBlank.needsQuotation {s : String} (h : HasBlank s) : NeedsQuotation s :=
  .inr (.inr (h.imp fun _ hc => ⟨hc.1, .inl hc.2⟩))

/-- Symbols with white space are written in quotation marks, as the string with their
text is. -/
theorem chars_requoted_symbol (s : String) : chars (requoted (symbol s)) = chars (symbol s) := by
  rw [requoted]
  split
  · rename_i h
    rw [chars, chars, if_pos (needsQuotes_iff.2 h.needsQuotation)]
  · rfl

mutual

/-- What is written does not show which strings were symbols. -/
theorem chars_requoted : ∀ e : SExpr, chars e.requoted = chars e
  | symbol s => chars_requoted_symbol s
  | string s => by rw [requoted_string]
  | number s => by rw [requoted_number]
  | list items => by rw [requoted, chars, chars, itemChars_requotedItems items]

theorem itemChars_requotedItems : ∀ es : List SExpr, itemChars (requotedItems es) = itemChars es
  | [] => by rw [requotedItems]
  | [e] => by rw [requotedItems, requotedItems, itemChars, itemChars, chars_requoted e]
  | e :: f :: es => by
    have hes := itemChars_requotedItems (f :: es)
    rw [requotedItems] at hes
    rw [requotedItems, requotedItems, itemChars_cons_cons, hes, chars_requoted e, itemChars_cons_cons]

end

theorem write_requoted (es : List SExpr) : write (es.map requoted) = write es := by
  rw [write, write, lineChars_map fun e _ => chars_requoted e]

/-! ## What was read -/

/-- The lexemes that a text can hold. -/
def Lexeme.Legible : Lexeme → Prop
  | .number s => Text.Numeral s.toList
  | .symbol s =>
    s.toList ≠ [] ∧ s.toList.head? ≠ some ';' ∧ (∀ c ∈ s.toList, ¬ Delimiter c) ∧ ¬ Text.Numeral s.toList
  | _ => True

theorem Scans.legible {cs : List Char} {ls : List Lexeme} (h : Scans cs ls) : ∀ l ∈ ls, l.Legible := by
  induction h with
  | done => simp
  | space _ _ ih => exact ih
  | comment _ _ _ ih => exact ih
  | opening _ ih => exact List.forall_mem_cons.2 ⟨trivial, ih⟩
  | closing _ ih => exact List.forall_mem_cons.2 ⟨trivial, ih⟩
  | string _ _ ih => exact List.forall_mem_cons.2 ⟨trivial, ih⟩
  | number _ hn _ ih => exact List.forall_mem_cons.2 ⟨by simpa [Lexeme.Legible] using hn, ih⟩
  | symbol hr hn _ ih =>
    refine List.forall_mem_cons.2 ⟨?_, ih⟩
    simpa [Lexeme.Legible] using ⟨hr.ne_nil, hr.start, hr.inside, hn⟩

/-- A symbol that was read needs quotation marks only because of white space. -/
theorem Lexeme.Legible.needsQuotation_iff {s : String} (h : (Lexeme.symbol s).Legible) :
    NeedsQuotation s ↔ HasBlank s := by
  obtain ⟨hne, hs, hd, -⟩ := h
  constructor
  · rintro (rfl | hh | ⟨c, hc, hb⟩)
    · exact absurd rfl hne
    · exact absurd hh hs
    · have hdc := hd c hc
      simp only [Delimiter, not_or] at hdc
      exact ⟨c, hc, hb.resolve_right fun hx => hx.elim hdc.2.1 fun hx => hx.elim hdc.2.2.1 hdc.2.2.2⟩
  · exact HasBlank.needsQuotation

theorem Lexeme.Legible.reread {s : String} (h : (Lexeme.symbol s).Legible) :
    (SExpr.symbol s).reread = (SExpr.symbol s).requoted := by
  rw [SExpr.reread, SExpr.requoted]
  simp only [h.needsQuotation_iff, if_neg h.2.2.2]

mutual

theorem proper_of_legible : ∀ e : SExpr, (∀ l ∈ e.lexemes, l.Legible) → e.Proper
  | symbol s, _ => .symbol s
  | string s, _ => .string s
  | number s, h => .number (h (.number s) (by simp [lexemes]))
  | list items, h => .list (proper_items_of_legible items fun l hl => h l (by simp [lexemes, hl]))

theorem proper_items_of_legible : ∀ es : List SExpr, (∀ l ∈ itemLexemes es, l.Legible) → ∀ e ∈ es, e.Proper
  | [], _ => by simp
  | e :: es, h => by
    simp only [itemLexemes, List.forall_mem_append] at h
    exact List.forall_mem_cons.2 ⟨proper_of_legible e h.1, proper_items_of_legible es h.2⟩

end

/-- An expression that was read comes back from its written form with its symbols
requoted. -/
theorem Proper.reread_eq {e : SExpr} (hp : e.Proper) (h : ∀ l ∈ e.lexemes, l.Legible) : e.reread = e.requoted := by
  induction hp with
  | symbol s => exact Lexeme.Legible.reread (h _ (by simp [lexemes]))
  | string s => rw [reread_string, requoted_string]
  | number _ => rw [reread_number, requoted_number]
  | list _ ih =>
    rw [reread_list, requoted_list]
    congr 1
    refine List.map_congr_left fun e he => ih e he fun l hl => h l ?_
    have hm := mem_itemLexemes.2 ⟨e, he, hl⟩
    simp [lexemes, hm]

/-! ## Rewriting -/

/-- A text that was read and written again is read as the same expressions with the
symbols that have white space turned into strings. So nothing has changed exactly if
there is no such symbol, and writing once more gives the same text. -/
theorem read_rewritten {text : String} {es : List SExpr} (h : read text = .ok es) :
    read (write es) = .ok (es.map requoted) ∧ write (es.map requoted) = write es ∧
      (read (write es) = .ok es ↔ ∀ s, .symbol s ∈ itemLexemes es → ¬ HasBlank s) := by
  have hl := (readChars_eq_ok.1 h).legible
  have hp := proper_items_of_legible es hl
  have hr : read (write es) = .ok (es.map requoted) := by
    rw [write, (readsAs_lineChars hp).read_eq]
    refine congrArg Except.ok (List.map_congr_left fun e he => (hp e he).reread_eq fun l hm => hl l ?_)
    exact mem_itemLexemes.2 ⟨e, he, hm⟩
  refine ⟨hr, write_requoted es, ?_⟩
  rw [hr, Except.ok.injEq, ← requotedItems_eq_map, requotedItems_eq_self]

theorem read_rewritten_spaced :
    read "(a;b \"x\\\"\" -0.5 ;c\n b\u00a0c)" =
        .ok [list [symbol "a;b", string "x\"", number "-0.5", symbol "b\u00a0c"]] ∧
      read (write [list [symbol "a;b", string "x\"", number "-0.5", symbol "b\u00a0c"]]) =
        .ok [list [symbol "a;b", string "x\"", number "-0.5", string "b\u00a0c"]] ∧
      write [list [symbol "a;b", string "x\"", number "-0.5", string "b\u00a0c"]] =
        write [list [symbol "a;b", string "x\"", number "-0.5", symbol "b\u00a0c"]] := by
  have h : read "(a;b \"x\\\"\" -0.5 ;c\n b\u00a0c)" =
      .ok [list [symbol "a;b", string "x\"", number "-0.5", symbol "b\u00a0c"]] := by decide +kernel
  have hq : [list [symbol "a;b", string "x\"", number "-0.5", symbol "b\u00a0c"]].map requoted =
      [list [symbol "a;b", string "x\"", number "-0.5", string "b\u00a0c"]] := by
    have ha : (symbol "a;b").requoted = symbol "a;b" := requoted_symbol_eq_self.2 (by decide)
    have hb : (symbol "b\u00a0c").requoted = string "b\u00a0c" := by
      rw [requoted, if_pos (by decide)]
    simp [ha, hb]
  obtain ⟨hr, hw, -⟩ := read_rewritten h
  rw [hq] at hr hw
  exact ⟨h, hr, hw⟩

/-- A symbol with a no-break space is read as a symbol, but it comes back as a string. -/
theorem read_rewritten_not_same :
    ∃ es, read "a\u00a0b" = .ok es ∧ read (write es) = .ok [string "a\u00a0b"] ∧ es ≠ [string "a\u00a0b"] := by
  have hb : (symbol "a\u00a0b").reread = string "a\u00a0b" := by
    rw [reread, if_pos (by decide)]
  have hr : read (write [symbol "a\u00a0b"]) = .ok [(symbol "a\u00a0b").reread] :=
    (readsAs_lineChars (by simp [Proper.symbol])).read_eq
  exact ⟨[symbol "a\u00a0b"], by decide +kernel, hb ▸ hr, by decide⟩

end AtomLines.SExpr
