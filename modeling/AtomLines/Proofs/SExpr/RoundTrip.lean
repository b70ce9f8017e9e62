import AtomLines.SExpr.Printer
import AtomLines.Proofs.SExpr.Spelling
import AtomLines.Proofs.Text.Numeral
/-!
# Written expressions read back

Reading what was written gives the expressions with their symbols respelled: a
symbol that needs quotation marks comes back as a string, one that is a numeral as a
number. All else is unchanged, at every depth.
-/

namespace AtomLines.SExpr

/-! ## What is read back -/

/-- Texts that are no bare token, or that a reader could take for more than one. -/
def NeedsQuotation (s : String) : Prop :=
  s = "" ∨ s.toList.head? = some ';' ∨
    ∃ c ∈ s.toList, Text.isBlank c = true ∨ c = '(' ∨ c = ')' ∨ c = '"'

theorem needsQuotes_iff {s : String} : needsQuotes s.toList = true ↔ NeedsQuotation s := by
  simp [needsQuotes, NeedsQuotation, or_assoc]

instance (s : String) : Decidable (NeedsQuotation s) :=
  decidable_of_iff _ needsQuotes_iff

mutual

/-- The expression as it comes back from its written form. -/
def reread : SExpr → SExpr
  | symbol s =>
    if NeedsQuotation s then string s
    else if Text.Numeral s.toList then number s
    else symbol s
  | string s => string s
  | number s => number s
  | list items => list (rereadItems items)

def rereadItems : List SExpr → List SExpr
  | [] => []
  | e :: rest => reread e :: rereadItems rest

end

theorem rereadItems_eq_map (es : List SExpr) : rereadItems es = es.map reread := by
  induction es with
  | nil => rfl
  | cons e es ih => rw [rereadItems, ih, List.map_cons]

@[simp]
theorem reread_list (items : List SExpr) : reread (list items) = list (items.map reread) := by
  rw [reread, rereadItems_eq_map]

@[simp]
theorem reread_string (s : String) : reread (string s) = string s := by rw [reread]

@[simp]
theorem reread_number (s : String) : reread (number s) = number s := by rw [reread]

/-- Every number of the expression is a numeral. -/
inductive Proper : SExpr → Prop
  | symbol (s : String) : Proper (symbol s)
  | string (s : String) : Proper (string s)
  | number {s : String} : Text.Numeral s.toList → Proper (number s)
  | list {items : List SExpr} : (∀ e ∈ items, Proper e) → Proper (list items)

/-! ## Characters of bare tokens -/

theorem isBareChar_of_isNumeralChar {c : Char} (h : Text.isNumeralChar c = true) : isBareChar c = true := by
  simp only [Text.isNumeralChar, Bool.or_eq_true, decide_eq_true_eq] at h
  rcases h with ((((h | rfl) | rfl) | rfl) | rfl) | rfl
  · have hne : ∀ d : Char, d.isDigit = false → c ≠ d := by
      rintro d hd rfl
      rw [h] at hd
      cases hd
    rw [isBareChar_iff]
    refine ⟨?_, hne _ rfl, hne _ rfl, hne _ rfl⟩
    simp [Text.isGap, hne ' ' rfl, hne '\t' rfl, hne '\r' rfl, hne '\n' rfl]
  all_goals rfl

theorem isBareChar_of_not_needsQuotation {s : String} (h : ¬ NeedsQuotation s) :
    ∀ c ∈ s.toList, isBareChar c = true := by
  intro c hc
  have hn : ∀ d ∈ s.toList, ¬ (Text.isBlank d = true ∨ d = '(' ∨ d = ')' ∨ d = '"') :=
    fun d hd hx => h (.inr (.inr ⟨d, hd, hx⟩))
  have hb := hn c hc
  simp only [not_or] at hb
  rw [isBareChar_iff]
  refine ⟨?_, hb.2⟩
  cases hg : Text.isGap c
  · rfl
  · exact absurd (Text.isBlank_of_isGap hg) hb.1

/-! ## Reading one piece of text -/

/-- The text is read as the expressions wherever it stands, as long as what follows
does not continue its last token. -/
def ReadsAs (cs : List Char) (es : List SExpr) : Prop :=
  ∀ rest, Ends rest → ∃ ts, Spelled ts es ∧ Tokens.Extends ts (tokens rest) (tokens (cs ++ rest))

theorem readsAs_nil : ReadsAs [] [] :=
  fun _ _ => ⟨[], .nil, .refl _⟩

/-- Pieces that are kept apart by a gap. -/
theorem ReadsAs.append_gap {cs ds : List Char} {es fs : List SExpr} {c : Char} (h : ReadsAs cs es)
    (hc : Text.isGap c = true) (h' : ReadsAs ds fs) : ReadsAs (cs ++ c :: ds) (es ++ fs) := by
  intro rest hr
  have he : Ends (c :: (ds ++ rest)) := ends_cons (by simp [isBareChar, hc]) _
  obtain ⟨ts, hs, hx⟩ := h _ he
  obtain ⟨us, hs', hx'⟩ := h' rest hr
  rw [tokens_cons_gap hc] at hx
  refine ⟨ts ++ us, hs.append hs', ?_⟩
  rw [List.append_assoc, List.cons_append]
  exact hx.trans hx'

theorem readsAs_bare {cs : List Char} (hn : cs ≠ []) (hs : cs.head? ≠ some ';')
    (h : ∀ c ∈ cs, isBareChar c = true) : ReadsAs cs [ofBare cs] :=
  fun _ hr => ⟨_, .bare .nil, extends_bare hn hs h hr⟩

theorem readsAs_quote (s : String) : ReadsAs (quote s.toList) [string s] := by
  intro rest _
  refine ⟨_, ?_, extends_quote s.toList rest⟩
  have h := Spelled.quoted (unescape?_escape s.toList) .nil
  rwa [String.ofList_toList] at h

theorem readsAs_list {cs : List Char} {es : List SExpr} (h : ReadsAs cs es) :
    ReadsAs ('(' :: (cs ++ [')'])) [list es] := by
  intro rest _
  obtain ⟨ts, hs, hx⟩ := h (')' :: rest) (ends_cons rfl _)
  have hc : tokens (')' :: rest) = (tokens rest).cons .closing (')' :: rest) :=
    tokens_closing (skipGaps_cons rfl (by decide) _)
  have ho := tokens_opening (skipGaps_cons (c := '(') rfl (by decide) (cs ++ ')' :: rest))
  rw [hc] at hx
  refine ⟨_, .list hs .nil, ?_⟩
  rw [List.cons_append, List.append_assoc, List.singleton_append, ho]
  exact (Tokens.Extends.cons ..).trans (hx.trans (.cons ..))

/-- A numeral is one token. -/
theorem extends_numeral {cs rest : List Char} (h : Text.Numeral cs) (hr : Ends rest) :
    Tokens.Extends [.bare cs] (tokens rest) (tokens (cs ++ rest)) := by
  have hb : ∀ c ∈ cs, isBareChar c = true := fun c hc => isBareChar_of_isNumeralChar (h.chars c hc)
  have hs : cs.head? ≠ some ';' := by
    intro hs
    have := h.chars ';' (List.mem_of_mem_head? hs)
    cases this
  exact extends_bare h.ne_nil hs hb hr

theorem readsAs_number {s : String} (h : Text.Numeral s.toList) : ReadsAs s.toList [number s] := by
  have ho : ofBare s.toList = number s := by
    rw [ofBare, if_pos (Text.isNumeral_iff.2 h), String.ofList_toList]
  rw [← ho]
  exact fun _ hr => ⟨_, .bare .nil, extends_numeral h hr⟩

theorem readsAs_symbol (s : String) : ReadsAs (chars (symbol s)) [reread (symbol s)] := by
  rw [chars, reread]
  by_cases hq : NeedsQuotation s
  · rw [if_pos (needsQuotes_iff.2 hq), if_pos hq]
    exact readsAs_quote s
  · rw [if_neg (fun h => hq (needsQuotes_iff.1 h)), if_neg hq]
    have hn : s.toList ≠ [] := fun h => hq (.inl (String.toList_eq_nil_iff.1 h))
    have hr := readsAs_bare hn (fun h => hq (.inr (.inl h))) (isBareChar_of_not_needsQuotation hq)
    have ho : ofBare s.toList = if Text.Numeral s.toList then number s else symbol s := by
      simp only [ofBare, Text.isNumeral_iff, String.ofList_toList]
    rwa [ho] at hr

/-! ## Reading written expressions -/

theorem readsAs_itemChars {es : List SExpr} (h : ∀ e ∈ es, ReadsAs (chars e) [e.reread]) :
    ReadsAs (itemChars es) (es.map reread) := by
  induction es with
  | nil => exact readsAs_nil
  | cons e es ih =>
    -- The last item has no space after it.
    cases es with
    | nil => exact h e (by simp)
    | cons f es =>
      rw [itemChars]
      · exact (h e (by simp)).append_gap rfl (ih fun g hg => h g (List.mem_cons_of_mem e hg))
      · simp

theorem readsAs_chars {e : SExpr} (h : e.Proper) : ReadsAs (chars e) [e.reread] := by
  induction h with
  | symbol s => exact readsAs_symbol s
  | string s =>
    rw [chars, reread_string]
    exact readsAs_quote s
  | number hn =>
    rw [chars, reread_number]
    exact readsAs_number hn
  | list _ ih =>
    rw [chars, reread_list]
    exact readsAs_list (readsAs_itemChars ih)

theorem readsAs_lineChars {es : List SExpr} (h : ∀ e ∈ es, e.Proper) :
    ReadsAs (lineChars es) (es.map reread) := by
  induction es with
  | nil => exact readsAs_nil
  | cons e es ih =>
    exact (readsAs_chars (h e (by simp))).append_gap rfl (ih fun g hg => h g (List.mem_cons_of_mem e hg))

/-- A text that is read as expressions up to its end. -/
theorem ReadsAs.read_eq {cs : List Char} {es : List SExpr} (h : ReadsAs cs es) :
    read (String.ofList cs) = .ok es := by
  obtain ⟨ts, hs, hx⟩ := h [] ends_nil
  rw [List.append_nil, tokens_nil] at hx
  have hk : (tokens cs).kinds = ts := by rw [hx.kinds]; simp [Tokens.kinds]
  rw [read, String.toList_ofList]
  exact readChars_spelled (hk ▸ hs) hx.stop

/-- What was written is read back with its symbols respelled and nothing else
changed. -/
theorem read_write (es : List SExpr) (h : ∀ e ∈ es, e.Proper) : read (write es) = .ok (es.map reread) :=
  (readsAs_lineChars h).read_eq

theorem read_write_respelled :
    read (write [list [symbol "a;b", symbol ";c", list [symbol "", symbol "-0.5E+3"], number "1e400",
        string "\\\"\n"]]) =
      .ok [list [symbol "a;b", string ";c", list [string "", number "-0.5E+3"], number "1e400",
        string "\\\"\n"]] := by
  have hn : (number "1e400").Proper := .number (by decide +kernel)
  have hi : (list [symbol "", symbol "-0.5E+3"]).Proper := .list (by simp [Proper.symbol])
  refine (read_write _ ?_).trans (congrArg Except.ok (by decide +kernel))
  simp only [List.mem_singleton, forall_eq]
  exact .list (by simp [Proper.symbol, Proper.string, hn, hi])

end AtomLines.SExpr
