import AtomLines.Proofs.SExpr.Grammar
/-!
# Texts one after the other

A line feed ends a comment and a bare token, and it is no part of any other lexeme. So
after a text that is read to its end, and a line feed, reading is where it was at the
start: what follows is cut into tokens as if it stood alone. And since expressions are
told by their lexemes, those of the first text are the first that are read.
-/

namespace AtomLines.SExpr

/-! ## The seam -/

section
variable {a b text rest : List Char} {ls ms : List Lexeme}

theorem BareRun.lineFeed (h : BareRun text rest) (b : List Char) : BareRun text (rest ++ '\n' :: b) where
  ne_nil := h.ne_nil
  start := h.start
  inside := h.inside
  longest := by
    cases rest with
    | nil => simp [Delimiter, Space]
    | cons c rest => exact h.longest

/-- Behind a scanned text and a line feed, cutting goes on as at a start. -/
theorem Scans.extends (h : Scans a ls) (b : List Char) : ∃ ts, List.Forall₂ Token.Denotes ts ls ∧
    Tokens.Extends ts (SExpr.tokens b) (SExpr.tokens (a ++ '\n' :: b)) := by
  induction h with
  | done =>
    refine ⟨[], .nil, ?_⟩
    rw [List.nil_append, tokens_cons_gap rfl]
    exact .refl _
  | space hc _ ih => rwa [List.cons_append, tokens_cons_gap (isGap_iff.2 hc)]
  | @comment body rest ls hb hr _ ih =>
    have hend : ∀ c ∈ (rest ++ '\n' :: b).head?, c = '\n' := by
      cases rest with
      | nil => simp
      | cons c rest => exact hr
    rwa [List.cons_append, List.append_assoc, tokens_comment hb hend]
  | opening _ ih =>
    obtain ⟨ts, hl, he⟩ := ih
    rw [List.cons_append, tokens_opening (skipGaps_cons rfl (by decide) _)]
    exact ⟨_, .cons .opening hl, (Tokens.Extends.cons ..).trans he⟩
  | closing _ ih =>
    obtain ⟨ts, hl, he⟩ := ih
    rw [List.cons_append, tokens_closing (skipGaps_cons rfl (by decide) _)]
    exact ⟨_, .cons .closing hl, (Tokens.Extends.cons ..).trans he⟩
  | string hb _ ih =>
    obtain ⟨ts, hl, he⟩ := ih
    rw [List.cons_append, List.append_assoc, List.cons_append,
      tokens_quoted (skipGaps_cons rfl (by decide) _) (hb.quotedBody_eq _)]
    exact ⟨_, .cons (.string hb.unescape?_eq) hl, (Tokens.Extends.cons ..).trans he⟩
  | number hr hn _ ih =>
    obtain ⟨ts, hl, he⟩ := ih
    rw [List.append_assoc]
    exact ⟨_, .cons (.number hn) hl, (hr.lineFeed b).extends.trans he⟩
  | symbol hr hn _ ih =>
    obtain ⟨ts, hl, he⟩ := ih
    rw [List.append_assoc]
    exact ⟨_, .cons (.symbol hn) hl, (hr.lineFeed b).extends.trans he⟩

/-- A text is scanned behind another one exactly as it is scanned alone. -/
theorem Scans.joined_iff (h : Scans a ls) : Scans (a ++ '\n' :: b) ms ↔ ∃ ns, Scans b ns ∧ ms = ls ++ ns := by
  obtain ⟨ts, hl, he⟩ := h.extends b
  simp only [scans_iff, he.stop, he.kinds]
  constructor
  · rintro ⟨hs, hm⟩
    have hfirst := List.forall₂_take ts.length hm
    have hrest := List.forall₂_drop ts.length hm
    rw [List.take_left] at hfirst
    rw [List.drop_left] at hrest
    refine ⟨_, ⟨hs, hrest⟩, ?_⟩
    rw [List.right_unique_forall₂' Token.Denotes.unique hl hfirst, List.take_append_drop]
  · rintro ⟨ns, ⟨hs, hn⟩, rfl⟩
    exact ⟨hs, List.rel_append hl hn⟩

end

/-! ## Expressions are told by their lexemes -/

mutual

/-- Where the lexemes of an expression stand first, it is the first expression. -/
theorem lexemes_append_inj :
    ∀ {e f : SExpr} {ls ms : List Lexeme}, e.lexemes ++ ls = f.lexemes ++ ms → e = f ∧ ls = ms
  | .symbol _, .symbol _, _, _, h | .string _, .string _, _, _, h | .number _, .number _, _, _, h => by
    obtain ⟨hl, hr⟩ := List.cons.inj h
    cases hl
    exact ⟨rfl, hr⟩
  | .list _, .list _, ls, ms, h => by
    simp only [lexemes, List.cons_append, List.append_assoc, List.cons.injEq, true_and] at h
    obtain ⟨rfl, hr⟩ := itemLexemes_closing_inj h
    exact ⟨rfl, hr⟩
  | .symbol _, .string _, _, _, h | .symbol _, .number _, _, _, h | .symbol _, .list _, _, _, h
  | .string _, .symbol _, _, _, h | .string _, .number _, _, _, h | .string _, .list _, _, _, h
  | .number _, .symbol _, _, _, h | .number _, .string _, _, _, h | .number _, .list _, _, _, h
  | .list _, .symbol _, _, _, h | .list _, .string _, _, _, h | .list _, .number _, _, _, h => by
    simp [lexemes] at h

/-- The parenthesis that closes a list comes after all its items. -/
theorem itemLexemes_closing_inj :
    ∀ {es fs : List SExpr} {ls ms : List Lexeme},
      itemLexemes es ++ .closing :: ls = itemLexemes fs ++ .closing :: ms → es = fs ∧ ls = ms
  | [], [], _, _, h => ⟨rfl, (List.cons.inj h).2⟩
  | e :: es, f :: fs, _, _, h => by
    simp only [itemLexemes, List.append_assoc] at h
    obtain ⟨rfl, hes⟩ := lexemes_append_inj h
    obtain ⟨rfl, hr⟩ := itemLexemes_closing_inj hes
    exact ⟨rfl, hr⟩
  | [], f :: fs, _, _, h => by
    cases f <;> simp [itemLexemes, lexemes] at h
  | e :: es, [], _, _, h => by
    cases e <;> simp [itemLexemes, lexemes] at h

end

/-- If the lexemes of expressions are the first, these expressions are. -/
theorem exists_of_itemLexemes_append {es gs : List SExpr} {ls : List Lexeme} (h : itemLexemes es ++ ls = itemLexemes gs) :
    ∃ fs, gs = es ++ fs ∧ ls = itemLexemes fs := by
  induction es generalizing gs with
  | nil => exact ⟨gs, rfl, h⟩
  | cons e es ih =>
    cases gs with
    | nil => cases e <;> simp [itemLexemes, lexemes] at h
    | cons g gs =>
      simp only [itemLexemes, List.append_assoc] at h
      obtain ⟨rfl, hes⟩ := lexemes_append_inj h
      obtain ⟨fs, rfl, hl⟩ := ih hes
      exact ⟨fs, rfl, hl⟩

/-! ## Reading -/

/-- Behind a text that is read, and a line feed, another text is read exactly if it is
read alone, and as the same expressions. -/
theorem read_joined {a : String} {es : List SExpr} (ha : read a = .ok es) (b : String) :
    (∀ fs, read b = .ok fs → read (a ++ "\n" ++ b) = .ok (es ++ fs)) ∧
      ∀ gs, read (a ++ "\n" ++ b) = .ok gs → ∃ fs, read b = .ok fs ∧ gs = es ++ fs := by
  have hscan : ∀ gs, read (a ++ "\n" ++ b) = .ok gs ↔ ∃ ns, Scans b.toList ns ∧ itemLexemes gs = itemLexemes es ++ ns := by
    intro gs
    rw [read, readChars_eq_ok, ← (readChars_eq_ok.1 ha).joined_iff]
    simp
  constructor
  · intro fs hb
    exact (hscan _).2 ⟨_, readChars_eq_ok.1 hb, itemLexemes_append es fs⟩
  · intro gs h
    obtain ⟨ns, hb, he⟩ := (hscan gs).1 h
    obtain ⟨fs, rfl, rfl⟩ := exists_of_itemLexemes_append he.symm
    exact ⟨fs, readChars_eq_ok.2 hb, rfl⟩

/-- The first text ends in a comment, the second starts with a string that has a line
feed and a semicolon in it. -/
theorem read_joined_comment : read "(a;b 1) ;c" = .ok [list [symbol "a;b", number "1"]] ∧
    read "\"\n;\" d" = .ok [string "\n;", symbol "d"] ∧
    read ("(a;b 1) ;c" ++ "\n" ++ "\"\n;\" d") =
      .ok [list [symbol "a;b", number "1"], string "\n;", symbol "d"] := by
  have ha : read "(a;b 1) ;c" = .ok [list [symbol "a;b", number "1"]] := by decide +kernel
  have hb : read "\"\n;\" d" = .ok [string "\n;", symbol "d"] := by decide +kernel
  exact ⟨ha, hb, (read_joined ha _).1 _ hb⟩

end AtomLines.SExpr
