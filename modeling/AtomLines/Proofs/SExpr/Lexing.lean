import AtomLines.SExpr.Token
import AtomLines.SExpr.Quoted
/-!
# Cutting a text into tokens

One equation for each kind of token that may come next. They say how a text is cut
that starts with a known token and goes on in any way, which is what both written
and arbitrary texts need.
-/

namespace AtomLines.SExpr

namespace Tokens

/-- The tokens without the places where they stand. -/
def kinds (ts : Tokens) : List Token :=
  ts.placed.map Prod.fst

@[simp]
theorem kinds_cons (t : Token) (here : List Char) (ts : Tokens) : (ts.cons t here).kinds = t :: ts.kinds := rfl

@[simp]
theorem stop_cons (t : Token) (here : List Char) (ts : Tokens) : (ts.cons t here).stop = ts.stop := rfl

/-- `whole` is some tokens and then those of `after`. -/
structure Extends (front : List Token) (after whole : Tokens) : Prop where
  kinds : whole.kinds = front ++ after.kinds
  stop : whole.stop = after.stop

namespace Extends

theorem refl (ts : Tokens) : Extends [] ts ts := ⟨rfl, rfl⟩

theorem cons (t : Token) (here : List Char) (ts : Tokens) : Extends [t] ts (ts.cons t here) := ⟨rfl, rfl⟩

theorem trans {front back : List Token} {a b c : Tokens} (h : Extends front b c) (h' : Extends back a b) :
    Extends (front ++ back) a c :=
  ⟨by rw [h.kinds, h'.kinds, List.append_assoc], h.stop.trans h'.stop⟩

end Extends

end Tokens

/-! ## One token -/

section
variable {cs rest body after : List Char} {c : Char}

theorem tokens_end (h : skipGaps cs = []) : tokens cs = ⟨[], []⟩ := by
  rw [tokens]
  split <;> simp_all

theorem tokens_opening (h : skipGaps cs = '(' :: rest) :
    tokens cs = (tokens rest).cons .opening ('(' :: rest) := by
  rw [tokens]
  split <;> simp_all

theorem tokens_closing (h : skipGaps cs = ')' :: rest) :
    tokens cs = (tokens rest).cons .closing (')' :: rest) := by
  rw [tokens]
  split <;> simp_all

theorem tokens_quoted (h : skipGaps cs = '"' :: rest) (hq : quotedBody rest = some (body, after)) :
    tokens cs = (tokens after).cons (.quoted body) ('"' :: rest) := by
  rw [tokens]
  split
  case h_4 h' =>
    rw [h] at h'
    cases h'
    split
    · simp_all
    · rename_i hq'
      rw [hq] at hq'
      cases hq'
      rfl
  all_goals simp_all

/-- A quotation mark that is never closed stops the cutting. -/
theorem tokens_unclosed (h : skipGaps cs = '"' :: rest) (hq : quotedBody rest = none) :
    tokens cs = ⟨[], '"' :: rest⟩ := by
  rw [tokens]
  split
  case h_4 h' =>
    rw [h] at h'
    cases h'
    split
    · rfl
    · simp_all
  all_goals simp_all

theorem tokens_bare (h : skipGaps cs = c :: rest) (h1 : c ≠ '(') (h2 : c ≠ ')') (h3 : c ≠ '"') :
    tokens cs =
      (tokens (rest.dropWhile isBareChar)).cons (.bare (c :: rest.takeWhile isBareChar)) (c :: rest) := by
  rw [tokens]
  split
  case h_5 => simp_all
  all_goals grind

/-- Cutting sees a text only after the gaps at its front. -/
theorem tokens_congr {ds : List Char} (h : skipGaps cs = skipGaps ds) : tokens cs = tokens ds := by
  cases hs : skipGaps ds with
  | nil => rw [tokens_end (h.trans hs), tokens_end hs]
  | cons c rest =>
    by_cases h1 : c = '('
    · subst h1
      rw [tokens_opening (h.trans hs), tokens_opening hs]
    by_cases h2 : c = ')'
    · subst h2
      rw [tokens_closing (h.trans hs), tokens_closing hs]
    by_cases h3 : c = '"'
    · subst h3
      cases hq : quotedBody rest with
      | none => rw [tokens_unclosed (h.trans hs) hq, tokens_unclosed hs hq]
      | some p => rw [tokens_quoted (h.trans hs) hq, tokens_quoted hs hq]
    · rw [tokens_bare (h.trans hs) h1 h2 h3, tokens_bare hs h1 h2 h3]

end

/-! ## Gaps -/

theorem skipGaps_cons_gap {c : Char} (h : Text.isGap c = true) (rest : List Char) :
    skipGaps (c :: rest) = skipGaps rest := by
  rw [skipGaps, if_pos h]

/-- A character that can start a token stops the skipping. -/
theorem skipGaps_cons {c : Char} (h : Text.isGap c = false) (hc : c ≠ ';') (rest : List Char) :
    skipGaps (c :: rest) = c :: rest := by
  rw [skipGaps, if_neg (by simp [h]), if_neg hc]

theorem tokens_cons_gap {c : Char} (h : Text.isGap c = true) (rest : List Char) :
    tokens (c :: rest) = tokens rest :=
  tokens_congr (skipGaps_cons_gap h rest)

theorem tokens_nil : tokens [] = ⟨[], []⟩ :=
  tokens_end (by simp [skipGaps])

/-! ## Bare tokens -/

theorem isBareChar_iff {c : Char} :
    isBareChar c = true ↔ Text.isGap c = false ∧ c ≠ '(' ∧ c ≠ ')' ∧ c ≠ '"' := by
  simp [isBareChar, and_assoc]

/-- Text that a bare token does not continue into. -/
def Ends (rest : List Char) : Prop :=
  ∀ c ∈ rest.head?, isBareChar c = false

theorem ends_nil : Ends [] := by simp [Ends]

theorem ends_cons {c : Char} (h : isBareChar c = false) (rest : List Char) : Ends (c :: rest) := by
  simp [Ends, h]

theorem takeWhile_bare {cs rest : List Char} (h : ∀ c ∈ cs, isBareChar c = true) (hr : Ends rest) :
    (cs ++ rest).takeWhile isBareChar = cs ∧ (cs ++ rest).dropWhile isBareChar = rest := by
  rw [List.takeWhile_append_of_pos h, List.dropWhile_append_of_pos h]
  cases rest with
  | nil => simp
  | cons c rest =>
    have hc : ¬ isBareChar c = true := by simp [hr c (by simp)]
    rw [List.takeWhile_cons_of_neg hc, List.dropWhile_cons_of_neg hc]
    simp

/-- A run of bare characters that may start a token is that token. -/
theorem extends_bare {cs rest : List Char} (hn : cs ≠ []) (hs : cs.head? ≠ some ';')
    (h : ∀ c ∈ cs, isBareChar c = true) (hr : Ends rest) :
    Tokens.Extends [.bare cs] (tokens rest) (tokens (cs ++ rest)) := by
  obtain ⟨c, cs, rfl⟩ := List.exists_cons_of_ne_nil hn
  have hw := takeWhile_bare (fun d hd => h d (List.mem_cons_of_mem c hd)) hr
  obtain ⟨hg, h1, h2, h3⟩ := isBareChar_iff.1 (h c (by simp))
  rw [List.cons_append, tokens_bare (skipGaps_cons hg (by simpa using hs) _) h1 h2 h3, hw.1, hw.2]
  exact .cons ..

/-! ## Quoted strings -/

theorem quotedBody_escape (cs rest : List Char) :
    quotedBody (escape cs ++ '"' :: rest) = some (escape cs, rest) := by
  induction cs with
  | nil => rfl
  | cons c cs ih =>
    -- The scan takes an escaped character together with its backslash, any other alone.
    by_cases h : c = '\\' ∨ c = '"'
    · have he : escape (c :: cs) = '\\' :: c :: escape cs := by simp [escape, h]
      rw [he]
      simp [quotedBody, ih]
    · simp only [not_or] at h
      have he : escape (c :: cs) = c :: escape cs := by simp [escape, h]
      rw [he, List.cons_append, quotedBody.eq_def]
      split <;> simp_all

theorem extends_quote (cs rest : List Char) :
    Tokens.Extends [.quoted (escape cs)] (tokens rest) (tokens (quote cs ++ rest)) := by
  have h := tokens_quoted (skipGaps_cons rfl (by decide) _) (quotedBody_escape cs rest)
  rw [quote, List.cons_append, List.append_assoc, List.singleton_append, h]
  exact .cons ..

end AtomLines.SExpr
