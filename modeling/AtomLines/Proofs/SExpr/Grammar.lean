import AtomLines.Proofs.SExpr.Spelling
import AtomLines.Proofs.Text.Numeral
import Mathlib.Data.List.Forall2
/-!
# The grammar of texts

`Scans` says how a text is cut into lexemes from left to right, and `lexemes` lists
those of an expression: its atoms, and a pair of parentheses around the items of each
list. A text is read as expressions exactly if it is scanned up to its end as their
lexemes. Every other text is refused at the place where reading stopped.
-/

namespace AtomLines.SExpr

/-! ## Lexemes -/

/-- A parenthesis, or an atom with its text. -/
inductive Lexeme where
  | opening
  | closing
  | string (text : String)
  | number (text : String)
  | symbol (text : String)
deriving DecidableEq, Repr

mutual

def lexemes : SExpr → List Lexeme
  | symbol s => [.symbol s]
  | string s => [.string s]
  | number s => [.number s]
  | list items => .opening :: (itemLexemes items ++ [.closing])

def itemLexemes : List SExpr → List Lexeme
  | [] => []
  | e :: rest => lexemes e ++ itemLexemes rest

end

theorem itemLexemes_append (es fs : List SExpr) : itemLexemes (es ++ fs) = itemLexemes es ++ itemLexemes fs := by
  induction es with
  | nil => rfl
  | cons e es ih => rw [List.cons_append, itemLexemes, ih, itemLexemes, List.append_assoc]

/-! ## Scanning -/

def Space (c : Char) : Prop := c = ' ' ∨ c = '\t' ∨ c = '\r' ∨ c = '\n'

/-- A character at which a bare token ends. -/
def Delimiter (c : Char) : Prop := Space c ∨ c = '(' ∨ c = ')' ∨ c = '"'

/-- A text without a quotation mark that is not escaped, and what it stands for: a
backslash is dropped, and the character after it is taken as it is. -/
inductive Escapes : List Char → List Char → Prop
  | nil : Escapes [] []
  | escaped {c : Char} {body text : List Char} : Escapes body text → Escapes ('\\' :: c :: body) (c :: text)
  | plain {c : Char} {body text : List Char} :
    c ≠ '\\' → c ≠ '"' → Escapes body text → Escapes (c :: body) (c :: text)

/-- The longest run of characters that are no delimiters, with what follows it, where a
token may start: there a semicolon starts a comment. -/
structure BareRun (text rest : List Char) : Prop where
  ne_nil : text ≠ []
  start : text.head? ≠ some ';'
  inside : ∀ c ∈ text, ¬ Delimiter c
  longest : ∀ c ∈ rest.head?, Delimiter c

/-- The lexemes of a text from its start to its end. -/
inductive Scans : List Char → List Lexeme → Prop
  | done : Scans [] []
  | space {c : Char} {rest : List Char} {ls : List Lexeme} : Space c → Scans rest ls → Scans (c :: rest) ls
  /-- A comment goes on up to a line feed or the end of the text. -/
  | comment {body rest : List Char} {ls : List Lexeme} :
    '\n' ∉ body → (∀ c ∈ rest.head?, c = '\n') → Scans rest ls → Scans (';' :: (body ++ rest)) ls
  | opening {rest : List Char} {ls : List Lexeme} : Scans rest ls → Scans ('(' :: rest) (.opening :: ls)
  | closing {rest : List Char} {ls : List Lexeme} : Scans rest ls → Scans (')' :: rest) (.closing :: ls)
  | string {body text rest : List Char} {ls : List Lexeme} :
    Escapes body text → Scans rest ls → Scans ('"' :: (body ++ '"' :: rest)) (.string (String.ofList text) :: ls)
  | number {text rest : List Char} {ls : List Lexeme} :
    BareRun text rest → Text.Numeral text → Scans rest ls → Scans (text ++ rest) (.number (String.ofList text) :: ls)
  | symbol {text rest : List Char} {ls : List Lexeme} :
    BareRun text rest → ¬ Text.Numeral text → Scans rest ls → Scans (text ++ rest) (.symbol (String.ofList text) :: ls)

/-! ## Characters -/

section
variable {c : Char} {cs body text rest : List Char} {ls : List Lexeme}

theorem isGap_iff : Text.isGap c = true ↔ Space c := by
  simp [Text.isGap, Space, or_assoc]

theorem isBareChar_eq_true : isBareChar c = true ↔ ¬ Delimiter c := by
  simp [isBareChar_iff, Delimiter, ← isGap_iff]

theorem isBareChar_eq_false : isBareChar c = false ↔ Delimiter c := by
  rw [← Bool.not_eq_true, isBareChar_eq_true, Classical.not_not]

/-! ## Gaps -/

theorem skipComment_append (h : '\n' ∉ body) (rest : List Char) : skipComment (body ++ rest) = skipComment rest := by
  induction body with
  | nil => rfl
  | cons c body ih =>
    rw [List.mem_cons, not_or] at h
    rw [List.cons_append, skipComment, if_neg (Ne.symm h.1), ih h.2]

/-- The rest of a comment is nothing, or what stands after the line feed. -/
theorem skipComment_of_ended (h : ∀ c ∈ rest.head?, c = '\n') : skipComment rest = skipGaps rest := by
  cases rest with
  | nil => rw [skipComment, skipGaps]
  | cons c rest =>
    obtain rfl : c = '\n' := h c rfl
    rw [skipComment, if_pos rfl, skipGaps_cons_gap rfl]

theorem tokens_comment (h : '\n' ∉ body) (hr : ∀ c ∈ rest.head?, c = '\n') :
    tokens (';' :: (body ++ rest)) = tokens rest := by
  refine tokens_congr ?_
  rw [skipGaps, if_neg (by decide), if_pos rfl, skipComment_append h, skipComment_of_ended hr]

/-- What is skipped is spaces and comments. -/
theorem scans_of_skip (cs : List Char) :
    (Scans (skipGaps cs) ls → Scans cs ls) ∧
      (Scans (skipComment cs) ls → ∃ body rest, cs = body ++ rest ∧ '\n' ∉ body ∧
        (∀ c ∈ rest.head?, c = '\n') ∧ Scans rest ls) := by
  induction cs with
  | nil =>
    rw [skipGaps, skipComment]
    exact ⟨id, fun h => ⟨[], [], rfl, by simp, by simp, h⟩⟩
  | cons c cs ih =>
    constructor
    · rw [skipGaps]
      split
      · rename_i hc
        exact fun h => .space (isGap_iff.1 hc) (ih.1 h)
      · split
        · rename_i hc
          intro h
          obtain ⟨body, rest, rfl, hb, hr, hs⟩ := ih.2 h
          exact hc ▸ .comment hb hr hs
        · exact id
    · rw [skipComment]
      split
      · rename_i hc
        exact fun h => ⟨[], c :: cs, rfl, by simp, by simp [hc], .space (by simp [Space, hc]) (ih.1 h)⟩
      · rename_i hc
        intro h
        obtain ⟨body, rest, rfl, hb, hr, hs⟩ := ih.2 h
        exact ⟨c :: body, rest, rfl, by simp [hb, Ne.symm hc], hr, hs⟩

/-! ## Strings -/

theorem Escapes.unescape?_eq (h : Escapes body text) : unescape? body = some text := by
  induction h with
  | nil => rfl
  | escaped _ ih => rw [unescape?, ih, Option.map_some]
  | plain hb _ _ ih =>
    rw [unescape?.eq_def]
    split <;> simp_all

theorem Escapes.quotedBody_eq (h : Escapes body text) (rest : List Char) :
    quotedBody (body ++ '"' :: rest) = some (body, rest) := by
  induction h with
  | nil => rfl
  | escaped _ ih => simp [quotedBody, ih]
  | plain hb hq _ ih =>
    rw [List.cons_append, quotedBody.eq_def]
    split <;> simp_all

theorem escapes_of_quotedBody (h : quotedBody cs = some (body, rest)) :
    cs = body ++ '"' :: rest ∧ ∃ text, Escapes body text := by
  fun_induction quotedBody cs generalizing body with
  | case1 => cases h
  | case2 rest' =>
    cases h
    exact ⟨rfl, [], .nil⟩
  | case3 c rest' ih =>
    obtain ⟨⟨body, after⟩, hb, he⟩ := Option.map_eq_some_iff.1 h
    cases he
    obtain ⟨rfl, text, ht⟩ := ih hb
    exact ⟨rfl, c :: text, .escaped ht⟩
  | case4 c rest' hq hb ih =>
    obtain ⟨⟨body, after⟩, hbody, he⟩ := Option.map_eq_some_iff.1 h
    cases he
    obtain ⟨rfl, text, ht⟩ := ih hbody
    -- A backslash here would be the last character, and then no quotation mark follows.
    have hne : c ≠ '\\' := by
      rintro rfl
      cases body with
      | nil => exact hb _ _ rfl rfl
      | cons d body => exact hb _ _ rfl rfl
    exact ⟨rfl, c :: text, .plain hne hq ht⟩

/-! ## Bare runs -/

theorem BareRun.extends (h : BareRun text rest) : Tokens.Extends [.bare text] (tokens rest) (tokens (text ++ rest)) :=
  extends_bare h.ne_nil h.start (fun c hc => isBareChar_eq_true.2 (h.inside c hc))
    fun c hc => isBareChar_eq_false.2 (h.longest c hc)

/-- What starts with another character than a delimiter or a semicolon starts with a
bare run. -/
theorem bareRun_takeWhile (hc : ¬ Delimiter c) (hs : c ≠ ';') (rest : List Char) :
    BareRun (c :: rest.takeWhile isBareChar) (rest.dropWhile isBareChar) where
  ne_nil := by simp
  start := by simpa using hs
  inside := by
    intro d hd
    rcases List.mem_cons.1 hd with rfl | hd
    · exact hc
    · exact isBareChar_eq_true.1 (List.all_eq_true.1 List.all_takeWhile d hd)
  longest := by
    intro d hd
    have h := List.head?_dropWhile_not isBareChar rest
    rw [Option.mem_def.1 hd] at h
    exact isBareChar_eq_false.1 h

theorem head_of_skip (cs : List Char) :
    (∀ c ∈ (skipGaps cs).head?, ¬ Space c ∧ c ≠ ';') ∧ ∀ c ∈ (skipComment cs).head?, ¬ Space c ∧ c ≠ ';' := by
  induction cs with
  | nil => simp [skipGaps, skipComment]
  | cons d cs ih =>
    rw [skipGaps, skipComment]
    constructor
    · split
      · exact ih.1
      · split
        · exact ih.2
        · rename_i hg hs
          simpa [← isGap_iff] using ⟨by simpa using hg, hs⟩
    · split
      · exact ih.1
      · exact ih.2

end

/-! ## Tokens -/

/-- What a token stands for. -/
inductive Token.Denotes : Token → Lexeme → Prop
  | opening : Denotes .opening .opening
  | closing : Denotes .closing .closing
  | string {body text : List Char} : unescape? body = some text → Denotes (.quoted body) (.string (String.ofList text))
  | number {text : List Char} : Text.Numeral text → Denotes (.bare text) (.number (String.ofList text))
  | symbol {text : List Char} : ¬ Text.Numeral text → Denotes (.bare text) (.symbol (String.ofList text))

theorem Token.Denotes.unique : Relator.RightUnique Token.Denotes := by
  intro t l l' h h'
  cases h with
  | string hb =>
    cases h' with
    | string hb' => rw [Option.some.inj (hb.symm.trans hb')]
  | number hn =>
    cases h' with
    | number => rfl
    | symbol hn' => exact absurd hn hn'
  | symbol hn =>
    cases h' with
    | number hn' => exact absurd hn' hn
    | symbol => rfl
  | _ =>
    cases h'
    rfl

section
variable {cs : List Char} {ls ls' : List Lexeme}

theorem Tokens.Extends.denotes {t : Token} {l : Lexeme} {a b : Tokens} (h : Tokens.Extends [t] a b) (ht : t.Denotes l)
    (ha : a.stop = [] ∧ List.Forall₂ Token.Denotes a.kinds ls) :
    b.stop = [] ∧ List.Forall₂ Token.Denotes b.kinds (l :: ls) := by
  rw [h.stop, h.kinds]
  exact ⟨ha.1, .cons ht ha.2⟩

/-- A text that is scanned to its end is cut into tokens for its lexemes. -/
theorem Scans.tokens (h : Scans cs ls) :
    (tokens cs).stop = [] ∧ List.Forall₂ Token.Denotes (tokens cs).kinds ls := by
  induction h with
  | done =>
    rw [tokens_nil]
    exact ⟨rfl, .nil⟩
  | space hc _ ih => rwa [tokens_cons_gap (isGap_iff.2 hc)]
  | comment hb hr _ ih => rwa [tokens_comment hb hr]
  | opening _ ih =>
    rw [tokens_opening (skipGaps_cons rfl (by decide) _)]
    exact (Tokens.Extends.cons ..).denotes .opening ih
  | closing _ ih =>
    rw [tokens_closing (skipGaps_cons rfl (by decide) _)]
    exact (Tokens.Extends.cons ..).denotes .closing ih
  | string hb _ ih =>
    rw [tokens_quoted (skipGaps_cons rfl (by decide) _) (hb.quotedBody_eq _)]
    exact (Tokens.Extends.cons ..).denotes (.string hb.unescape?_eq) ih
  | number hr hn _ ih => exact hr.extends.denotes (.number hn) ih
  | symbol hr hn _ ih => exact hr.extends.denotes (.symbol hn) ih

/-- A text that is cut into tokens up to its end is scanned as what they stand for. -/
theorem scans_of_tokens (hs : (tokens cs).stop = []) (h : List.Forall₂ Token.Denotes (tokens cs).kinds ls) :
    Scans cs ls := by
  refine (scans_of_skip cs).1 ?_
  induction cs using tokens.induct generalizing ls with
  | case1 cs hg =>
    rw [tokens_end hg] at h
    cases h
    rw [hg]
    exact .done
  | case2 cs rest hg _ ih =>
    rw [tokens_opening hg] at hs h
    obtain _ | ⟨⟨⟩, h⟩ := h
    rw [hg]
    exact .opening ((scans_of_skip rest).1 (ih hs h))
  | case3 cs rest hg _ ih =>
    rw [tokens_closing hg] at hs h
    obtain _ | ⟨⟨⟩, h⟩ := h
    rw [hg]
    exact .closing ((scans_of_skip rest).1 (ih hs h))
  | case4 cs rest hg hq =>
    -- What an open quotation mark leaves behind is no end, against `hs`.
    rw [tokens_unclosed hg hq] at hs
    cases hs
  | case5 cs rest hg body after hq _ _ ih =>
    rw [tokens_quoted hg hq] at hs h
    obtain _ | ⟨hl, h⟩ := h
    obtain ⟨rfl, text, hb⟩ := escapes_of_quotedBody hq
    cases hl with
    | string ht =>
      obtain rfl := Option.some.inj (hb.unescape?_eq.symm.trans ht)
      rw [hg]
      exact .string hb ((scans_of_skip after).1 (ih hs h))
  | case6 cs c rest h1 h2 h3 hg _ _ ih =>
    rw [tokens_bare hg h1 h2 h3] at hs h
    obtain _ | ⟨hl, h⟩ := h
    obtain ⟨hc, hsemi⟩ := (head_of_skip cs).1 c (by rw [hg]; rfl)
    -- The run starts with a character that is no delimiter and goes as far as it can.
    have hd : ¬ Delimiter c := by
      rintro (h | h | h | h)
      exacts [hc h, h1 h, h2 h, h3 h]
    have hrun := bareRun_takeWhile hd hsemi rest
    have hrest := (scans_of_skip _).1 (ih hs h)
    rw [hg, ← List.takeWhile_append_dropWhile (p := isBareChar) (l := rest), ← List.cons_append]
    cases hl with
    | number hn => exact .number hrun hn hrest
    | symbol hn => exact .symbol hrun hn hrest

theorem scans_iff : Scans cs ls ↔ (tokens cs).stop = [] ∧ List.Forall₂ Token.Denotes (tokens cs).kinds ls :=
  ⟨Scans.tokens, fun h => scans_of_tokens h.1 h.2⟩

/-- A text is scanned in one way only. -/
theorem Scans.unique (h : Scans cs ls) (h' : Scans cs ls') : ls = ls' :=
  List.right_unique_forall₂' Token.Denotes.unique h.tokens.2 h'.tokens.2

/-- Every token that a text is cut into stands for something. -/
theorem denotes_of_mem_tokens {t : Token} (h : t ∈ (tokens cs).kinds) : ∃ l, t.Denotes l := by
  have bare (text : List Char) : ∃ l, (Token.bare text).Denotes l := by
    by_cases hn : Text.Numeral text
    · exact ⟨_, .number hn⟩
    · exact ⟨_, .symbol hn⟩
  induction cs using tokens.induct with
  | case1 cs hg =>
    rw [tokens_end hg] at h
    cases h
  | case2 cs rest hg _ ih =>
    rw [tokens_opening hg, Tokens.kinds_cons, List.mem_cons] at h
    exact h.elim (fun e => e ▸ ⟨_, .opening⟩) ih
  | case3 cs rest hg _ ih =>
    rw [tokens_closing hg, Tokens.kinds_cons, List.mem_cons] at h
    exact h.elim (fun e => e ▸ ⟨_, .closing⟩) ih
  | case4 cs rest hg hq =>
    rw [tokens_unclosed hg hq] at h
    cases h
  | case5 cs rest hg body after hq _ _ ih =>
    rw [tokens_quoted hg hq, Tokens.kinds_cons, List.mem_cons] at h
    obtain ⟨-, text, hb⟩ := escapes_of_quotedBody hq
    exact h.elim (fun e => e ▸ ⟨_, .string hb.unescape?_eq⟩) ih
  | case6 cs c rest h1 h2 h3 hg _ _ ih =>
    rw [tokens_bare hg h1 h2 h3, Tokens.kinds_cons, List.mem_cons] at h
    exact h.elim (fun e => e ▸ bare _) ih

end

/-! ## Expressions of lexemes -/

theorem exists_append_of_forall₂ {ts : List Token} {ls ms : List Lexeme}
    (h : List.Forall₂ Token.Denotes ts (ls ++ ms)) :
    ∃ us vs, ts = us ++ vs ∧ List.Forall₂ Token.Denotes us ls ∧ List.Forall₂ Token.Denotes vs ms :=
  ⟨_, _, (List.take_append_drop ls.length ts).symm, List.forall₂_take_append _ _ _ h, List.forall₂_drop_append _ _ _ h⟩

mutual

/-- Tokens for the lexemes of an expression spell it. -/
theorem spelled_lexemes {us : List Token} {es : List SExpr} (hs : Spelled us es) :
    ∀ (e : SExpr) (ts : List Token), List.Forall₂ Token.Denotes ts e.lexemes → Spelled (ts ++ us) (e :: es)
  | .symbol s, _, h => by
    obtain _ | ⟨ht, ⟨⟩⟩ := h
    cases ht with
    | symbol hn =>
      have he : ofBare _ = symbol (String.ofList _) := if_neg (mt Text.isNumeral_iff.1 hn)
      exact he ▸ .bare hs
  | .string s, _, h => by
    obtain _ | ⟨ht, ⟨⟩⟩ := h
    cases ht with
    | string hb => exact .quoted hb hs
  | .number s, _, h => by
    obtain _ | ⟨ht, ⟨⟩⟩ := h
    cases ht with
    | number hn =>
      have he : ofBare _ = number (String.ofList _) := if_pos (Text.isNumeral_iff.2 hn)
      exact he ▸ .bare hs
  | .list items, _, h => by
    obtain _ | ⟨⟨⟩, h⟩ := h
    obtain ⟨inner, last, rfl, hi, hl⟩ := exists_append_of_forall₂ h
    obtain _ | ⟨⟨⟩, ⟨⟩⟩ := hl
    rw [List.cons_append, List.append_assoc, List.singleton_append]
    exact .list (spelled_itemLexemes items inner hi) hs

theorem spelled_itemLexemes :
    ∀ (es : List SExpr) (ts : List Token), List.Forall₂ Token.Denotes ts (itemLexemes es) → Spelled ts es
  | [], _, h => by
    cases h
    exact .nil
  | e :: es, _, h => by
    obtain ⟨us, vs, rfl, he, hes⟩ := exists_append_of_forall₂ h
    exact spelled_lexemes (spelled_itemLexemes es vs hes) e us he

end

/-! ## Assembly -/

/-- The lexemes of open lists, from the outermost to the innermost. -/
def openLexemes : List (List SExpr) → List Lexeme
  | [] => []
  | around :: outer => openLexemes outer ++ (itemLexemes around.reverse ++ [.opening])

/-- The lexemes that have gone into a nest. -/
def Nest.lexemes (n : Nest) : List Lexeme :=
  openLexemes n.outer ++ itemLexemes n.items.reverse

namespace Nest

variable {n m : Nest}

theorem lexemes_push (n : Nest) (e : SExpr) : (n.push e).lexemes = n.lexemes ++ e.lexemes := by
  simp [lexemes, push, itemLexemes_append, itemLexemes]

theorem lexemes_open (n : Nest) : n.open_.lexemes = n.lexemes ++ [.opening] := by
  simp [lexemes, open_, openLexemes, itemLexemes]

theorem lexemes_close (h : n.close? = some m) : m.lexemes = n.lexemes ++ [.closing] := by
  obtain ⟨items, outer⟩ := n
  cases outer with
  | nil => cases h
  | cons around outer =>
    cases h
    simp [lexemes, openLexemes, itemLexemes_append, itemLexemes, SExpr.lexemes]

end Nest

theorem unescape_eq_ok {body : List Char} {s : String} (h : unescape (String.ofList body) = .ok s) :
    (Token.quoted body).Denotes (.string s) := by
  rw [unescape, String.toList_ofList] at h
  split at h
  · rename_i text ht
    cases h
    exact .string ht
  · cases h

theorem denotes_ofBare (text : List Char) : ∃ l, (Token.bare text).Denotes l ∧ (ofBare text).lexemes = [l] := by
  rw [ofBare]
  split
  · rename_i h
    exact ⟨_, .number (Text.isNumeral_iff.1 h), rfl⟩
  · rename_i h
    exact ⟨_, .symbol (mt Text.isNumeral_iff.2 h), rfl⟩

/-- Assembly ends with expressions whose lexemes are those that had gone into the nest
and those that the tokens stand for. -/
theorem assemble_eq_ok {stop : List Char} {placed : List (Token × List Char)} {n : Nest} {es : List SExpr}
    (h : assemble stop placed n = .ok es) :
    stop = [] ∧ ∃ ls, List.Forall₂ Token.Denotes (placed.map Prod.fst) ls ∧ itemLexemes es = n.lexemes ++ ls := by
  fun_induction assemble stop placed n with
  | case1 n hn =>
    cases h
    obtain ⟨items, outer⟩ := n
    obtain ⟨rfl, rfl⟩ := hn
    exact ⟨rfl, [], .nil, by simp [Nest.lexemes, openLexemes]⟩
  | case2 => cases h
  | case3 here ts n ih =>
    obtain ⟨hs, ls, hl, he⟩ := ih h
    exact ⟨hs, _, .cons .opening hl, by rw [he, n.lexemes_open, List.append_assoc, List.singleton_append]⟩
  | case4 here ts n m hc ih =>
    obtain ⟨hs, ls, hl, he⟩ := ih h
    exact ⟨hs, _, .cons .closing hl, by rw [he, Nest.lexemes_close hc, List.append_assoc, List.singleton_append]⟩
  | case5 => cases h
  | case6 body here ts n s hu ih =>
    obtain ⟨hs, ls, hl, he⟩ := ih h
    exact ⟨hs, _, .cons (unescape_eq_ok hu) hl, by rw [he, n.lexemes_push, List.append_assoc]; rfl⟩
  | case7 => cases h
  | case8 text here ts n ih =>
    obtain ⟨hs, ls, hl, he⟩ := ih h
    obtain ⟨l, ht, hb⟩ := denotes_ofBare text
    exact ⟨hs, _, .cons ht hl, by rw [he, n.lexemes_push, hb, List.append_assoc, List.singleton_append]⟩

/-- Assembly of tokens that all stand for something fails at a place of the text. -/
theorem assemble_eq_error {stop : List Char} {placed : List (Token × List Char)} {n : Nest}
    {e : List Char × Expected ⊕ ReadError} (ht : ∀ t ∈ placed.map Prod.fst, ∃ l, t.Denotes l)
    (h : assemble stop placed n = .error e) : ∃ stopped, e = .inl stopped := by
  fun_induction assemble stop placed n with
  | case1 => cases h
  | case2 =>
    cases h
    exact ⟨_, rfl⟩
  | case3 here ts n ih => exact ih (List.forall_mem_cons.1 ht).2 h
  | case4 here ts n m hc ih => exact ih (List.forall_mem_cons.1 ht).2 h
  | case5 =>
    cases h
    exact ⟨_, rfl⟩
  | case6 body here ts n s hu ih => exact ih (List.forall_mem_cons.1 ht).2 h
  | case7 body here ts n e hu =>
    obtain ⟨l, hl⟩ := (List.forall_mem_cons.1 ht).1
    cases hl with
    | string hb => cases hu.symm.trans (unescape_of_some hb)
  | case8 text here ts n ih => exact ih (List.forall_mem_cons.1 ht).2 h

/-! ## Reading -/

theorem readChars_eq_ok {cs : List Char} {es : List SExpr} : readChars cs = .ok es ↔ Scans cs (itemLexemes es) := by
  rw [scans_iff]
  constructor
  · intro h
    rw [readChars] at h
    split at h
    · rename_i es' ha
      cases h
      obtain ⟨hs, ls, hl, he⟩ := assemble_eq_ok ha
      rw [he]
      exact ⟨hs, hl⟩
    · cases h
    · cases h
  · rintro ⟨hs, hl⟩
    exact readChars_spelled (spelled_itemLexemes es _ hl) hs

theorem readChars_eq_error {cs : List Char} {e : ReadError} (h : readChars cs = .error e) :
    ∃ place expected, e = .unreadable place expected := by
  rw [readChars] at h
  split at h
  · cases h
  · cases h
    exact ⟨_, _, rfl⟩
  · rename_i e' ha
    obtain ⟨stopped, hst⟩ := assemble_eq_error (fun t => denotes_of_mem_tokens) ha
    cases hst

/-- A text is read as expressions exactly if it is scanned as their lexemes. Any other
text is refused with the place at which reading stopped. -/
theorem read_of_grammar (text : String) :
    (∀ es, read text = .ok es ↔ Scans text.toList (itemLexemes es)) ∧
      ((∃ place expected, read text = .error (.unreadable place expected)) ↔
        ∀ es, ¬ Scans text.toList (itemLexemes es)) := by
  refine ⟨fun es => readChars_eq_ok, ?_⟩
  constructor
  · rintro ⟨place, expected, h⟩ es hs
    cases h.symm.trans (readChars_eq_ok.2 hs)
  · intro h
    cases hr : read text with
    | ok es => exact absurd (readChars_eq_ok.1 hr) (h es)
    | error e =>
      obtain ⟨place, expected, rfl⟩ := readChars_eq_error hr
      exact ⟨place, expected, rfl⟩

/-- A semicolon within a token, one after a string, and an escaped quotation mark. -/
example : read "(a;b \"x\\\"\";c)\n-0.5)" = .ok [list [symbol "a;b", string "x\"", number "-0.5"]] := by cbv

end AtomLines.SExpr
