import AtomLines.SExpr.Match
import AtomLines.Proofs.SExpr.Grammar
import Mathlib.Algebra.Ring.Parity
import Mathlib.Data.List.DropRight
/-!
# Trees of matches

Dropping backslashes fails exactly on a text that ends in an odd number of them. The
grammar admits no such text between quotation marks, and all matches that it puts into a
tree are of rules that stand for expressions. So a tree is always built into expressions,
and these are what its text is read as; a text that is refused has no tree.
-/

namespace AtomLines.SExpr

/-! ## Backslashes at the end -/

/-- The length of the run of backslashes that a text ends in. -/
def backslashesAtEnd (cs : List Char) : Nat :=
  (cs.rtakeWhile (· = '\\')).length

theorem backslashesAtEnd_le (cs : List Char) : backslashesAtEnd cs ≤ cs.length :=
  (List.rtakeWhile_suffix _ cs).length_le

/-- A first character counts if it is a backslash and only backslashes follow. -/
theorem backslashesAtEnd_cons (c : Char) (cs : List Char) :
    backslashesAtEnd (c :: cs) =
      if c = '\\' ∧ backslashesAtEnd cs = cs.length then backslashesAtEnd cs + 1 else backslashesAtEnd cs := by
  rw [backslashesAtEnd, backslashesAtEnd, List.rtakeWhile, List.rtakeWhile, List.reverse_cons, List.takeWhile_append]
  simp only [List.length_reverse]
  by_cases h : (cs.reverse.takeWhile (· = '\\')).length = cs.length
  · by_cases hc : c = '\\'
    · simp [h, hc]
    · simp [h, hc]
  · simp [h]

/-- A backslash and the character after it do not change whether the number is odd. -/
theorem odd_backslashesAtEnd_pair (c : Char) (cs : List Char) :
    Odd (backslashesAtEnd ('\\' :: c :: cs)) ↔ Odd (backslashesAtEnd cs) := by
  have hle := backslashesAtEnd_le cs
  rw [backslashesAtEnd_cons, backslashesAtEnd_cons, List.length_cons]
  by_cases h : c = '\\' ∧ backslashesAtEnd cs = cs.length
  · rw [if_pos h, if_pos ⟨rfl, congrArg (· + 1) h.2⟩, Nat.odd_add_one, Nat.not_odd_iff_even, Nat.even_add_one,
      Nat.not_even_iff_odd]
  · have hlt : ¬ backslashesAtEnd cs = cs.length + 1 := by omega
    rw [if_neg h, if_neg fun h' => hlt h'.2]

theorem unescape?_eq_none {cs : List Char} : unescape? cs = none ↔ Odd (backslashesAtEnd cs) := by
  fun_induction unescape? cs with
  | case1 => exact iff_of_false nofun Nat.not_odd_zero
  | case2 c rest ih => rw [Option.map_eq_none_iff, ih, odd_backslashesAtEnd_pair]
  | case3 rest h =>
    -- Nothing follows this backslash.
    have hr : rest = [] := by
      cases rest with
      | nil => rfl
      | cons c rest => exact absurd rfl (h c rest rfl)
    subst hr
    exact iff_of_true rfl odd_one
  | case4 c rest h hc ih => rw [Option.map_eq_none_iff, ih, backslashesAtEnd_cons, if_neg fun h => hc h.1]

theorem unescape_eq_error {text : String} {e : ReadError} :
    unescape text = .error e ↔ Odd (backslashesAtEnd text.toList) ∧ e = .danglingEscape text := by
  rw [← unescape?_eq_none, unescape]
  cases unescape? text.toList <;> simp [eq_comm]

/-! ## What the grammar admits -/

/-- What may stand between quotation marks: a backslash with any character after it, and
characters that are neither a backslash nor a quotation mark. -/
inductive Inner : List Char → Prop
  | nil : Inner []
  | pair {c : Char} {body : List Char} : Inner body → Inner ('\\' :: c :: body)
  | plain {c : Char} {body : List Char} : c ≠ '"' → c ≠ '\\' → Inner body → Inner (c :: body)

mutual

/-- What a text starts with, and what follows that. -/
inductive Matches : List Char → Match → List Char → Prop
  | list {text after rest : List Char} {ms : List Match} : MatchesAll (text ++ rest) ms after →
    skipGaps after = ')' :: rest → Matches ('(' :: (text ++ rest)) (.of .list ('(' :: text) ms) rest
  | string {body rest : List Char} : Inner body →
    Matches ('"' :: (body ++ '"' :: rest)) (.of .string ('"' :: (body ++ ['"'])) [.of .inner body []]) rest
  | atom {text rest : List Char} : text ≠ [] → (∀ c ∈ text, ¬ Delimiter c) → (∀ c ∈ rest.head?, Delimiter c) →
    Matches (text ++ rest) (.of .atom text []) rest

/-- Some matches one after the other, with gaps between them, and what follows. -/
inductive MatchesAll : List Char → List Match → List Char → Prop
  | nil {cs : List Char} : MatchesAll cs [] cs
  | cons {cs after rest : List Char} {m : Match} {ms : List Match} :
    Matches (skipGaps cs) m after → MatchesAll after ms rest → MatchesAll cs (m :: ms) rest

end

/-- The tree of a whole text. -/
inductive Document (cs : List Char) : Match → Prop
  | whole {after : List Char} {ms : List Match} : MatchesAll cs ms after → skipGaps after = [] →
    Document cs (.of .document cs (ms ++ [.of .endOfText [] []]))

/-! ## What is built of it -/

section
variable {cs body text rest : List Char} {l : Lexeme} {ls : List Lexeme} {m : Match} {ms : List Match}

theorem Inner.escapes (h : Inner body) : ∃ text, Escapes body text := by
  induction h with
  | nil => exact ⟨[], .nil⟩
  | pair _ ih =>
    obtain ⟨text, h⟩ := ih
    exact ⟨_, .escaped h⟩
  | plain hq hb _ ih =>
    obtain ⟨text, h⟩ := ih
    exact ⟨_, .plain hb hq h⟩

theorem Escapes.inner (h : Escapes body text) : Inner body := by
  induction h with
  | nil => exact .nil
  | escaped _ ih => exact .pair ih
  | plain hb hq _ ih => exact .plain hq hb ih

theorem build_list {es : List SExpr} (h : buildAll ms = .ok es) (text : List Char) :
    build (.of .list text ms) = .ok (list es) := by
  rw [build, h]
  rfl

theorem build_string (h : Escapes body text) (whole : List Char) :
    build (.of .string whole [.of .inner body []]) = .ok (string (String.ofList text)) := by
  have hu : unescape (String.ofList body) = .ok (String.ofList text) := unescape_of_some h.unescape?_eq
  show ((unescape (String.ofList body)).map string).mapError BuildError.inString = _
  rw [hu]
  rfl

theorem buildAll_cons {e : SExpr} {es : List SExpr} (h : build m = .ok e) (hs : buildAll ms = .ok es) :
    buildAll (m :: ms) = .ok (e :: es) := by
  rw [buildAll, h, hs]
  rfl

theorem Scans.atom (hr : BareRun text rest) (h : Scans rest ls) : Scans (text ++ rest) ((ofBare text).lexemes ++ ls) := by
  rw [ofBare]
  split
  · rename_i hn
    exact .number hr (Text.isNumeral_iff.1 hn) h
  · rename_i hn
    exact .symbol hr (mt Text.isNumeral_iff.2 hn) h

mutual

/-- A match is built into an expression, and scanning the text gives its lexemes. -/
theorem Matches.builds : ∀ {cs rest : List Char} {m : Match}, Matches cs m rest → cs.head? ≠ some ';' →
    ∃ e, build m = .ok e ∧ ∀ ls, Scans rest ls → Scans cs (e.lexemes ++ ls)
  | _, _, _, .list hms hclose, _ => by
    obtain ⟨es, hb, hscan⟩ := hms.builds
    refine ⟨list es, build_list hb _, fun ls h => ?_⟩
    rw [lexemes, List.cons_append, List.append_assoc, List.singleton_append]
    refine .opening (hscan _ ((scans_of_skip _).1 ?_))
    rw [hclose]
    exact .closing h
  | _, _, _, .string hi, _ => by
    obtain ⟨text, ht⟩ := hi.escapes
    exact ⟨_, build_string ht _, fun ls h => .string ht h⟩
  | _, _, _, @Matches.atom text _ hn hin hend, hstart => by
    have hs : text.head? ≠ some ';' := by
      cases text with
      | nil => exact absurd rfl hn
      | cons c text => exact hstart
    exact ⟨_, by rw [build], fun ls h => .atom ⟨hn, hs, hin, hend⟩ h⟩

theorem MatchesAll.builds : ∀ {cs rest : List Char} {ms : List Match}, MatchesAll cs ms rest →
    ∃ es, buildAll ms = .ok es ∧ ∀ ls, Scans rest ls → Scans cs (itemLexemes es ++ ls)
  | _, _, _, .nil => ⟨[], by rw [buildAll], fun _ h => h⟩
  | cs, _, _, .cons hm hms => by
    have hstart : (skipGaps cs).head? ≠ some ';' := fun h => ((head_of_skip cs).1 _ h).2 rfl
    obtain ⟨e, he, hscan⟩ := hm.builds hstart
    obtain ⟨es, hes, hscans⟩ := hms.builds
    refine ⟨e :: es, buildAll_cons he hes, fun ls h => (scans_of_skip cs).1 ?_⟩
    rw [itemLexemes, List.append_assoc]
    exact hscan _ (hscans ls h)

end

/-! ## What is read has a tree -/

/-- What a text that may start a token starts with, as a lexeme. -/
inductive Starts : List Char → Lexeme → List Char → Prop
  | opening {rest : List Char} : Starts ('(' :: rest) .opening rest
  | closing {rest : List Char} : Starts (')' :: rest) .closing rest
  | string {body text rest : List Char} : Escapes body text →
    Starts ('"' :: (body ++ '"' :: rest)) (.string (String.ofList text)) rest
  | number {text rest : List Char} : BareRun text rest → Text.Numeral text →
    Starts (text ++ rest) (.number (String.ofList text)) rest
  | symbol {text rest : List Char} : BareRun text rest → ¬ Text.Numeral text →
    Starts (text ++ rest) (.symbol (String.ofList text)) rest

theorem Starts.opening_eq (h : Starts cs .opening rest) : cs = '(' :: rest := by
  cases h
  rfl

theorem Starts.closing_eq (h : Starts cs .closing rest) : cs = ')' :: rest := by
  cases h
  rfl

theorem BareRun.skipGaps_eq (h : BareRun text rest) : skipGaps (text ++ rest) = text ++ rest := by
  obtain ⟨c, text, rfl⟩ := List.exists_cons_of_ne_nil h.ne_nil
  have hg := (isBareChar_iff.1 (isBareChar_eq_true.2 (h.inside c List.mem_cons_self))).1
  exact skipGaps_cons hg (by simpa using h.start) _

theorem skipGaps_comment (h : '\n' ∉ body) (hr : ∀ c ∈ rest.head?, c = '\n') :
    skipGaps (';' :: (body ++ rest)) = skipGaps rest := by
  rw [skipGaps, if_neg (by decide), if_pos rfl, skipComment_append h, skipComment_of_ended hr]

theorem Scans.skipGaps_eq_nil (h : Scans cs []) : skipGaps cs = [] := by
  generalize hl : ([] : List Lexeme) = ls at h
  induction h with
  | done => rw [skipGaps]
  | space hc _ ih => rw [skipGaps_cons_gap (isGap_iff.2 hc), ih hl]
  | comment hb hr _ ih => rw [skipGaps_comment hb hr, ih hl]
  | _ => cases hl

/-- Behind the gaps stands the first lexeme. -/
theorem Scans.starts (h : Scans cs (l :: ls)) : ∃ rest, Starts (skipGaps cs) l rest ∧ Scans rest ls := by
  generalize hl : l :: ls = all at h
  induction h with
  | done => cases hl
  | space hc _ ih =>
    rw [skipGaps_cons_gap (isGap_iff.2 hc)]
    exact ih hl
  | comment hb hr _ ih =>
    rw [skipGaps_comment hb hr]
    exact ih hl
  | opening h =>
    cases hl
    rw [skipGaps_cons rfl (by decide)]
    exact ⟨_, .opening, h⟩
  | closing h =>
    cases hl
    rw [skipGaps_cons rfl (by decide)]
    exact ⟨_, .closing, h⟩
  | string hb h =>
    cases hl
    rw [skipGaps_cons rfl (by decide)]
    exact ⟨_, .string hb, h⟩
  | number hr hn h =>
    cases hl
    rw [hr.skipGaps_eq]
    exact ⟨_, .number hr hn, h⟩
  | symbol hr hn h =>
    cases hl
    rw [hr.skipGaps_eq]
    exact ⟨_, .symbol hr hn, h⟩

theorem skip_suffix (cs : List Char) : skipGaps cs <:+ cs ∧ skipComment cs <:+ cs := by
  induction cs with
  | nil => simp [skipGaps, skipComment]
  | cons c cs ih =>
    rw [skipGaps, skipComment]
    constructor
    · split
      · exact ih.1.trans (List.suffix_cons c cs)
      · split
        · exact ih.2.trans (List.suffix_cons c cs)
        · exact List.suffix_rfl
    · split
      · exact ih.1.trans (List.suffix_cons c cs)
      · exact ih.2.trans (List.suffix_cons c cs)

mutual

theorem Matches.suffix : ∀ {cs rest : List Char} {m : Match}, Matches cs m rest → rest <:+ cs
  | _, _, _, @Matches.list text _ _ _ _ _ => (List.suffix_append text _).trans (List.suffix_cons _ _)
  | _, _, _, @Matches.string body _ _ =>
    ((List.suffix_cons _ _).trans (List.suffix_append body _)).trans (List.suffix_cons _ _)
  | _, _, _, @Matches.atom text _ _ _ _ => List.suffix_append text _

theorem MatchesAll.suffix : ∀ {cs rest : List Char} {ms : List Match}, MatchesAll cs ms rest → rest <:+ cs
  | _, _, _, .nil => List.suffix_rfl
  | cs, _, _, .cons hm hms => (hms.suffix.trans hm.suffix).trans (skip_suffix cs).1

end

mutual

/-- What is scanned as the lexemes of an expression starts with a match that is built
into it. -/
theorem exists_matches : ∀ (e : SExpr) {cs : List Char} {ls : List Lexeme}, Scans cs (e.lexemes ++ ls) →
    ∃ m rest, Matches (skipGaps cs) m rest ∧ build m = .ok e ∧ Scans rest ls
  | .symbol s, cs, ls, h => by
    obtain ⟨rest, hs, hrest⟩ := Scans.starts (l := .symbol s) h
    generalize skipGaps cs = front at hs ⊢
    cases hs with
    | symbol hr hn =>
      have hb : ofBare _ = symbol (String.ofList _) := if_neg (mt Text.isNumeral_iff.1 hn)
      exact ⟨_, rest, .atom hr.ne_nil hr.inside hr.longest, by rw [build, hb], hrest⟩
  | .string s, cs, ls, h => by
    obtain ⟨rest, hs, hrest⟩ := Scans.starts (l := .string s) h
    generalize skipGaps cs = front at hs ⊢
    cases hs with
    | string ht => exact ⟨_, rest, .string ht.inner, build_string ht _, hrest⟩
  | .number s, cs, ls, h => by
    obtain ⟨rest, hs, hrest⟩ := Scans.starts (l := .number s) h
    generalize skipGaps cs = front at hs ⊢
    cases hs with
    | number hr hn =>
      have hb : ofBare _ = number (String.ofList _) := if_pos (Text.isNumeral_iff.2 hn)
      exact ⟨_, rest, .atom hr.ne_nil hr.inside hr.longest, by rw [build, hb], hrest⟩
  | .list items, cs, ls, h => by
    rw [lexemes, List.cons_append, List.append_assoc, List.singleton_append] at h
    obtain ⟨inner, hopen, hitems⟩ := h.starts
    obtain ⟨ms, after, hms, hb, hafter⟩ := exists_matchesAll items hitems
    obtain ⟨rest, hclose, hrest⟩ := hafter.starts
    -- What follows the closing parenthesis is a suffix of what follows the opening one, and the
    -- text of the list is what lies between.
    have hsuffix : rest <:+ inner :=
      ((List.suffix_cons ')' rest).trans (hclose.closing_eq ▸ (skip_suffix after).1)).trans hms.suffix
    obtain ⟨text, rfl⟩ := hsuffix
    rw [hopen.opening_eq]
    exact ⟨_, rest, .list hms hclose.closing_eq, build_list hb _, hrest⟩

theorem exists_matchesAll : ∀ (es : List SExpr) {cs : List Char} {ls : List Lexeme}, Scans cs (itemLexemes es ++ ls) →
    ∃ ms rest, MatchesAll cs ms rest ∧ buildAll ms = .ok es ∧ Scans rest ls
  | [], cs, ls, h => ⟨[], cs, .nil, by rw [buildAll], h⟩
  | e :: es, cs, ls, h => by
    rw [itemLexemes, List.append_assoc] at h
    obtain ⟨m, after, hm, hb, hrest⟩ := exists_matches e h
    obtain ⟨ms, rest, hms, hbs, hrest⟩ := exists_matchesAll es hrest
    exact ⟨m :: ms, rest, .cons hm hms, buildAll_cons hb hbs, hrest⟩

end

/-! ## Whole texts -/

theorem Matches.rule_ne (h : Matches cs m rest) : m.rule ≠ .endOfText := by
  cases h <;> simp [Match.rule]

theorem MatchesAll.rule_ne (h : MatchesAll cs ms rest) : ∀ m ∈ ms, m.rule ≠ .endOfText := by
  induction ms generalizing cs with
  | nil => simp
  | cons m ms ih =>
    cases h with
    | cons hm hms => exact List.forall_mem_cons.2 ⟨hm.rule_ne, ih hms⟩

theorem MatchesAll.buildDocument_eq (h : MatchesAll cs ms rest) (text : List Char) :
    buildDocument (.of .document text (ms ++ [.of .endOfText [] []])) = buildAll ms := by
  have hkeep : ms.filter (·.rule ≠ .endOfText) = ms :=
    List.filter_eq_self.2 fun m hm => by simpa using h.rule_ne m hm
  rw [buildDocument, Match.inside, List.filter_append, hkeep]
  simp [Match.rule]

/-- A tree is built into expressions, and its text is scanned as their lexemes. -/
theorem Document.builds (h : Document cs m) : ∃ es, buildDocument m = .ok es ∧ Scans cs (itemLexemes es) := by
  cases h with
  | whole hms hend =>
    obtain ⟨es, hb, hscan⟩ := hms.builds
    refine ⟨es, by rw [hms.buildDocument_eq, hb], ?_⟩
    rw [← List.append_nil (itemLexemes es)]
    refine hscan [] ((scans_of_skip _).1 ?_)
    rw [hend]
    exact .done

theorem exists_document {es : List SExpr} (h : Scans cs (itemLexemes es)) :
    ∃ m, Document cs m ∧ buildDocument m = .ok es := by
  rw [← List.append_nil (itemLexemes es)] at h
  obtain ⟨ms, rest, hms, hb, hrest⟩ := exists_matchesAll es h
  exact ⟨_, .whole hms hrest.skipGaps_eq_nil, by rw [hms.buildDocument_eq, hb]⟩

end

/-! ## Reading -/

/-- An excerpt starts with its margin and an arrow. -/
theorem excerpt_eq (place : Text.Place) (expected : String) :
    ∃ n more, place.excerpt expected = String.ofList (List.replicate n ' ') ++ ("--> " ++ more) := by
  unfold Text.Place.excerpt
  refine ⟨(toString place.line).length, ?_⟩
  dsimp only
  simp only [String.append_assoc]
  exact ⟨_, rfl⟩

/-- The message about a place is not that about a match of an unexpected rule. -/
theorem message_ne_unexpected (place : Text.Place) (expected : Expected) (rule : Rule) :
    (ReadError.unreadable place expected).message ≠ (BuildError.unexpected rule).message := by
  intro h
  have hm : (BuildError.unexpected rule).message = "Parse error: " ++ ("unexpected token " ++ rule.name) := by
    rw [← String.append_assoc]
    rfl
  have he : place.excerpt expected.phrase = "unexpected token " ++ rule.name :=
    (String.append_right_inj _).1 (h.trans hm)
  obtain ⟨n, more, hx⟩ := excerpt_eq place expected.phrase
  have hhead := congrArg (fun s => s.toList.head?) (hx.symm.trans he)
  cases n <;> simp [List.replicate_succ] at hhead

/-- What is read is what a tree of the text is built into. -/
theorem read_eq_ok_iff_built {text : String} {es : List SExpr} :
    read text = .ok es ↔ ∃ m, Document text.toList m ∧ buildDocument m = .ok es := by
  rw [read, readChars_eq_ok]
  constructor
  · exact exists_document
  · rintro ⟨m, hm, hb⟩
    obtain ⟨es', hb', hscan⟩ := hm.builds
    cases hb.symm.trans hb'
    exact hscan

/-- Dropping backslashes fails exactly on a text that ends in an odd number of them, and
no reading fails so. A text is read as what a tree of it is built into, every tree is
built into something, and a text without a tree is refused with a place in it. -/
theorem escapes_never_dangle (text : String) :
    ((∃ e, unescape text = .error e) ↔ Odd (backslashesAtEnd text.toList)) ∧
      (∀ m, Document text.toList m → ∃ es, buildDocument m = .ok es) ∧
      (∀ es, read text = .ok es ↔ ∃ m, Document text.toList m ∧ buildDocument m = .ok es) ∧
      ∀ e, read text = .error e →
        (∀ body, e ≠ .danglingEscape body) ∧ ∀ rule, e.message ≠ (BuildError.unexpected rule).message := by
  refine ⟨?_, fun m hm => ?_, fun es => read_eq_ok_iff_built, fun e he => ?_⟩
  · simp only [unescape_eq_error, exists_and_left, exists_eq, and_true]
  · obtain ⟨es, hb, -⟩ := hm.builds
    exact ⟨es, hb⟩
  · obtain ⟨place, expected, rfl⟩ := readChars_eq_error he
    exact ⟨nofun, message_ne_unexpected place expected⟩

example : read "(\"\\\\\" \"\\\"\")" = .ok [.list [.string "\\", .string "\""]] := by cbv

end AtomLines.SExpr
