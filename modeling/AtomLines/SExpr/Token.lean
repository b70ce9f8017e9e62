import AtomLines.Text.Blank
/-!
# Tokens

A text is cut into parentheses, quoted strings and bare runs of characters.
White space and comments are skipped wherever a token could start; a comment
runs from `;` up to the next line feed. Cutting stops at the end of the text or
at a quotation mark that is never closed.
-/

namespace AtomLines.SExpr

inductive Token where
  | opening
  | closing
  | quoted (body : List Char)
  | bare (text : List Char)
deriving DecidableEq, Repr

/-- The characters of a bare token. -/
def isBareChar (c : Char) : Bool :=
  !(Text.isGap c || c = '(' || c = ')' || c = '"')

/-- The body of a quoted string, still escaped, and what follows its closing
quotation mark. -/
def quotedBody : List Char → Option (List Char × List Char)
  | [] => none
  | '"' :: rest => some ([], rest)
  | '\\' :: c :: rest => (quotedBody rest).map fun (body, after) => ('\\' :: c :: body, after)
  | c :: rest => (quotedBody rest).map fun (body, after) => (c :: body, after)

mutual

/-- Drops white space and comments. -/
def skipGaps : List Char → List Char
  | [] => []
  | c :: rest =>
    if Text.isGap c then skipGaps rest
    else if c = ';' then skipComment rest
    else c :: rest

/-- Drops the rest of a comment, and then white space and comments. -/
def skipComment : List Char → List Char
  | [] => []
  | c :: rest => if c = '\n' then skipGaps rest else skipComment rest

end

/-! ## One token shortens the text -/

theorem length_quotedBody {cs body rest : List Char} (h : quotedBody cs = some (body, rest)) :
    rest.length < cs.length := by
  fun_induction quotedBody cs generalizing body rest with
  | case1 => simp at h
  | case2 => simp_all
  | case3 c rest' ih =>
    obtain ⟨⟨b, a⟩, hb, he⟩ := Option.map_eq_some_iff.1 h
    simp only [Prod.mk.injEq] at he
    have := ih hb
    simp only [List.length_cons, ← he.2]
    omega
  | case4 c rest' _ _ ih =>
    obtain ⟨⟨b, a⟩, hb, he⟩ := Option.map_eq_some_iff.1 h
    simp only [Prod.mk.injEq] at he
    have := ih hb
    simp only [List.length_cons, ← he.2]
    omega

theorem length_skip_le (cs : List Char) :
    (skipGaps cs).length ≤ cs.length ∧ (skipComment cs).length ≤ cs.length := by
  induction cs with
  | nil => simp [skipGaps, skipComment]
  | cons c rest ih =>
    simp only [skipGaps, skipComment]
    constructor
    · split
      · exact Nat.le_succ_of_le ih.1
      · split
        · exact Nat.le_succ_of_le ih.2
        · exact Nat.le_refl _
    · split
      · exact Nat.le_succ_of_le ih.1
      · exact Nat.le_succ_of_le ih.2

theorem length_lt_of_skipGaps {cs rest : List Char} {c : Char} (h : skipGaps cs = c :: rest) :
    rest.length < cs.length := by
  have := (length_skip_le cs).1
  rw [h, List.length_cons] at this
  omega

theorem length_dropWhile_le (p : Char → Bool) (cs : List Char) : (cs.dropWhile p).length ≤ cs.length :=
  (List.dropWhile_sublist p).length_le

/-! ## All tokens -/

/-- The tokens of a text, each with the text that starts at it, and the text at
which cutting stopped: nothing, or one that starts with an open quote. -/
structure Tokens where
  placed : List (Token × List Char)
  stop : List Char
deriving DecidableEq, Repr

def Tokens.cons (t : Token) (at_ : List Char) (ts : Tokens) : Tokens :=
  { ts with placed := (t, at_) :: ts.placed }

def tokens (cs : List Char) : Tokens :=
  match h : skipGaps cs with
  | [] => ⟨[], []⟩
  | '(' :: rest =>
    have := length_lt_of_skipGaps h
    (tokens rest).cons .opening ('(' :: rest)
  | ')' :: rest =>
    have := length_lt_of_skipGaps h
    (tokens rest).cons .closing (')' :: rest)
  | '"' :: rest =>
    match h' : quotedBody rest with
    | none => ⟨[], '"' :: rest⟩
    | some (body, after) =>
      have := length_lt_of_skipGaps h
      have := length_quotedBody h'
      (tokens after).cons (.quoted body) ('"' :: rest)
  | c :: rest =>
    have := length_lt_of_skipGaps h
    have := length_dropWhile_le isBareChar rest
    (tokens (rest.dropWhile isBareChar)).cons (.bare (c :: rest.takeWhile isBareChar)) (c :: rest)
termination_by cs.length

end AtomLines.SExpr
