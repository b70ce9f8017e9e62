/-!
# Quoted strings

Inside quotation marks a backslash precedes every quotation mark and every
backslash. Reading drops a backslash and takes whatever stands after it, so
`unescape` undoes `escape` and fails only on a text that ends within an escape.
-/

namespace AtomLines.SExpr

def escape : List Char → List Char
  | [] => []
  | c :: rest => if c = '\\' || c = '"' then '\\' :: c :: escape rest else c :: escape rest

def quote (cs : List Char) : List Char :=
  '"' :: (escape cs ++ ['"'])

/-- Nothing is returned for a text that ends in an escape without its character. -/
def unescape? : List Char → Option (List Char)
  | [] => some []
  | '\\' :: c :: rest => (unescape? rest).map (c :: ·)
  | c :: rest => if c = '\\' then none else (unescape? rest).map (c :: ·)

theorem unescape?_escape (cs : List Char) : unescape? (escape cs) = some cs := by
  induction cs with
  | nil => rfl
  | cons c rest ih =>
    by_cases h : c = '\\' ∨ c = '"'
    · simp [escape, h, unescape?, ih]
    · simp only [not_or] at h
      rw [escape, if_neg (by simp [h])]
      unfold unescape?
      split <;> simp_all

end AtomLines.SExpr
