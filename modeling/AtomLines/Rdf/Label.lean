/-!
# Labels and variable names

Blank node labels and variable names follow the name rules of Turtle and of
query languages. A label or a name is its text together with the fact that the
rule holds for it.
-/

namespace AtomLines.Rdf

/-- The letters that may start a name. -/
def isNameBase (c : Char) : Bool :=
  let n := c.toNat
  c.isAlpha ||
    (0xC0 ≤ n && n ≤ 0xD6) || (0xD8 ≤ n && n ≤ 0xF6) || (0xF8 ≤ n && n ≤ 0x2FF) ||
    (0x370 ≤ n && n ≤ 0x37D) || (0x37F ≤ n && n ≤ 0x1FFF) || (0x200C ≤ n && n ≤ 0x200D) ||
    (0x2070 ≤ n && n ≤ 0x218F) || (0x2C00 ≤ n && n ≤ 0x2FEF) || (0x3001 ≤ n && n ≤ 0xD7FF) ||
    (0xF900 ≤ n && n ≤ 0xFDCF) || (0xFDF0 ≤ n && n ≤ 0xFFFD) || (0x10000 ≤ n && n ≤ 0xEFFFF)

/-- Middle dot, combining marks and ties: allowed inside a name. -/
def isNameMark (c : Char) : Bool :=
  let n := c.toNat
  n = 0xB7 || (0x300 ≤ n && n ≤ 0x36F) || (0x203F ≤ n && n ≤ 0x2040)

def isLabelStart (c : Char) : Bool :=
  c.isDigit || c = '_' || c = ':' || isNameBase c

def isLabelChar (c : Char) : Bool :=
  isLabelStart c || c = '-' || c = '.' || isNameMark c

/-- Not empty, and not ended by a point. -/
def isLabel : List Char → Bool
  | [] => false
  | c :: rest => isLabelStart c && rest.all isLabelChar && rest.getLast? ≠ some '.'

def isVariableChar (c : Char) : Bool :=
  c.isDigit || c = '_' || isNameBase c || isNameMark c

def isVariableName : List Char → Bool
  | [] => false
  | c :: rest => isLabelStart c && rest.all isVariableChar

/-! ## Labels as values -/

structure BlankLabel where
  text : String
  valid : isLabel text.toList = true
deriving DecidableEq

def BlankLabel.ofString? (s : String) : Option BlankLabel :=
  if h : isLabel s.toList = true then some ⟨s, h⟩ else none

theorem BlankLabel.ofString?_text (l : BlankLabel) : ofString? l.text = some l := by
  simp [ofString?, l.valid]

structure VariableName where
  text : String
  valid : isVariableName text.toList = true
deriving DecidableEq

def VariableName.ofString? (s : String) : Option VariableName :=
  if h : isVariableName s.toList = true then some ⟨s, h⟩ else none

theorem VariableName.ofString?_text (v : VariableName) : ofString? v.text = some v := by
  simp [ofString?, v.valid]

end AtomLines.Rdf
