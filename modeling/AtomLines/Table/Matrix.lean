import AtomLines.SExpr.Printer
import AtomLines.Text.Visible
/-!
# Tables

A table is a list of rows of strings, and each of eight layouts writes it as a
list of expressions. Five of the layouts take the first row as column names.
-/

namespace AtomLines.Table

abbrev Matrix := List (List String)

inductive Layout where
  | row
  | headerRow
  | column
  | columnHeader
  | struct
  | field
  | function
  | cell
deriving DecidableEq, Repr

namespace Layout

def all : List Layout :=
  [row, headerRow, column, columnHeader, struct, field, function, cell]

def name : Layout → String
  | row => "row"
  | headerRow => "header_row"
  | column => "column"
  | columnHeader => "column_header"
  | struct => "struct"
  | field => "field"
  | function => "function"
  | cell => "cell"

def ofName? (s : String) : Option Layout :=
  all.find? (·.name = s)

/-- The first row holds column names. -/
def usesHeader : Layout → Bool
  | row | column | cell => false
  | _ => true

end Layout

/-! ## What can be wrong with a table -/

/-- Why a line belongs to no table. -/
inductive RowFault where
  | itemCount (expected : Nat)
  | cellNotAtom
  | cellsNotList
  | notIndex (found : SExpr)
  | indexAgain (index : Nat)
  | indexGap (index expected : Nat)
  | headerAgain
  | columnAgain (name : String)
  | pairsNotList
  | otherColumns
  | cellAgain (row : Nat) (name : String)
  | notEquality
  | notValueCall
deriving DecidableEq, Repr

def RowFault.message : RowFault → String
  | itemCount expected => "expected a list of " ++ toString expected ++ " items"
  | cellNotAtom => "cell is not an atom"
  | cellsNotList => "expected a list of cells"
  | notIndex found => "expected an index, found " ++ found.text
  | indexAgain index => "index " ++ toString index ++ " appears more than once"
  | indexGap index expected =>
    "index " ++ toString index ++ " found where " ++ toString expected ++ " was expected"
  | headerAgain => "header appears more than once"
  | columnAgain name => "column " ++ Text.visible name ++ " appears more than once"
  | pairsNotList => "expected a list of (column value) pairs"
  | otherColumns => "columns differ from the first row"
  | cellAgain row name =>
    "cell (" ++ toString row ++ ", " ++ Text.visible name ++ ") appears more than once"
  | notEquality => "expected an (= (value …) …) atom"
  | notValueCall => "expected a (value …) call"

inductive TableError where
  | ragged (row expected found : Nat)
  | missingHeader
  /-- Lines are counted from one. -/
  | malformed (line : Nat) (fault : RowFault)
deriving DecidableEq, Repr

def TableError.message : TableError → String
  | ragged row expected found =>
    "Row " ++ toString row ++ " has " ++ toString found ++ " cells, expected " ++ toString expected
  | missingHeader => "Table has no header row"
  | malformed line fault => "Malformed row on line " ++ toString line ++ ": " ++ fault.message

/-! ## Shape -/

namespace Matrix

/-- The number of cells of the first row. -/
def width (m : Matrix) : Nat :=
  (m.head?.map List.length).getD 0

/-- The first row, counted from `next`, that has not `expected` cells. -/
def raggedFrom (expected next : Nat) : Matrix → Option TableError
  | [] => none
  | r :: rest =>
    if r.length = expected then raggedFrom expected (next + 1) rest
    else some (.ragged next expected r.length)

/-- Every row is as long as the first; returns that length. -/
def checkRectangular (m : Matrix) : Except TableError Nat :=
  match raggedFrom m.width 0 m with
  | none => .ok m.width
  | some e => .error e

/-- The cells at one place of each row. -/
def columnAt (j : Nat) (rows : Matrix) : List String :=
  rows.filterMap (·[j]?)

end Matrix

end AtomLines.Table
