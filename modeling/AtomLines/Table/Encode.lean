import AtomLines.Table.Matrix
/-!
# Writing tables

Cells and column names are written as strings, row and column numbers as
indices. A table is written only if all its rows are equally long.
-/

namespace AtomLines.Table

def cellList (cells : List String) : SExpr :=
  .list (cells.map .string)

def rowLine (next : Nat) (cells : List String) : SExpr :=
  .list [.ofIndex next, cellList cells]

/-- One line per row, counted from `next`. -/
def rowLines (next : Nat) : Matrix → List SExpr
  | [] => []
  | r :: rest => rowLine next r :: rowLines (next + 1) rest

def headerLine (header : List String) : SExpr :=
  .list [.symbol "header", cellList header]

def columnLines (m : Matrix) : List SExpr :=
  (List.range m.width).map fun j => rowLine j (m.columnAt j)

/-- A column under its name. -/
def namedColumn (rows : Matrix) (name : String) (j : Nat) : SExpr :=
  .list [.string name, cellList (rows.columnAt j)]

def columnHeaderLines (header : List String) (rows : Matrix) : List SExpr :=
  header.zipIdx.map fun (name, j) => namedColumn rows name j

def structLine (header row : List String) : SExpr :=
  .list ((header.zip row).map fun (name, value) => cellList [name, value])

def equality (address : SExpr) (value : String) : SExpr :=
  .list [.symbol "=", .list [.symbol "value", address], .string value]

def fieldLine (i : Nat) (name value : String) : SExpr :=
  .list [.ofIndex i, .string name, .string value]

def functionLine (i : Nat) (name value : String) : SExpr :=
  equality (.list [.string name, .ofIndex i]) value

def cellLine (r c : Nat) (value : String) : SExpr :=
  equality (.list [.ofIndex r, .ofIndex c]) value

/-- One line per cell of the rows below a header. -/
def labeledLines (line : Nat → String → String → SExpr) (header : List String) (rows : Matrix) :
    List SExpr :=
  rows.zipIdx.flatMap fun (row, i) => (header.zip row).map fun (name, value) => line i name value

def cellLines (m : Matrix) : List SExpr :=
  m.zipIdx.flatMap fun (row, r) => row.zipIdx.map fun (value, c) => cellLine r c value

/-- The lines of a table whose first row holds the column names. -/
def withHeader (m : Matrix) (lines : List String → Matrix → List SExpr) :
    Except TableError (List SExpr) :=
  match m with
  | [] => .error .missingHeader
  | header :: rows => .ok (lines header rows)

def encode (layout : Layout) (m : Matrix) : Except TableError (List SExpr) := do
  let _ ← m.checkRectangular
  match layout with
  | .row => return rowLines 0 m
  | .headerRow => withHeader m fun header rows => headerLine header :: rowLines 0 rows
  | .column => return columnLines m
  | .columnHeader => withHeader m columnHeaderLines
  | .struct => withHeader m fun header rows => rows.map (structLine header)
  | .field => withHeader m (labeledLines fieldLine)
  | .function => withHeader m (labeledLines functionLine)
  | .cell => return cellLines m

end AtomLines.Table
