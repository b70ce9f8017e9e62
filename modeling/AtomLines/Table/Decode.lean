import AtomLines.Keyed
import AtomLines.Table.Matrix
/-!
# Reading tables

Lines come in any order where they carry indices; the indices have to count up
from zero without gap or repetition. Cells and names may be spelled as any atom.
-/

namespace AtomLines.Table

/-! ## Parts of a line -/

/-- Lines with their numbers, counted from one. -/
def numbered (lines : List SExpr) : List (SExpr × Nat) :=
  lines.zipIdx 1

def pair (line : Nat) (e : SExpr) : Except TableError (SExpr × SExpr) :=
  match e with
  | .list [a, b] => .ok (a, b)
  | _ => .error (.malformed line (.itemCount 2))

def triple (line : Nat) (e : SExpr) : Except TableError (SExpr × SExpr × SExpr) :=
  match e with
  | .list [a, b, c] => .ok (a, b, c)
  | _ => .error (.malformed line (.itemCount 3))

def cell (line : Nat) (e : SExpr) : Except TableError String :=
  match e.name? with
  | some s => .ok s
  | none => .error (.malformed line .cellNotAtom)

def cells (line : Nat) (e : SExpr) : Except TableError (List String) :=
  match e with
  | .list items => items.mapM (cell line)
  | _ => .error (.malformed line .cellsNotList)

def index (line : Nat) (e : SExpr) : Except TableError Nat :=
  match e.index? with
  | some i => .ok i
  | none => .error (.malformed line (.notIndex e))

/-- The two parts of the address and the value of an equality. -/
def equalityParts (line : Nat) (e : SExpr) : Except TableError (SExpr × SExpr × String) := do
  let (head, call, value) ← triple line e
  if head ≠ .symbol "=" then .error (.malformed line .notEquality) else
    let (head, address) ← pair line call
    if head ≠ .symbol "value" then .error (.malformed line .notValueCall) else
      let (a, b) ← pair line address
      return (a, b, ← cell line value)

/-! ## Entries by index -/

/-- Entries by ascending index, each with the line that brought it first. -/
abbrev Indexed (α : Type) := List (Nat × Nat × α)

namespace Indexed

variable {α : Type}

/-- A new entry; its index must not be taken. -/
def insert (i line : Nat) (a : α) (entries : Indexed α) : Except TableError (Indexed α) :=
  match Keyed.get? i entries with
  | some _ => .error (.malformed line (.indexAgain i))
  | none => .ok (Keyed.putIndex i (line, a) entries)

/-- The entries whose indices count up from `expected`. -/
def toListFrom (expected : Nat) : Indexed α → Except TableError (List α)
  | [] => .ok []
  | (i, line, a) :: rest =>
    if i = expected then (toListFrom (expected + 1) rest).map (a :: ·)
    else .error (.malformed line (.indexGap i expected))

def toList (entries : Indexed α) : Except TableError (List α) :=
  toListFrom 0 entries

end Indexed

/-! ## Rows and columns -/

def rectangular (m : Matrix) : Except TableError Matrix := do
  let _ ← m.checkRectangular
  return m

/-- The rows of a table that is given by its columns, all equally long. -/
def ofColumns (columns : Matrix) : Except TableError Matrix := do
  let height ← columns.checkRectangular
  return (List.range height).map columns.columnAt

def addRow (rows : Indexed (List String)) : SExpr × Nat → Except TableError (Indexed (List String))
  | (e, line) => do
    let (i, cs) ← pair line e
    let i ← index line i
    let cs ← cells line cs
    rows.insert i line cs

/-- Lines of an index and a list of cells, by ascending index. -/
def indexedCells (lines : List SExpr) : Except TableError Matrix := do
  let rows ← (numbered lines).foldlM addRow []
  rows.toList

def decodeRow (lines : List SExpr) : Except TableError Matrix := do
  rectangular (← indexedCells lines)

def decodeColumn (lines : List SExpr) : Except TableError Matrix := do
  ofColumns (← indexedCells lines)

structure HeaderRows where
  header : Option (List String)
  rows : Indexed (List String)

def HeaderRows.add (t : HeaderRows) : SExpr × Nat → Except TableError HeaderRows
  | (e, line) => do
    let (head, row) ← pair line e
    let row ← cells line row
    if head = .symbol "header" then
      if t.header.isSome then .error (.malformed line .headerAgain) else return { t with header := some row }
    else
      let i ← index line head
      return { t with rows := ← t.rows.insert i line row }

def decodeHeaderRow (lines : List SExpr) : Except TableError Matrix := do
  let t ← (numbered lines).foldlM HeaderRows.add ⟨none, []⟩
  match t.header with
  | none => .error .missingHeader
  | some header => rectangular (header :: (← t.rows.toList))

/-- A column with its name as the first cell, after columns of other names. -/
def addColumn (columns : Matrix) : SExpr × Nat → Except TableError Matrix
  | (e, line) => do
    let (name, column) ← pair line e
    let name ← cell line name
    let column ← cells line column
    if columns.any (·.head? = some name) then .error (.malformed line (.columnAgain name))
    else return columns ++ [name :: column]

def decodeColumnHeader (lines : List SExpr) : Except TableError Matrix := do
  if lines = [] then .error .missingHeader else
    ofColumns (← (numbered lines).foldlM addColumn [])

/-! ## Named cells -/

def namedCell (line : Nat) (e : SExpr) : Except TableError (String × String) := do
  let (name, value) ← pair line e
  return (← cell line name, ← cell line value)

/-- A row after the table's first, which gives the column names. -/
def addStruct (m : Matrix) : SExpr × Nat → Except TableError Matrix
  | (.list items, line) => do
    let named ← items.mapM (namedCell line)
    let names := named.map Prod.fst
    let row := named.map Prod.snd
    match m with
    | [] => return [names, row]
    | header :: rows =>
      if header = names then return header :: (rows ++ [row]) else .error (.malformed line .otherColumns)
  | (_, line) => .error (.malformed line .pairsNotList)

def decodeStruct (lines : List SExpr) : Except TableError Matrix := do
  match ← (numbered lines).foldlM addStruct [] with
  | [] => .error .missingHeader
  | m => return m

/-- Cells by row and column name; the names in the order of their first use. -/
structure Labeled where
  header : List String
  rows : Indexed (List (String × String))

namespace Labeled

def empty : Labeled := ⟨[], []⟩

def insert (row : Nat) (name value : String) (line : Nat) (t : Labeled) : Except TableError Labeled :=
  let header := if name ∈ t.header then t.header else t.header ++ [name]
  let (first, known) := (Keyed.get? row t.rows).getD (line, [])
  match Keyed.get? name known with
  | some _ => .error (.malformed line (.cellAgain row name))
  | none => .ok ⟨header, Keyed.putIndex row (first, known ++ [(name, value)]) t.rows⟩

/-- A row has a cell for each column name. -/
def rowOf (header : List String) (i : Nat) (known : List (String × String)) :
    Except TableError (List String) :=
  match header.mapM (Keyed.get? · known) with
  | some row => .ok row
  | none => .error (.ragged (i + 1) header.length known.length)

def finish (t : Labeled) : Except TableError Matrix := do
  if t.header = [] then .error .missingHeader else
    let rows ← t.rows.toList
    let rows ← rows.zipIdx.mapM fun (known, i) => rowOf t.header i known
    return t.header :: rows

end Labeled

def addField (t : Labeled) : SExpr × Nat → Except TableError Labeled
  | (e, line) => do
    let (i, name, value) ← triple line e
    let i ← index line i
    let name ← cell line name
    let value ← cell line value
    t.insert i name value line

def decodeField (lines : List SExpr) : Except TableError Matrix := do
  let t ← (numbered lines).foldlM addField .empty
  t.finish

def addFunction (t : Labeled) : SExpr × Nat → Except TableError Labeled
  | (e, line) => do
    let (name, i, value) ← equalityParts line e
    let i ← index line i
    let name ← cell line name
    t.insert i name value line

def decodeFunction (lines : List SExpr) : Except TableError Matrix := do
  let t ← (numbered lines).foldlM addFunction .empty
  t.finish

/-! ## Numbered cells -/

def addCell (rows : Indexed (Indexed String)) :
    SExpr × Nat → Except TableError (Indexed (Indexed String))
  | (e, line) => do
    let (r, c, value) ← equalityParts line e
    let r ← index line r
    let c ← index line c
    let (first, row) := (Keyed.get? r rows).getD (line, [])
    let row ← Indexed.insert c line value row
    return Keyed.putIndex r (first, row) rows

def decodeCell (lines : List SExpr) : Except TableError Matrix := do
  let rows ← (numbered lines).foldlM addCell []
  let rows ← Indexed.toList rows
  rectangular (← rows.mapM Indexed.toList)

/-- The table that lines of a layout stand for. -/
def decode : Layout → List SExpr → Except TableError Matrix
  | .row => decodeRow
  | .headerRow => decodeHeaderRow
  | .column => decodeColumn
  | .columnHeader => decodeColumnHeader
  | .struct => decodeStruct
  | .field => decodeField
  | .function => decodeFunction
  | .cell => decodeCell

end AtomLines.Table
