import AtomLines.Json.Assembly
import AtomLines.Json.Leaves
/-!
# Documents and records as lines

A document is one mapping, written as one line for each of its leaves. Of a list
of records each line also carries a marker and the index of its record; an empty
record still has a line. Reading takes the lines in any order.
-/

namespace AtomLines.Json

/-- What happens to a list of records when one of them cannot be written. -/
inductive ErrorPolicy where
  | abort
  | skip
deriving DecidableEq, Repr

/-- The first error of a list, or all its values. -/
def collect {ε α : Type} : List (Except ε α) → Except ε (List α)
  | [] => .ok []
  | x :: rest => do
    let a ← x
    let as ← collect rest
    return a :: as

/-! ## Writing -/

def recordLine (marker : String) (record : Nat) (body : SExpr) : SExpr :=
  .list [.symbol marker, .ofIndex record, body]

/-- The bodies of the lines of a record. -/
def Value.bodies (record : Nat) (v : Value) : Except RecordError (List SExpr) := do
  let leaves ← collect (← v.leaves record)
  return leaves.map PlacedLeaf.line

def encodeDocument (v : Value) : Except RecordError (List SExpr) :=
  v.bodies 0

def encodeRecord (marker : String) (record : Nat) (v : Value) : Except RecordError (List SExpr) := do
  let bodies ← v.bodies record
  let bodies := if bodies.isEmpty then [.symbol emptyMapping] else bodies
  return bodies.map (recordLine marker record)

/-- The lines of the records from index `next` on. -/
def encodeFrom (marker : String) (policy : ErrorPolicy) (next : Nat) :
    List Value → Except RecordError (List SExpr)
  | [] => .ok []
  | v :: rest =>
    match encodeRecord marker next v, policy with
    | .ok lines, _ => (encodeFrom marker policy (next + 1) rest).map (lines ++ ·)
    | .error e, .abort => .error e
    | .error _, .skip => encodeFrom marker policy (next + 1) rest

def encodeRecords (marker : String) (policy : ErrorPolicy) (records : List Value) :
    Except RecordError (List SExpr) :=
  encodeFrom marker policy 0 records

/-! ## Reading -/

/-- The trees of records by ascending index. -/
abbrev Trees := List (Nat × Slot)

def decodeDocument (lines : List SExpr) : Except RecordError Value :=
  ((lines.foldlM (fun root body => Slot.insertLine body root) .vacant).bind Slot.finish).mapError
    (.malformed none)

/-- The record index and the body of a line with the marker. -/
def recordParts (marker : String) (line : SExpr) : Except Malformation (Nat × SExpr) :=
  match line with
  | .list [head, index, body] =>
    if head.name? = some marker then
      match index.index? with
      | some record => .ok (record, body)
      | none => .error (.notRecordIndex index)
    else .error (.notRecordLine marker line)
  | _ => .error (.notRecordLine marker line)

def Trees.insertLine (marker : String) (trees : Trees) (line : SExpr) : Except RecordError Trees := do
  let (record, body) ← (recordParts marker line).mapError (.malformed none)
  let root := (Keyed.get? record trees).getD .vacant
  let root ← (root.insertLine body).mapError (.malformed (some record))
  return Keyed.putIndex record root trees

/-- The values of finished trees. -/
def Trees.finish : Trees → Except RecordError (List (Nat × Value))
  | [] => .ok []
  | (record, root) :: rest => do
    let v ← root.finish.mapError (.malformed (some record))
    let vs ← Trees.finish rest
    return (record, v) :: vs

/-- The records of lines with the marker, by ascending index. -/
def decodeRecords (marker : String) (lines : List SExpr) : Except RecordError (List (Nat × Value)) := do
  let trees ← lines.foldlM (Trees.insertLine marker) []
  trees.finish

end AtomLines.Json
