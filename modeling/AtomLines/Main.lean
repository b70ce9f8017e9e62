import AtomLines.Json.Reader
import AtomLines.Json.Record
import AtomLines.Rdf.Exchange.Import
import AtomLines.Rdf.Lines.Read
import AtomLines.SExpr.Printer
import AtomLines.SExpr.Reader
import AtomLines.Settings.Document
import AtomLines.Table.Decode
import AtomLines.Table.Encode
import AtomLines.Version
/-!
# A sample run

Records, a graph with a quoted graph and a table are written as lines and read
back, and the lines are shown.
-/

namespace AtomLines.Sample

/-! ## Sample data -/

def settingsText : String :=
  "json:\n  record_marker: json\n  on_record_error: skip\ngraph:\n  encoding: quoted\ntable:\n  encoding: header_row\n"

def recordsText : String :=
  "\x7b\"name\": \"Alice\", \"tags\": [[\"a\", \"b\"], [\"c\"]], \"address\": " ++
    "\x7b\"city\": \"Rome\", \"zip\": \"00100\"\x7d\x7d\n" ++
    "\x7b\"name\": \"Bob\", \"active\": true, \"score\": 4.5\x7d\n"

def address : String := "file:///kb/check_list.ttl"

def graphText : String :=
  "@prefix ex: <http://example.org/> .\n" ++
    "<#taskA> ex:member <#taskA1> ;\n" ++
    "         ex:label \"Task A\"@en ;\n" ++
    "         ex:priority 2 .\n"

def table : Table.Matrix := [["Index", "Name"], ["1", "Alice"], ["2", "Bob"]]

/-! ## What is shown -/

/-- A part of the run: the text to show, or the message of an error. -/
abbrev Part := Except String String

def settings : Except String Settings :=
  (Settings.read? settingsText).elim (.error "YAML error") .ok

def recordsPart (s : Settings) : Part := do
  let records ← (Json.Value.readLines? recordsText).elim (.error "JSON error") .ok
  let lines ← (Json.encodeRecords s.records.marker s.records.onError records).mapError Json.RecordError.message
  let back ← (Json.decodeRecords s.records.marker lines).mapError Json.RecordError.message
  return "=== Demo 1: JSON records ===\n" ++ SExpr.write lines ++
    "✓ Decoded " ++ toString back.length ++ " records back\n\n"

/-- The document with its first triple in a graph of its own, and a triple about
that graph. -/
def quoteFirst (d : Rdf.Document) : Except Rdf.InvalidTerm Rdf.Document := do
  let (id, d) := d.newGraph
  let d := (d.asserted.triples.take 1).foldl (fun d t => d.insert id t) d
  let assertedBy ← Rdf.Iri.of "http://example.org/assertedBy"
  let alice ← Rdf.Iri.of "http://example.org/alice"
  return d.insert .top ⟨.graph id, .iri assertedBy, .iri alice⟩

def graphPart (s : Settings) : Part := do
  let d ← (Rdf.Exchange.importDocument .turtle (some address) graphText).mapError
    Rdf.Exchange.ImportError.message
  let d ← (quoteFirst d).mapError Rdf.InvalidTerm.message
  let lines ← (d.encode s.graph).mapError Rdf.GraphError.message
  let again ← (SExpr.read (SExpr.write lines)).mapError SExpr.ReadError.message
  let back ← (Rdf.Document.decode s.graph.encoding (some address) again).mapError Rdf.GraphError.message
  return "=== Demo 2: N3 graph with a quoted formula ===\n" ++ SExpr.write lines ++
    "✓ Decoded " ++ toString back.tripleCount ++ " triples in " ++ toString back.graphs.length ++ " graphs\n\n"

def tablePart (s : Settings) : Part := do
  let lines ← (Table.encode s.layout table).mapError Table.TableError.message
  let back ← (Table.decode s.layout lines).mapError Table.TableError.message
  return "=== Demo 3: Tables ===\n" ++ SExpr.write lines ++
    "✓ Decoded " ++ toString back.length ++ " rows back\n"

def heading : String :=
  "MeTTa translation layer v" ++ version ++ "\n==========================================\n\n"

/-- All that the run shows, in order. -/
def report : Part := do
  let s ← settings
  return heading ++ (← recordsPart s) ++ (← graphPart s) ++ (← tablePart s)

end AtomLines.Sample

def main : IO UInt32 := do
  match AtomLines.Sample.report with
  | .ok text =>
    IO.print text
    return 0
  | .error message =>
    IO.eprintln ("Error: " ++ message)
    return 1
