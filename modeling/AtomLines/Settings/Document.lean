import AtomLines.Settings.Basic
import AtomLines.Text.Blank
import AtomLines.Yaml.Printer
import AtomLines.Yaml.Reader
/-!
# Settings as YAML

Settings are written in three sections, one for each kind of data. A document may
leave out any of it: what it does not name keeps its standard value, and keys that
name no setting are ignored.
-/

namespace AtomLines

/-! ## Names of choices -/

namespace Json.ErrorPolicy

def name : ErrorPolicy → String
  | abort => "abort"
  | skip => "skip"

def ofName? : String → Option ErrorPolicy
  | "abort" => some .abort
  | "skip" => some .skip
  | _ => none

theorem ofName?_name (p : ErrorPolicy) : ofName? p.name = some p := by
  cases p <;> rfl

end Json.ErrorPolicy

namespace Rdf.GraphEncoding

def name : GraphEncoding → String
  | quoted => "quoted"
  | flat => "flat"

def ofName? : String → Option GraphEncoding
  | "quoted" => some .quoted
  | "flat" => some .flat
  | _ => none

theorem ofName?_name (e : GraphEncoding) : ofName? e.name = some e := by
  cases e <;> rfl

end Rdf.GraphEncoding

namespace Settings

/-! ## Reading -/

open Yaml (Node field)

def recordsOf (d : Yaml.Document) (node : Node) : Option RecordFormat := do
  let entries ← d.entries? node
  let marker ← field "record_marker" entries RecordFormat.standard.marker d.text?
  let onError ← field "on_record_error" entries RecordFormat.standard.onError
    (d.choice? Json.ErrorPolicy.ofName?)
  return ⟨marker, onError⟩

def graphOf (d : Yaml.Document) (node : Node) : Option Rdf.GraphFormat := do
  let entries ← d.entries? node
  let encoding ← field "encoding" entries Rdf.GraphFormat.standard.encoding
    (d.choice? Rdf.GraphEncoding.ofName?)
  let namespaceLines ← field "translate_namespaces" entries
    Rdf.GraphFormat.standard.namespaceLines d.truth?
  return ⟨encoding, namespaceLines⟩

def layoutOf (d : Yaml.Document) (node : Node) : Option Table.Layout := do
  let entries ← d.entries? node
  field "encoding" entries Settings.standard.layout (d.choice? Table.Layout.ofName?)

def ofDocument? (d : Yaml.Document) : Option Settings := do
  let entries ← d.entries? d.root
  let records ← field "json" entries RecordFormat.standard (recordsOf d)
  let graph ← field "graph" entries Rdf.GraphFormat.standard (graphOf d)
  let layout ← field "table" entries Settings.standard.layout (layoutOf d)
  return ⟨records, graph, layout⟩

/-- The settings that a document names; a blank text names none. -/
def read? (text : String) : Option Settings :=
  if Text.isBlankText text.toList then some .standard
  else (Yaml.Document.read? text).bind ofDocument?

/-! ## Writing -/

/-- A setting in its section. -/
def settingLine (key value : String) : String :=
  "  " ++ key ++ ": " ++ value ++ "\n"

/-- The marker may take several lines, indented deeper than its key. -/
def markerLines (marker : String) : String :=
  "  record_marker: " ++ Yaml.scalarLine 4 marker

def write (s : Settings) : String :=
  "json:\n" ++
    markerLines s.records.marker ++
    settingLine "on_record_error" s.records.onError.name ++
  "graph:\n" ++
    settingLine "encoding" s.graph.encoding.name ++
    settingLine "translate_namespaces" (if s.graph.namespaceLines then "true" else "false") ++
  "table:\n" ++
    settingLine "encoding" s.layout.name

end Settings

end AtomLines
