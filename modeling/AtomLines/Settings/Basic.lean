import AtomLines.Json.Record
import AtomLines.Rdf.Lines.Write
import AtomLines.Table.Matrix
/-!
# Settings

How records, graphs and tables become lines. Every setting has a standard value.
-/

namespace AtomLines

/-- How a list of records is written and read. -/
structure RecordFormat where
  marker : String
  onError : Json.ErrorPolicy
deriving DecidableEq, Repr

def RecordFormat.standard : RecordFormat := ⟨"json", .abort⟩

structure Settings where
  records : RecordFormat
  graph : Rdf.GraphFormat
  layout : Table.Layout
deriving DecidableEq, Repr

def Settings.standard : Settings := ⟨.standard, .standard, .headerRow⟩

end AtomLines
