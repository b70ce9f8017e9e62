import AtomLines.Json.Path
/-!
# What can be wrong with records

Writing fails on what is no mapping and on sequences nested too deep. Reading
fails on lines that no value could have been written as, each for a reason.
-/

namespace AtomLines.Json

/-- Why expressions stand for no value. -/
inductive Malformation where
  | unrepresentable (number : String)
  | notScalar (symbol : String)
  | listAsScalar
  | missingKey
  | notKey (found : SExpr)
  | missingValue (key : String)
  | manyIndices (key : String) (count : Nat)
  | notIndex (key : String) (found : SExpr)
  | leafWithoutKey (leaf : SExpr)
  | notRecordLine (marker : String) (found : SExpr)
  | notRecordIndex (found : SExpr)
  | mappingNeeded (path : String)
  | sequenceNeeded (path : String)
  | assignedAgain (path : String)
  | emptyWithEntries
  | vacant (place : String)
  | indexGap (place : String) (index : Nat)
deriving DecidableEq, Repr

/-- A text between backquotes. -/
def ticked (s : String) : String := "`" ++ s ++ "`"

def Malformation.message : Malformation → String
  | unrepresentable number => ticked number ++ " is not a representable number"
  | notScalar symbol => "bare symbol " ++ ticked symbol ++ " is not a scalar leaf"
  | listAsScalar => "expected a scalar leaf, found a list"
  | missingKey => "empty list where a key was expected"
  | notKey found => "expected a key, found " ++ found.text
  | missingValue key => "key " ++ ticked key ++ " has no value"
  | manyIndices key count => "key " ++ ticked key ++ " carries " ++ toString count ++ " indices"
  | notIndex key found => ticked found.text ++ " is not a sequence index under " ++ ticked key
  | leafWithoutKey leaf => "leaf " ++ leaf.text ++ " has no key"
  | notRecordLine marker found =>
    "expected " ++ ticked ("(" ++ marker ++ " <index> <body>)") ++ ", found " ++ found.text
  | notRecordIndex found => ticked found.text ++ " is not a record index"
  | mappingNeeded path => ticked path ++ " needs a mapping where another value already sits"
  | sequenceNeeded path => ticked path ++ " needs a sequence where another value already sits"
  | assignedAgain path => ticked path ++ " is assigned more than once"
  | emptyWithEntries => "an empty record also has entries"
  | vacant place => ticked place ++ " has no value"
  | indexGap place index => ticked place ++ " is missing sequence index " ++ toString index

inductive RecordError where
  | depthExceeded (record : Nat) (key : String) (depth : Nat)
  /-- A malformed line, of a record if the line belongs to one. -/
  | malformed (record : Option Nat) (reason : Malformation)
  | notMapping (record : Nat)
deriving DecidableEq, Repr

def RecordError.message : RecordError → String
  | depthExceeded record key depth =>
    "record " ++ toString record ++ ": key " ++ ticked key ++ " nests sequences " ++ toString depth ++
      " levels deep (at most " ++ toString maxSequenceDepth ++ " supported)"
  | malformed none reason => "malformed path: " ++ reason.message
  | malformed (some record) reason =>
    "malformed path in record " ++ toString record ++ ": " ++ reason.message
  | notMapping record => "record " ++ toString record ++ " is not a mapping"

end AtomLines.Json
