import AtomLines.Json.Number
import AtomLines.Keyed
/-!
# Values

A value is a scalar, a sequence or a mapping with keys in the order of their
insertion. Two values are the same if they differ only in the order of keys.
-/

namespace AtomLines.Json

inductive Scalar where
  | string (text : String)
  | number (value : Number)
  | boolean (value : Bool)
  | null
deriving DecidableEq, Repr

def Scalar.same : Scalar → Scalar → Bool
  | number a, number b => a.same b
  | a, b => a = b

inductive Value where
  | scalar (value : Scalar)
  | sequence (items : List Value)
  | mapping (entries : List (String × Value))
deriving Inhabited, Repr

namespace Value

def entries? : Value → Option (List (String × Value))
  | mapping entries => some entries
  | _ => none

/-- The entry of a mapping under a key. -/
def get? (key : String) : Value → Option Value
  | mapping entries => Keyed.get? key entries
  | _ => none

/-- Scalars and empty containers: what stands at the end of a path. -/
def isLeaf : Value → Bool
  | scalar _ => true
  | sequence items => items.isEmpty
  | mapping entries => entries.isEmpty

mutual

/-- Equality up to the order of keys. -/
def same : Value → Value → Bool
  | scalar a, scalar b => a.same b
  | sequence as, sequence bs => sameItems as bs
  | mapping as, mapping bs => as.length = bs.length && sameEntries as bs
  | _, _ => false

def sameItems : List Value → List Value → Bool
  | [], [] => true
  | a :: as, b :: bs => same a b && sameItems as bs
  | _, _ => false

/-- Every entry of the first list has the same value under its key in the second. -/
def sameEntries : List (String × Value) → List (String × Value) → Bool
  | [], _ => true
  | (k, a) :: as, bs =>
    (match Keyed.get? k bs with
    | some b => same a b
    | none => false) && sameEntries as bs

end

end Value

end AtomLines.Json
