import AtomLines.Yaml.Token
/-!
# Nodes

A document is a node of scalars, sequences and mappings, and an alias stands for
a node that was marked before. What a plain scalar means is left to whoever uses
it; a local tag, one that starts with a mark `!`, may name a choice.
-/

namespace AtomLines.Yaml

inductive Node where
  | scalar (style : Style) (tag : Option TagBytes) (text : String)
  | sequence (tag : Option TagBytes) (items : List Node)
  | mapping (tag : Option TagBytes) (entries : List (Node × Node))
  /-- The number of an anchor. -/
  | reference (anchor : Nat)

/-- What stands where nothing is written. -/
def Node.vacant : Node := .scalar .plain none ""

structure Document where
  root : Node
  /-- The marked nodes with the numbers of their anchors, in the order in which
  they begin. The last one of a number counts. -/
  anchored : List (Nat × Node)

/-- The texts of plain scalars that stand for nothing. -/
def isNullWord (s : String) : Bool :=
  s = "~" || s = "null" || s = "Null" || s = "NULL"

def truthOfWord? : String → Option Bool
  | "true" | "True" | "TRUE" => some true
  | "false" | "False" | "FALSE" => some false
  | _ => none

/-- The tag of truth values. -/
def truthTag : TagBytes := .ofString "tag:yaml.org,2002:bool"

/-- The name of a local tag, if its bytes are a text. -/
def localName? : Option TagBytes → Option String
  | some (mark :: name) =>
    if [mark] = TagBytes.ofString "!" then String.fromUTF8? ⟨name.toArray⟩ else none
  | _ => none

namespace Document

/-- The node that a node stands for. -/
def target (d : Document) : Node → Node
  | .reference anchor => ((d.anchored.reverse.find? (·.1 = anchor)).map Prod.snd).getD .vacant
  | n => n

def text? (d : Document) (n : Node) : Option String :=
  match d.target n with
  | .scalar _ _ text => some text
  | _ => none

/-- The truth value that a scalar spells, plain, or literal with the tag. -/
def truth? (d : Document) (n : Node) : Option Bool :=
  match d.target n with
  | .scalar .plain _ text => truthOfWord? text
  | .scalar .literal tag text => if tag = some truthTag then truthOfWord? text else none
  | _ => none

/-- The choice that a scalar names: by a local tag on nothing, or by its text. -/
def choice? {α : Type} (ofName? : String → Option α) (d : Document) (n : Node) : Option α :=
  match d.target n with
  | .scalar style tag text =>
    match localName? tag with
    | some name => if style = .plain && (text = "" || isNullWord text) then ofName? name else none
    | none => ofName? text
  | _ => none

/-- The entries of a mapping whose keys are scalars; a vacant node has none. -/
def entries? (d : Document) (n : Node) : Option (List (String × Node)) :=
  match d.target n with
  | .mapping _ entries => entries.mapM fun (key, value) => (d.text? key).map fun name => (name, value)
  | .scalar .plain _ "" => some []
  | _ => none

end Document

/-- The value of a key that occurs at most once, or the default without it. -/
def field {α : Type} (key : String) (entries : List (String × Node)) (default : α)
    (read : Node → Option α) : Option α :=
  match entries.filter (·.1 = key) with
  | [] => some default
  | [(_, node)] => read node
  | _ => none

end AtomLines.Yaml
