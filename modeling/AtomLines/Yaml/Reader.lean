import AtomLines.Keyed
import AtomLines.Yaml.Lexer
import AtomLines.Yaml.Node
/-!
# Reading YAML

A text holds one document or none. Its tokens are put together to a node from
the outside in; where a node is missing between two tokens it is vacant.
-/

namespace AtomLines.Yaml

/-! ## Reading with a state -/

structure Reader where
  rest : List Token
  handles : List (String × TagBytes)
  /-- The numbers of anchors by name. -/
  names : List (String × Nat)
  anchored : List (Nat × Node)

/-- A step of reading, which may fail. -/
abbrev Read := StateT Reader Option

def peek : Read (Option Token) := do return (← get).rest.head?

def skip : Read Unit := modify fun r => { r with rest := r.rest.drop 1 }

/-- Skips a token that has to come next. -/
def expect (t : Token) : Read Unit := do
  if (← peek) = some t then skip else failure

/-- The next token is one of these, or there is none. -/
def isNext (ts : List Token) : Read Bool := do
  match ← peek with
  | none => return true
  | some t => return ts.contains t

/-! ## Properties -/

/-- The number of an alias. -/
def aliasNumber (name : String) : Read Nat := do
  match Keyed.get? name (← get).names with
  | some n => return n
  | none => failure

/-- Numbers an anchor by how many names there have been. -/
def numberAnchor (name : String) : Read Nat := do
  let n := (← get).names.length
  modify fun r => { r with names := Keyed.put name n r.names }
  return n

/-- A tag in full. -/
def fullTag (handle : String) (suffix : TagBytes) : Read TagBytes := do
  if handle = "" then return suffix
  else
    match Keyed.get? handle (← get).handles with
    | some start => return start ++ suffix
    | none => failure

/-- Takes the next token if it is an anchor. -/
def anchor? : Read (Option String) := do
  match ← peek with
  | some (.anchor name) => do
    skip
    return some name
  | _ => return none

/-- Takes the next token if it is a tag. -/
def tag? : Read (Option (String × TagBytes)) := do
  match ← peek with
  | some (.tag handle suffix) => do
    skip
    return some (handle, suffix)
  | _ => return none

/-- The anchor and the tag before a node, in either order. -/
def properties : Read (Option String × Option TagBytes) := do
  let first ← anchor?
  let tag ← tag?
  let anchor ← if first.isNone && tag.isSome then anchor? else pure first
  match tag with
  | some (handle, suffix) => return (anchor, some (← fullTag handle suffix))
  | none => return (anchor, none)

/-- A node with its anchor: the node comes before those inside of it. -/
def mark (anchor : Option String) (node : Read Node) : Read Node := do
  match anchor with
  | none => node
  | some name => do
    let n ← numberAnchor name
    let before := (← get).anchored
    modify fun r => { r with anchored := [] }
    let found ← node
    modify fun r => { r with anchored := before ++ (n, found) :: r.anchored }
    return found

/-- The tag `!` of a scalar says nothing. -/
def scalarTag (tag : Option TagBytes) : Option TagBytes :=
  if tag = some (.ofString "!") then none else tag

/-! ## Nodes -/

mutual

/-- A node; each call takes a unit of fuel. Blocks begin only outside of
brackets, and a sequence without indentation only in a mapping. -/
def readNode : (fuel : Nat) → (block dashes : Bool) → Read Node
  | 0, _, _ => failure
  | fuel + 1, block, dashes => do
    match ← peek with
    | some (.reference name) => do
      skip
      return .reference (← aliasNumber name)
    | _ => do
      let (anchor, tag) ← properties
      mark anchor (readContent fuel block dashes (anchor.isSome || tag.isSome) tag)

/-- A node after its properties, which may stand on their own. -/
def readContent : (fuel : Nat) → (block dashes hasProperties : Bool) → (tag : Option TagBytes) → Read Node
  | 0, _, _, _, _ => failure
  | fuel + 1, block, dashes, hasProperties, tag => do
    match ← peek, block, dashes with
    | some (.scalar style text), _, _ => do
      skip
      return .scalar style (scalarTag tag) text
    | some .openBracket, _, _ => do
      skip
      return .sequence tag (← readFlowItems fuel true)
    | some .openBrace, _, _ => do
      skip
      return .mapping tag (← readFlowEntries fuel true)
    | some .openSequence, true, _ => do
      skip
      return .sequence tag (← readItems fuel)
    | some .openMapping, true, _ => do
      skip
      return .mapping tag (← readEntries fuel)
    | some .dash, _, true => return .sequence tag (← readBareItems fuel)
    | _, _, _ => if hasProperties then return .scalar .plain tag "" else failure

/-- A node, or a vacant one before certain tokens. -/
def readNodeUnless : (fuel : Nat) → (block dashes : Bool) → (ends : List Token) → Read Node
  | 0, _, _, _ => failure
  | fuel + 1, block, dashes, ends => do
    match ← peek with
    | some t => if ends.contains t then return .vacant else readNode fuel block dashes
    | none => failure

/-- The items of an indented sequence. -/
def readItems : (fuel : Nat) → Read (List Node)
  | 0 => failure
  | fuel + 1 => do
    match ← peek with
    | some .dash => do
      skip
      let item ← readNodeUnless fuel true false [.dash, .closeBlock]
      return item :: (← readItems fuel)
    | some .closeBlock => do
      skip
      return []
    | _ => failure

/-- The items of a sequence without indentation. -/
def readBareItems : (fuel : Nat) → Read (List Node)
  | 0 => failure
  | fuel + 1 => do
    match ← peek with
    | some .dash => do
      skip
      let item ← readNodeUnless fuel true false [.dash, .key, .value, .closeBlock]
      return item :: (← readBareItems fuel)
    | _ => return []

/-- The entries of a mapping outside of brackets. -/
def readEntries : (fuel : Nat) → Read (List (Node × Node))
  | 0 => failure
  | fuel + 1 => do
    match ← peek with
    | some .closeBlock => do
      skip
      return []
    | some .key => do
      skip
      let key ← readNodeUnless fuel true true [.key, .value, .closeBlock]
      let value ← readBlockValue fuel
      return (key, value) :: (← readEntries fuel)
    | _ => failure

/-- The value after a key outside of brackets. -/
def readBlockValue : (fuel : Nat) → Read Node
  | 0 => failure
  | fuel + 1 => do
    match ← peek with
    | some .value => do
      skip
      readNodeUnless fuel true true [.key, .value, .closeBlock]
    | _ => return .vacant

/-- The value after a key in brackets, which end with a certain token. -/
def readFlowValue : (fuel : Nat) → (closing : Token) → Read Node
  | 0, _ => failure
  | fuel + 1, closing => do
    match ← peek with
    | some .value => do
      skip
      readNodeUnless fuel false false [.comma, closing]
    | _ => return .vacant

/-- Items up to the closing bracket. An entry among them is a mapping of its own. -/
def readFlowItems : (fuel : Nat) → (first : Bool) → Read (List Node)
  | 0, _ => failure
  | fuel + 1, first => do
    if (← peek) = some .closeBracket then
      skip
      return []
    else
      if !first then expect .comma
      match ← peek with
      | some .closeBracket => do
        skip
        return []
      | some .key => do
        skip
        let key ← readEntryKey fuel
        let value ← readFlowValue fuel .closeBracket
        return .mapping none [(key, value)] :: (← readFlowItems fuel false)
      | _ => do
        let item ← readNode fuel false false
        return item :: (← readFlowItems fuel false)

/-- The key of an entry among items. A token that leaves it vacant is lost. -/
def readEntryKey : (fuel : Nat) → Read Node
  | 0 => failure
  | fuel + 1 => do
    if ← isNext [.value, .comma, .closeBracket] then
      skip
      return .vacant
    else readNode fuel false false

/-- Entries up to the closing brace. -/
def readFlowEntries : (fuel : Nat) → (first : Bool) → Read (List (Node × Node))
  | 0, _ => failure
  | fuel + 1, first => do
    if (← peek) = some .closeBrace then
      skip
      return []
    else
      if !first then expect .comma
      match ← peek with
      | some .closeBrace => do
        skip
        return []
      | some .key => do
        skip
        let key ← readNodeUnless fuel false false [.value, .comma, .closeBrace]
        let value ← readFlowValue fuel .closeBrace
        return (key, value) :: (← readFlowEntries fuel false)
      | _ => do
        let key ← readNode fuel false false
        return (key, .vacant) :: (← readFlowEntries fuel false)

end

/-! ## Documents -/

/-- The handles that need no declaration. -/
def commonHandles : List (String × TagBytes) :=
  [("!", .ofString "!"), ("!!", .ofString "tag:yaml.org,2002:")]

/-- Reads directives, at most as many as the fuel, and says whether there was a
version. No handle is declared twice, and only two versions are known. -/
def readDirectives : (fuel : Nat) → (versioned : Bool) → Read Unit
  | 0, _ => failure
  | fuel + 1, versioned => do
    match ← peek with
    | some (.version major minor) =>
      if !versioned && major = 1 && (minor = 1 || minor = 2) then
        skip
        readDirectives fuel true
      else failure
    | some (.handle name start) =>
      if (Keyed.get? name (← get).handles).isNone then
        modify fun r => { r with handles := Keyed.put name start r.handles }
        skip
        readDirectives fuel versioned
      else failure
    | _ => return ()

def startsDocument : Option Token → Bool
  | some (.version _ _) | some (.handle _ _) | some .documentStart => true
  | _ => false

def addCommonHandles : Read Unit :=
  modify fun r => { r with handles := r.handles ++ commonHandles }

/-- The node of a document, which may be announced. -/
def readRoot (fuel : Nat) : Read Node := do
  if startsDocument (← peek) then
    readDirectives fuel false
    addCommonHandles
    expect .documentStart
    let next ← peek
    if next.isNone || next = some .documentEnd || startsDocument next then return .vacant
    else readNode fuel true false
  else
    addCommonHandles
    readNode fuel true false

/-- The document of tokens; without tokens it is vacant. -/
def Document.ofTokens? (ts : List Token) : Option Document := do
  if ts = [] then some ⟨.vacant, []⟩
  else
    let (root, r) ← (readRoot (4 * ts.length + 4)).run ⟨ts, [], [], []⟩
    if r.rest.all (· = Token.documentEnd) then some ⟨root, r.anchored⟩ else none

/-- The document of a text that holds no more than one. -/
def Document.read? (text : String) : Option Document :=
  (tokens? text.toList).bind Document.ofTokens?

end AtomLines.Yaml
