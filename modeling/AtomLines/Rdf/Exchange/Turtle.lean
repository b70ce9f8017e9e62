import AtomLines.Keyed
import AtomLines.Rdf.Exchange.Statement
import AtomLines.Rdf.Iri.Resolve
/-!
# Turtle

Statements in the order in which the text completes them: those of a property
list or a collection before the statement that uses it. Anonymous nodes and the
cells of collections are numbered as they are opened. Reading stops at the first
mistake and keeps the statements before it.
-/

namespace AtomLines.Rdf.Exchange.Turtle

/-! ## Reading with a state -/

structure State where
  rest : List Char
  base : Option (List Char)
  prefixes : List (String × String)
  /-- How many nodes have been numbered. -/
  numbered : Nat
  /-- The last statement first. -/
  statements : List Statement

/-- A step of reading, which may fail; what was stated before stays. -/
abbrev Parse := OptionT (StateM State)

def peek : Parse (List Char) := do return (← get).rest

def moveTo (rest : List Char) : Parse Unit := modify fun s => { s with rest }

/-- Reads a lexeme. -/
def lex {α : Type} (f : List Char → Lexed α) : Parse α := do
  match f (← peek) with
  | some (a, rest) => do
    moveTo rest
    return a
  | none => failure

def space : Parse Unit := do moveTo (skipSpace (← peek))

/-- Reads exactly these characters. -/
def expect (cs : List Char) : Parse Unit := do
  let rest ← peek
  if cs.isPrefixOf rest then moveTo (rest.drop cs.length) else failure

def startsWith (cs : List Char) : Parse Bool := do return cs.isPrefixOf (← peek)

def emit (s : Node) (p : String) (o : Node) : Parse Unit :=
  modify fun st => { st with statements := ⟨s, p, o⟩ :: st.statements }

/-! ## Blank nodes -/

/-- The beginning of the labels of numbered nodes. -/
def numberedStem : List Char := "riog".toList

/-- Eight digits, with zeros in front. -/
def eightDigits (n : Nat) : List Char :=
  let ds := Text.naturalDigits n
  List.replicate (8 - ds.length) '0' ++ ds

/-- A new numbered node. -/
def fresh : Parse Node := do
  let n := (← get).numbered + 1
  modify fun s => { s with numbered := n }
  return .blank (String.ofList (numberedStem ++ eightDigits n))

/-- The label of a numbered node, or one that was made different from those. -/
def looksNumbered (label : List Char) : Bool :=
  let rest := label.drop 4
  numberedStem.isPrefixOf label && (rest.take 8).length = 8 && (rest.take 8).all Char.isDigit &&
    (rest.drop 8).all (· = 'd')

/-- A written label, told apart from those of numbered nodes. -/
def distinct (label : List Char) : List Char :=
  if looksNumbered label then label ++ ['d'] else label

def writtenBlank : Parse Node := do
  expect ['_', ':']
  return .blank (String.ofList (distinct (← lex blankLabel)))

/-- What follows an opening bracket is only white space and its closing one;
returns the text after that. -/
def afterEmptyBrackets? (cs : List Char) : Option (List Char) :=
  match cs.dropWhile Text.isGap with
  | ']' :: rest => some rest
  | _ => none

/-! ## IRIs -/

def iriReference : Parse String := do
  expect ['<']
  let reference ← lex iriBody
  match Iri.resolve (← get).base reference with
  | some cs => return String.ofList cs
  | none => failure

def prefixedName : Parse String := do
  let label ← lex prefixLabel
  match Keyed.get? (String.ofList label) (← get).prefixes with
  | some start => return start ++ String.ofList (← lex localName)
  | none => failure

def iri : Parse String := do
  if ← startsWith ['<'] then iriReference else prefixedName

/-- The word `a` for the type of a thing, not the beginning of a name. -/
def isTypeWord : List Char → Bool
  | 'a' :: c :: _ => isAscii c && !isNameChar c && c ≠ '.' && c ≠ ':'
  | ['a'] => true
  | _ => false

def verb : Parse String := do
  if isTypeWord (← peek) then
    expect ['a']
    return Iri.rdfType.text
  else iri

/-! ## Literals -/

def literal : Parse Node := do
  let mark := (← peek).headD '"'
  let text := String.ofList (← lex fun cs => anyString mark (cs.drop 1))
  space
  if ← startsWith ['@'] then
    expect ['@']
    return .tagged text (← lex languageTag)
  else if ← startsWith ['^'] then
    expect ['^', '^']
    space
    return .typed text (← iri)
  else return .plain text

def datatypeOf : NumberKind → Iri
  | .integer => .xsdInteger
  | .decimal => .xsdDecimal
  | .double => .xsdDouble

def number : Parse Node := do
  let (text, kind) ← lex signedNumber
  return .typed (String.ofList text) (datatypeOf kind).text

/-- A truth value is a word that no name goes on from. -/
def booleanWord? (cs : List Char) : Option (List Char) :=
  ["true".toList, "false".toList].find? fun word =>
    word.isPrefixOf cs &&
      match cs.drop word.length with
      | [] => true
      | c :: _ => isAscii c && !isNameChar c && c ≠ ':'

def booleanOrName : Parse Node := do
  match booleanWord? (← peek) with
  | some word =>
    expect word
    return .typed (String.ofList word) Iri.xsdBoolean.text
  | none => return .iri (← prefixedName)

def startsNumber (c : Char) : Bool := c.isDigit || c = '+' || c = '-' || c = '.'

/-- A node without parts of its own. -/
def simpleNode : Parse Node := do
  match ← peek with
  | [] => failure
  | c :: _ =>
    if c = '<' then return .iri (← iri)
    else if c = '_' then writtenBlank
    else if c = '"' || c = '\'' then literal
    else if startsNumber c then number
    else booleanOrName

/-- Brackets around nothing: a new node. -/
def emptyBrackets : Parse Node := do
  expect ['[']
  match afterEmptyBrackets? (← peek) with
  | some rest => do
    moveTo rest
    fresh
  | none => failure

/-! ## Quoted triples -/

/-- Containers and quoted triples nest at most this deep. -/
def maxDepth : Nat := 128

/-- A quoted triple; nothing of it is stated. -/
def quotation : (depth : Nat) → Parse Unit
  | 0 => failure
  | depth + 1 => do
    expect ['<', '<']
    space
    if ← startsWith ['<', '<'] then quotation depth
    else if ← startsWith ['['] then discard emptyBrackets
    else if ← startsWith ['_'] then discard writtenBlank
    else discard iri
    space
    discard verb
    space
    if ← startsWith ['<', '<'] then quotation depth
    else if ← startsWith ['['] then discard emptyBrackets
    else discard simpleNode
    space
    expect ['>', '>']

/-! ## Property lists and collections -/

/-- Semicolons with the white space after each. -/
def semicolons : (fuel : Nat) → Parse Unit
  | 0 => pure ()
  | fuel + 1 => do
    if ← startsWith [';'] then
      expect [';']
      space
      semicolons fuel

/-- After semicolons the list of predicates may be at its end. -/
def endsPredicates : List Char → Bool
  | [] => true
  | c :: _ => c = '.' || c = ']' || c = '\x7d'

mutual

/-- A node with all that it states. -/
def object : (fuel depth : Nat) → Parse Node
  | 0, _ => failure
  | fuel + 1, depth => do
    if ← startsWith ['<', '<'] then
      quotation depth
      return .quotation
    else if ← startsWith ['('] then collection fuel depth
    else if ← startsWith ['['] then
      match afterEmptyBrackets? ((← peek).drop 1) with
      | some _ => emptyBrackets
      | none => propertyList fuel depth
    else simpleNode

def collection : (fuel depth : Nat) → Parse Node
  | 0, _ => failure
  | _, 0 => failure
  | fuel + 1, depth + 1 => do
    expect ['(']
    space
    if ← startsWith [')'] then
      expect [')']
      return .iri Iri.rdfNil.text
    else
      let cell ← fresh
      elements fuel depth cell
      return cell

/-- The element of a cell and all cells after it. -/
def elements : (fuel depth : Nat) → (cell : Node) → Parse Unit
  | 0, _, _ => failure
  | fuel + 1, depth, cell => do
    let o ← object fuel depth
    emit cell Iri.rdfFirst.text o
    space
    if ← startsWith [')'] then
      expect [')']
      emit cell Iri.rdfRest.text (.iri Iri.rdfNil.text)
    else if (← peek) = [] then failure
    else
      let next ← fresh
      emit cell Iri.rdfRest.text next
      elements fuel depth next

def propertyList : (fuel depth : Nat) → Parse Node
  | 0, _ => failure
  | _, 0 => failure
  | fuel + 1, depth + 1 => do
    expect ['[']
    space
    let node ← fresh
    properties fuel depth node
    return node

/-- Lists of predicates up to a closing bracket. -/
def properties : (fuel depth : Nat) → (subject : Node) → Parse Unit
  | 0, _, _ => failure
  | fuel + 1, depth, subject => do
    predicates fuel depth subject
    space
    if ← startsWith [']'] then expect [']'] else properties fuel depth subject

/-- Predicates with their objects, separated by semicolons. -/
def predicates : (fuel depth : Nat) → (subject : Node) → Parse Unit
  | 0, _, _ => failure
  | fuel + 1, depth, subject => do
    let p ← verb
    space
    objects fuel depth subject p
    if ← startsWith [';'] then
      semicolons (← peek).length
      if endsPredicates (← peek) then pure () else predicates fuel depth subject

/-- Objects separated by commas, and the white space after them. An annotation
states something about the statement before it. -/
def objects : (fuel depth : Nat) → (subject : Node) → (predicate : String) → Parse Unit
  | 0, _, _, _ => failure
  | fuel + 1, depth, subject, predicate => do
    let o ← object fuel depth
    emit subject predicate o
    space
    if ← startsWith ['\x7b', '|'] then
      expect ['\x7b', '|']
      space
      predicates fuel depth .quotation
      expect ['|', '\x7d']
      space
    if ← startsWith [','] then
      expect [',']
      space
      objects fuel depth subject predicate

end

/-! ## Statements -/

def subject (fuel : Nat) : Parse Node := do
  if ← startsWith ['['] then emptyBrackets
  else if ← startsWith ['_'] then writtenBlank
  else if ← startsWith ['('] then collection fuel maxDepth
  else if ← startsWith ['<', '<'] then
    quotation maxDepth
    return .quotation
  else return .iri (← iri)

def triples (fuel : Nat) : Parse Unit := do
  let cs ← peek
  if ['['].isPrefixOf cs && (afterEmptyBrackets? (cs.drop 1)).isNone then
    let node ← propertyList fuel maxDepth
    space
    if !(← startsWith ['.']) then predicates fuel maxDepth node
  else
    let node ← subject fuel
    space
    predicates fuel maxDepth node

/-- A label with its IRI. -/
def declaration : Parse Unit := do
  let label ← lex prefixLabel
  space
  let start ← iriReference
  modify fun s => { s with prefixes := Keyed.put (String.ofList label) start s.prefixes }

def newBase : Parse Unit := do
  let base ← iriReference
  modify fun s => { s with base := some base.toList }

/-- The text starts with a word in any case, and then with a character that the
test allows. -/
def startsKeyword (word : List Char) (next : Char → Bool) (cs : List Char) : Bool :=
  (cs.take word.length).map Char.toLower = word &&
    match cs.drop word.length with
    | c :: _ => next c
    | [] => false

def statement (fuel : Nat) : Parse Unit := do
  let cs ← peek
  if "@prefix".toList.isPrefixOf cs then
    expect "@prefix".toList
    space
    declaration
    space
    expect ['.']
  else if "@base".toList.isPrefixOf cs then
    expect "@base".toList
    space
    newBase
    space
    expect ['.']
  else if startsKeyword "base".toList (fun c => Text.isGap c || c = '<') cs then
    moveTo (cs.drop 4)
    space
    newBase
  else if startsKeyword "prefix".toList Text.isGap cs then
    moveTo (cs.drop 6)
    space
    declaration
  else
    triples fuel
    expect ['.']

def statements (length : Nat) : (fuel : Nat) → Parse Unit
  | 0 => failure
  | fuel + 1 => do
    space
    if (← peek) = [] then pure ()
    else
      statement length
      statements length fuel

/-! ## Documents -/

/-- More than one unit of fuel for each step within a text. -/
def fuelFor (cs : List Char) : Nat := 8 * (cs.length + 1)

def read (base : Option (List Char)) (cs : List Char) : Reading :=
  let fuel := fuelFor cs
  let (done, s) := (statements fuel fuel).run ⟨cs, base, [], 0, []⟩
  ⟨s.statements.reverse, done.isSome, s.prefixes⟩

end AtomLines.Rdf.Exchange.Turtle
