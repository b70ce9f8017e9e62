import AtomLines.Rdf.Namespace
import AtomLines.Rdf.Term
import AtomLines.SExpr.Printer
/-!
# Terms as expressions

Every term is a list whose head names its kind; a literal has a list for a head,
with its datatype and tag. An IRI that extends the base of the local namespace is
written by the name of that namespace and its fragment.
-/

namespace AtomLines.Rdf

/-- Why an expression of a known kind is no term. -/
inductive TermFault where
  | notList (found : SExpr)
  | emptyList
  | argumentCount (kind : String) (found : Nat)
  | blankLabel (found : SExpr)
  | variableName (found : SExpr)
  | graphId (found : SExpr)
  | iri (found : SExpr)
  | literalText (found : SExpr)
  | literalTexts (found : Nat)
  | literalType (found : SExpr)
  | missingLanguage
deriving DecidableEq, Repr

def TermFault.message : TermFault → String
  | notList found => "expected a term, found " ++ found.text
  | emptyList => "empty list where a term was expected"
  | argumentCount kind found => "`" ++ kind ++ "` takes exactly one argument, found " ++ toString found
  | blankLabel found => "blank node label " ++ found.text
  | variableName found => "variable name " ++ found.text
  | graphId found => "graph id " ++ found.text
  | iri found => "IRI " ++ found.text
  | literalText found => "literal text " ++ found.text
  | literalTexts found => "literal needs one text value, found " ++ toString found
  | literalType found => "literal type " ++ found.text
  | missingLanguage => "language-tagged literal without a language"

inductive TermError where
  | unknownKind (head : SExpr)
  | malformed (fault : TermFault)
  | unresolvedLocal (name : String)
  | invalid (cause : InvalidTerm)
deriving DecidableEq, Repr

def TermError.message : TermError → String
  | unknownKind head => "Unknown term kind: " ++ head.text
  | malformed fault => "Malformed term: " ++ fault.message
  | unresolvedLocal name => "Local name `" ++ name ++ "` has no base IRI"
  | invalid cause => cause.message

/-! ## Writing -/

/-- The expression that names a graph. -/
def GraphId.atom (g : GraphId) : SExpr :=
  .list [.symbol "Graph", .ofIndex g.toNat]

def Iri.body (ns : Namespaces) (i : Iri) : SExpr :=
  match ns.splitLocal i.text with
  | some (name, fragment) => .list [.symbol name, .symbol fragment]
  | none => .symbol i.text

/-- The datatype of a literal, and its tag if it has one. -/
def Literal.typeAtom : Literal → SExpr
  | typed _ d => .list [.symbol d.text]
  | tagged _ t => .list [.symbol Iri.rdfLangString.text, .symbol t.text]

def Term.atom (ns : Namespaces) : Term → SExpr
  | iri i => .list [.symbol "uriref", i.body ns]
  | blank l => .list [.symbol "bnode", .string l.text]
  | var v => .list [.symbol "variable", .symbol v.text]
  | literal l => .list [.list [.symbol "literal", l.typeAtom], .string l.text]
  | graph id => id.atom

/-! ## Reading -/

/-- The graph that an expression names. -/
def GraphId.ofAtom? : SExpr → Option GraphId
  | .list [head, id] => if head = .symbol "Graph" then id.index?.map UInt64.ofNat else none
  | _ => none

/-- The text of the IRI that a body stands for. -/
def iriText (ns : Namespaces) (body : SExpr) : Except TermError String :=
  match body with
  | .list [name] =>
    match name.name? with
    | some s => .ok s
    | none => .error (.malformed (.iri body))
  | .list [name, fragment] =>
    match name.name?, fragment.name? with
    | some name, some fragment =>
      match ns.localBase name with
      | some base => .ok (base ++ fragment)
      | none =>
        if ns.isLocalName name then .error (.unresolvedLocal name) else .ok (name ++ "#" ++ fragment)
    | _, _ => .error (.malformed (.iri body))
  | .list _ => .error (.malformed (.iri body))
  | .symbol s | .string s | .number s => .ok s

def Iri.ofBody (ns : Namespaces) (body : SExpr) : Except TermError Iri := do
  (Iri.of (← iriText ns body)).mapError .invalid

/-- A literal from its text and the atoms of its type. -/
def Literal.ofParts (text : String) (typeInfo : SExpr) : List String → Except TermError Literal
  | [d] =>
    if d = Iri.rdfLangString.text then .error (.malformed .missingLanguage)
    else ((Iri.of d).map (typed text)).mapError .invalid
  | [d, tag] =>
    if d = Iri.rdfLangString.text then ((LanguageTag.of tag).map (tagged text)).mapError .invalid
    else .error (.malformed (.literalType typeInfo))
  | _ => .error (.malformed (.literalType typeInfo))

/-- A literal from a head that is a list, and from what follows it. -/
def Literal.ofAtom (head : SExpr) (args : List SExpr) : Except TermError Literal :=
  match head with
  | .list [.symbol "literal", typeInfo] =>
    match args with
    | [text] =>
      match text.name?, typeInfo.items?.bind (·.mapM SExpr.name?) with
      | none, _ => .error (.malformed (.literalText text))
      | some text, some parts => ofParts text typeInfo parts
      | some _, none => .error (.malformed (.literalType typeInfo))
    | _ => .error (.malformed (.literalTexts args.length))
  | _ => .error (.unknownKind head)

/-- The term of a kind from its only argument; nothing for an unknown kind. -/
def Term.ofKind? (ns : Namespaces) (kind : String) : Option (SExpr → Except TermError Term) :=
  match kind with
  | "uriref" => some fun body => (Iri.ofBody ns body).map iri
  | "bnode" => some fun label =>
    match label.name? with
    | some s => ((BlankLabel.of s).map blank).mapError .invalid
    | none => .error (.malformed (.blankLabel label))
  | "variable" => some fun name =>
    match name.name? with
    | some s => ((VariableName.of s).map var).mapError .invalid
    | none => .error (.malformed (.variableName name))
  | "Graph" => some fun id =>
    match id.index? with
    | some i => .ok (graph (UInt64.ofNat i))
    | none => .error (.malformed (.graphId id))
  | _ => none

def Term.ofAtom (ns : Namespaces) (e : SExpr) : Except TermError Term :=
  match e with
  | .list [] => .error (.malformed .emptyList)
  | .list (.list parts :: args) => (Literal.ofAtom (.list parts) args).map literal
  | .list (head :: args) =>
    let kind := head.name?.getD ""
    match Term.ofKind? ns kind, args with
    | none, _ => .error (.unknownKind head)
    | some read, [arg] => read arg
    | some _, _ => .error (.malformed (.argumentCount kind args.length))
  | _ => .error (.malformed (.notList e))

end AtomLines.Rdf
