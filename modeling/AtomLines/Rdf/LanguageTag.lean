import AtomLines.Text.Line
/-!
# Language tags

A tag is a list of subtags separated by hyphens: a language, extended languages,
a script, a region, variants, extensions and a private part, in this order. Some
registered tags and tags of only a private part are tags as well. Tags are kept
in lower case.
-/

namespace AtomLines.Rdf

inductive TagProblem where
  | emptySubtag
  | longSubtag
  | language
  | manyExtendedLanguages
  | subtag
  | emptyExtension
  | emptyPrivateUse
deriving DecidableEq, Repr

def TagProblem.message : TagProblem → String
  | emptySubtag => "A subtag should not be empty"
  | longSubtag => "A subtag may be eight characters in length at maximum"
  | language => "The given language subtag is invalid"
  | manyExtendedLanguages => "At maximum three extlangs are allowed"
  | subtag => "A subtag fails to parse, it does not match any other subtags"
  | emptyExtension => "If an extension subtag is present, it must not be empty"
  | emptyPrivateUse => "If the `x` subtag is present, it must not be empty"

namespace LanguageTag

/-- Registered tags that need not follow the syntax of subtags. -/
def registered : List String := [
  "art-lojban", "cel-gaulish", "en-gb-oed", "i-ami", "i-bnn", "i-default", "i-enochian", "i-hak",
  "i-klingon", "i-lux", "i-mingo", "i-navajo", "i-pwn", "i-tao", "i-tay", "i-tsu", "no-bok", "no-nyn",
  "sgn-be-fr", "sgn-be-nl", "sgn-ch-de", "zh-guoyu", "zh-hakka", "zh-min", "zh-min-nan", "zh-xiang"]

/-- The parts between hyphens, at least one. -/
def subtags : List Char → List (List Char)
  | [] => [[]]
  | c :: rest =>
    match subtags rest with
    | [] => [[c]]
    | first :: more => if c = '-' then [] :: first :: more else (c :: first) :: more

/-- What the subtags read so far allow next. -/
inductive Stage where
  /-- After a short language and some extended languages. -/
  | language (extended : Nat)
  | longLanguage
  | script
  | region
  /-- Inside an extension, with or without a subtag of its own. -/
  | extension (filled : Bool)
  | privateUse (filled : Bool)
deriving DecidableEq, Repr

def isWord (s : List Char) : Bool := s.all Char.isAlpha

def isPlain (s : List Char) : Bool := s.all Char.isAlphanum

def isScript (s : List Char) : Bool := s.length = 4 && isWord s

def isRegion (s : List Char) : Bool :=
  (s.length = 2 && isWord s) || (s.length = 3 && s.all Char.isDigit)

/-- Five characters or more, or four that start with a digit. -/
def isVariant (s : List Char) : Bool :=
  isPlain s && ((5 ≤ s.length && (s.take 1).all Char.isAlpha) || (4 ≤ s.length && (s.take 1).all Char.isDigit))

/-- The stage after one more subtag, where scripts and regions may still come or
not. -/
def placed (scriptAllowed regionAllowed : Bool) (s : List Char) : Except TagProblem Stage :=
  if scriptAllowed && isScript s then .ok .script
  else if regionAllowed && isRegion s then .ok .region
  else if isVariant s then .ok .region
  else .error .subtag

def Stage.step (stage : Stage) (s : List Char) : Except TagProblem Stage :=
  match stage with
  | .privateUse _ => if isPlain s then .ok (.privateUse true) else .error .subtag
  | _ =>
    if s.length = 1 && isPlain s then
      if stage = .extension false then .error .emptyExtension
      else if s = ['x'] then .ok (.privateUse false)
      else .ok (.extension false)
    else
      match stage with
      | .extension _ => if isPlain s then .ok (.extension true) else .error .subtag
      | .language extended =>
        if s.length = 3 && isWord s then
          if extended < 3 then .ok (.language (extended + 1)) else .error .manyExtendedLanguages
        else placed true true s
      | .longLanguage => placed true true s
      | .script => placed false true s
      | _ => placed false false s

/-- The number of bytes of a subtag in UTF-8. -/
def byteLength (s : List Char) : Nat :=
  (String.ofList s).utf8ByteSize

def checkSubtag (s : List Char) : Except TagProblem Unit :=
  if s = [] then .error .emptySubtag
  else if 8 < byteLength s then .error .longSubtag
  else .ok ()

def run (stage : Stage) : List (List Char) → Except TagProblem Stage
  | [] => .ok stage
  | s :: rest => do
    checkSubtag s
    run (← stage.step s) rest

/-- Nothing announced is missing. -/
def finished : Stage → Except TagProblem Unit
  | .extension false => .error .emptyExtension
  | .privateUse false => .error .emptyPrivateUse
  | _ => .ok ()

/-- A tag in lower case. -/
def check (cs : List Char) : Except TagProblem Unit :=
  if (registered.map String.toList).contains cs then .ok ()
  else
    match cs with
    | ['x', '-'] => .error .emptyPrivateUse
    | 'x' :: '-' :: rest => do finished (← run (.privateUse false) (subtags rest))
    | _ =>
      match subtags cs with
      | [] => .error .emptySubtag
      | first :: more => do
        checkSubtag first
        if first.length < 2 || !isWord first then .error .language else
          finished (← run (if first.length < 4 then .language 0 else .longLanguage) more)

def problem? (cs : List Char) : Option TagProblem :=
  match check cs with
  | .ok () => none
  | .error p => some p

def lowered (cs : List Char) : List Char := cs.map Char.toLower

end LanguageTag

/-! ## Tags as values -/

structure LanguageTag where
  text : String
  lower : LanguageTag.lowered text.toList = text.toList
  valid : LanguageTag.problem? text.toList = none
deriving DecidableEq

namespace LanguageTag

theorem toLower_toLower (c : Char) : c.toLower.toLower = c.toLower := by
  unfold Char.toLower
  grind

theorem lowered_lowered (cs : List Char) : lowered (lowered cs) = lowered cs := by
  rw [lowered, lowered, List.map_map]
  exact List.map_congr_left fun c _ => toLower_toLower c

def ofString (s : String) : Except TagProblem LanguageTag :=
  let cs := lowered s.toList
  match h : problem? cs with
  | none =>
    .ok ⟨String.ofList cs, by rw [String.toList_ofList]; exact lowered_lowered _,
      by rw [String.toList_ofList]; exact h⟩
  | some p => .error p

end LanguageTag

end AtomLines.Rdf
