import AtomLines.Text.Numeral
/-!
# Expressions

An expression is a symbol, a quoted string, a number or a list of expressions.
Numbers keep their text, so that what was read can be written again unchanged.
-/

namespace AtomLines

inductive SExpr where
  | symbol (text : String)
  | string (text : String)
  | number (text : String)
  | list (items : List SExpr)
deriving Inhabited, Repr

namespace SExpr

/-! ## Equality -/

mutual

def decEq : (a b : SExpr) → Decidable (a = b)
  | symbol s, symbol t => if h : s = t then isTrue (by rw [h]) else isFalse (by simpa using h)
  | string s, string t => if h : s = t then isTrue (by rw [h]) else isFalse (by simpa using h)
  | number s, number t => if h : s = t then isTrue (by rw [h]) else isFalse (by simpa using h)
  | list as, list bs =>
    match decEqItems as bs with
    | isTrue h => isTrue (by rw [h])
    | isFalse h => isFalse (by simpa using h)
  | symbol _, string _ | symbol _, number _ | symbol _, list _
  | string _, symbol _ | string _, number _ | string _, list _
  | number _, symbol _ | number _, string _ | number _, list _
  | list _, symbol _ | list _, string _ | list _, number _ => isFalse (by simp)

def decEqItems : (as bs : List SExpr) → Decidable (as = bs)
  | [], [] => isTrue rfl
  | [], _ :: _ | _ :: _, [] => isFalse (by simp)
  | a :: as, b :: bs =>
    match decEq a b with
    | isFalse h => isFalse (fun e => h (List.cons.inj e).1)
    | isTrue h =>
      match decEqItems as bs with
      | isTrue h' => isTrue (by rw [h, h'])
      | isFalse h' => isFalse (fun e => h' (List.cons.inj e).2)

end

instance : DecidableEq SExpr := decEq

/-! ## Parts -/

/-- The number that denotes an index. -/
def ofIndex (n : Nat) : SExpr :=
  number (String.ofList (Text.naturalDigits n))

def symbol? : SExpr → Option String
  | symbol s => some s
  | _ => none

/-- The text of anything but a list: names may be spelled as any atom. -/
def name? : SExpr → Option String
  | symbol s | string s | number s => some s
  | list _ => none

def index? : SExpr → Option Nat
  | number n => Text.indexOf? n.toList
  | _ => none

def items? : SExpr → Option (List SExpr)
  | list items => some items
  | _ => none

/-- A list whose first item is the symbol `head`. -/
def hasHead (head : String) : SExpr → Bool
  | list (symbol s :: _) => s = head
  | _ => false

theorem hasHead_eq_true {head : String} {e : SExpr} :
    e.hasHead head = true ↔ ∃ rest, e = list (symbol head :: rest) := by
  constructor
  · intro h
    unfold hasHead at h
    split at h
    · simp only [decide_eq_true_eq] at h
      exact ⟨_, by rw [h]⟩
    · cases h
  · rintro ⟨rest, rfl⟩
    simp [hasHead]

end SExpr

end AtomLines
