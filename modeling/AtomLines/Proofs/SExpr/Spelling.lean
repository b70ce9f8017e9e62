import AtomLines.SExpr.Reader
import AtomLines.Proofs.SExpr.Lexing
/-!
# Expressions from tokens

`Spelled` is the grammar of token sequences: parentheses come in pairs, a bare
token stands for a number or a symbol and a quoted one for the string that its
escapes denote. Reading assembles the expressions of every such sequence.
-/

namespace AtomLines.SExpr

/-- The tokens spell the expressions, one after the other. -/
inductive Spelled : List Token → List SExpr → Prop
  | nil : Spelled [] []
  | bare {text : List Char} {ts : List Token} {es : List SExpr} :
    Spelled ts es → Spelled (.bare text :: ts) (ofBare text :: es)
  | quoted {body text : List Char} {ts : List Token} {es : List SExpr} :
    unescape? body = some text → Spelled ts es → Spelled (.quoted body :: ts) (string (String.ofList text) :: es)
  | list {inner ts : List Token} {items es : List SExpr} :
    Spelled inner items → Spelled ts es → Spelled (.opening :: (inner ++ .closing :: ts)) (list items :: es)

namespace Spelled

theorem append {ts us : List Token} {es fs : List SExpr} (h : Spelled ts es) (h' : Spelled us fs) :
    Spelled (ts ++ us) (es ++ fs) := by
  induction h with
  | nil => exact h'
  | bare _ ih => exact .bare ih
  | quoted hq _ ih => exact .quoted hq ih
  | list hi _ _ ih =>
    rw [List.cons_append, List.append_assoc, List.cons_append, List.cons_append]
    exact .list hi ih

end Spelled

/-! ## Assembly -/

/-- Several expressions pushed onto a nest, one after the other. -/
def Nest.pushAll (n : Nest) (es : List SExpr) : Nest :=
  { n with items := es.reverse ++ n.items }

@[simp]
theorem Nest.pushAll_nil (n : Nest) : n.pushAll [] = n := rfl

@[simp]
theorem Nest.pushAll_push (n : Nest) (e : SExpr) (es : List SExpr) :
    (n.push e).pushAll es = n.pushAll (e :: es) := by
  simp [pushAll, push]

theorem Nest.close?_pushAll_open (n : Nest) (es : List SExpr) :
    (n.open_.pushAll es).close? = some (n.push (SExpr.list es)) := by
  simp [close?, open_, pushAll, push]

theorem unescape_of_some {body text : List Char} (h : unescape? body = some text) :
    unescape (String.ofList body) = .ok (String.ofList text) := by
  simp [unescape, h]

/-- Spelled tokens leave exactly their expressions in the nest. -/
theorem assemble_spelled {ts : List Token} {es : List SExpr} (h : Spelled ts es) (stop : List Char)
    (placed more : List (Token × List Char)) (n : Nest) (hp : placed.map Prod.fst = ts) :
    assemble stop (placed ++ more) n = assemble stop more (n.pushAll es) := by
  induction h generalizing placed more n with
  | nil =>
    rw [List.map_eq_nil_iff.1 hp]
    rfl
  | bare _ ih =>
    obtain ⟨⟨_, here⟩, placed, rfl, rfl, ht⟩ := List.map_eq_cons_iff.1 hp
    rw [List.cons_append, assemble, ih placed more _ ht, Nest.pushAll_push]
  | quoted hq _ ih =>
    obtain ⟨⟨_, here⟩, placed, rfl, rfl, ht⟩ := List.map_eq_cons_iff.1 hp
    rw [List.cons_append, assemble, unescape_of_some hq]
    exact (ih placed more _ ht).trans (by rw [Nest.pushAll_push])
  | list _ _ ihi ih =>
    -- The items fill a nest of their own, which the closing parenthesis folds into `n`.
    obtain ⟨⟨_, here⟩, placed, rfl, rfl, ht⟩ := List.map_eq_cons_iff.1 hp
    obtain ⟨inner, rest, rfl, hi, hr⟩ := List.map_eq_append_iff.1 ht
    obtain ⟨⟨_, there⟩, rest, rfl, rfl, hl⟩ := List.map_eq_cons_iff.1 hr
    rw [List.cons_append, assemble, List.append_assoc, ihi inner _ _ hi, List.cons_append, assemble,
      Nest.close?_pushAll_open]
    exact (ih rest more _ hl).trans (by rw [Nest.pushAll_push])

/-- A text whose tokens are spelled is read as what they spell. -/
theorem readChars_spelled {cs : List Char} {es : List SExpr} (h : Spelled (tokens cs).kinds es)
    (hs : (tokens cs).stop = []) : readChars cs = .ok es := by
  have ha := assemble_spelled h (tokens cs).stop (tokens cs).placed [] .empty rfl
  rw [List.append_nil] at ha
  simp only [readChars, ha]
  simp [assemble, Nest.pushAll, Nest.empty, hs]

end AtomLines.SExpr
