import AtomLines.Json.Unwrap
import AtomLines.Proofs.Json.Number
import AtomLines.Proofs.Outcome
import AtomLines.Proofs.SExpr.Atoms
/-!
# Wrapped leaves

Unwrapping undoes wrapping, also after the keys have been respelled by writing and
reading: a key is known by its text, whichever atom carries it.
-/

namespace AtomLines.Json

/-! ## Steps -/

/-- An indexed step has at least one index and no more than a key can carry, all of
them below the bound. -/
def Step.Regular : Step → Prop
  | key _ => True
  | indexed _ is => is ≠ [] ∧ is.length ≤ maxSequenceDepth ∧ ∀ i ∈ is, i < Text.indexBound

theorem Step.name_of (key : String) (is : List Nat) : (Step.of key is).name = key := by
  cases is <;> rfl

theorem Step.indices_of (key : String) (is : List Nat) : (Step.of key is).indices = is := by
  cases is <;> rfl

theorem Step.regular_of {name : String} {is : List Nat} (hl : is.length ≤ maxSequenceDepth)
    (hb : ∀ i ∈ is, i < Text.indexBound) : (Step.of name is).Regular := by
  unfold Step.of
  split
  · trivial
  · rename_i h
    exact ⟨fun h' => h (by simp [h']), hl, hb⟩

theorem Step.Regular.of_eq {s : Step} (h : s.Regular) : Step.of s.name s.indices = s := by
  cases s with
  | key k => rfl
  | indexed k is => simp [Step.of, Step.name, Step.indices, h.1]

theorem Step.Regular.indices_le {s : Step} (h : s.Regular) : s.indices.length ≤ maxSequenceDepth := by
  cases s with
  | key k => simp [Step.indices]
  | indexed k is => exact h.2.1

theorem Step.Regular.indices_lt {s : Step} (h : s.Regular) : ∀ i ∈ s.indices, i < Text.indexBound := by
  cases s with
  | key k => simp [Step.indices]
  | indexed k is => exact h.2.2

/-! ## Unwrapping -/

namespace Path

theorem readIndices_ofIndex {key : String} {is : List Nat} (hl : is.length ≤ maxSequenceDepth)
    (hb : ∀ i ∈ is, i < Text.indexBound) : readIndices key (is.map SExpr.ofIndex) = .ok is := by
  rw [readIndices, if_neg (by simpa using hl), List.mapM_map, mapM_eq_ok (g := id), List.map_id]
  intro i hi
  simp [SExpr.index?_ofIndex (hb i hi)]

/-- What a key holds is the last expression after it. -/
theorem peelHeld_append (key : String) (seen atoms : List SExpr) (inner : SExpr) :
    peelHeld key seen (atoms ++ [inner]) = (do
      let indices ← readIndices key (seen ++ atoms)
      let (steps, leaf) ← peel inner
      return (Step.of key indices :: steps, leaf)) := by
  induction atoms generalizing seen with
  | nil => rw [List.nil_append, peelHeld, List.append_nil]
  | cons a atoms ih =>
    rw [List.cons_append, peelHeld, ih, List.append_assoc, List.singleton_append]
    simp

/-- A step around an expression, with any atom for its key. -/
theorem peel_step {s : Step} (hs : s.Regular) {head inner leaf : SExpr} {p : Path}
    (hh : head.name? = some s.name) (hi : peel inner = .ok (p, leaf)) :
    peel (.list (head :: (s.indices.map SExpr.ofIndex ++ [inner]))) = .ok (s :: p, leaf) := by
  rw [peel, hh]
  simp only [peelHeld_append, List.nil_append, readIndices_ofIndex hs.indices_le hs.indices_lt, hi]
  show Except.ok (Step.of s.name s.indices :: p, leaf) = _
  rw [hs.of_eq]

/-- A leaf is no list and keeps its spelling when it is written and read. -/
structure IsLeafAtom (e : SExpr) : Prop where
  items? : e.items? = none
  reread : e.reread = e
  proper : e.Proper

theorem peel_leaf {e : SExpr} (h : IsLeafAtom e) : peel e = .ok ([], e) := by
  cases e with
  | list items => cases h.items?
  | _ => simp [peel]

theorem peel_reread_wrap {p : Path} (hp : ∀ s ∈ p, s.Regular) {leaf : SExpr} (hl : IsLeafAtom leaf) :
    peel (p.wrap leaf).reread = .ok (p, leaf) := by
  induction p with
  | nil => rw [wrap, List.foldr_nil, hl.reread, peel_leaf hl]
  | cons s p ih =>
    rw [List.forall_mem_cons] at hp
    have hi : (s.indices.map SExpr.ofIndex).map SExpr.reread = s.indices.map SExpr.ofIndex := by simp
    rw [wrap, List.foldr_cons, Step.wrap, SExpr.reread_list, List.map_cons, List.map_append, hi]
    exact peel_step hp.1 (SExpr.name?_reread_symbol _) (ih hp.2)

theorem unwrap_reread_wrap {p : Path} (hn : p ≠ []) (hp : ∀ s ∈ p, s.Regular) {leaf : SExpr}
    (hl : IsLeafAtom leaf) : unwrap (p.wrap leaf).reread = .ok (p, leaf) := by
  rw [unwrap, peel_reread_wrap hp hl]
  cases p with
  | nil => exact absurd rfl hn
  | cons s p => rfl

theorem proper_wrap (p : Path) {leaf : SExpr} (hl : leaf.Proper) : (p.wrap leaf).Proper := by
  induction p with
  | nil => exact hl
  | cons s p ih =>
    refine .list ?_
    intro e he
    rcases List.mem_cons.1 he with rfl | he
    · exact .symbol _
    rcases List.mem_append.1 he with he | he
    · obtain ⟨i, -, rfl⟩ := List.mem_map.1 he
      exact SExpr.proper_ofIndex i
    · rw [List.mem_singleton.1 he]
      exact ih

/-- A wrapped leaf is a list, so it is no empty record. -/
theorem items?_wrap {p : Path} (hn : p ≠ []) (leaf : SExpr) : (p.wrap leaf).reread.items? ≠ none := by
  obtain ⟨s, p, rfl⟩ := List.exists_cons_of_ne_nil hn
  simp [wrap, Step.wrap, SExpr.items?]

end Path

/-! ## Leaves -/

theorem isLeafAtom_symbol {s : String} (hq : ¬ SExpr.NeedsQuotation s) (hn : ¬ Text.Numeral s.toList) :
    Path.IsLeafAtom (.symbol s) :=
  ⟨rfl, SExpr.reread_symbol hq hn, .symbol s⟩

theorem isLeafAtom_string (s : String) : Path.IsLeafAtom (.string s) :=
  ⟨rfl, SExpr.reread_string s, .string s⟩

theorem isLeafAtom_number {s : String} {n : Number} (h : Number.read? s = some n) : Path.IsLeafAtom (.number s) :=
  ⟨rfl, SExpr.reread_number s, .number (Number.numeral_of_read? h)⟩

end AtomLines.Json
