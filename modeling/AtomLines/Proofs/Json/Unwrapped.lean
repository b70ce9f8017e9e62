import AtomLines.Proofs.Json.Path
import AtomLines.Proofs.Readings
/-!
# Unwrapping undoes wrapping

In a list the key comes first and what it holds comes last, so all atoms between the two
are indices, whatever they look like and whatever the leaf is. One step comes off for
each list on the way to the leaf. The steps around the leaf again give the expression,
with its keys spelled as symbols and its indices in plain decimal.
-/

namespace AtomLines.Json

namespace Path

/-! ## One step -/

theorem readIndices_eq_ok {key : String} {atoms : List SExpr} {is : List Nat} :
    readIndices key atoms = .ok is ↔ is.length ≤ maxSequenceDepth ∧ Reads SExpr.index? atoms is := by
  rw [readIndices]
  split
  · rename_i hl
    refine iff_of_false (by simp) ?_
    rintro ⟨hle, hr⟩
    rw [hr.length_eq] at hle
    exact Nat.not_le_of_lt hl hle
  · rename_i hl
    refine (Reads.mapM_eq_ok fun a i => ?_).trans ⟨fun hr => ⟨hr.length_eq ▸ Nat.le_of_not_lt hl, hr⟩, And.right⟩
    cases a.index? <;> simp

/-- The parts of a list from which a step has come off. -/
theorem peel_list_eq_ok {items : List SExpr} {leaf : SExpr} {p : Path} : peel (.list items) = .ok (p, leaf) ↔
    ∃ head atoms inner key is q, items = head :: (atoms ++ [inner]) ∧ head.name? = some key ∧
      readIndices key atoms = .ok is ∧ peel inner = .ok (q, leaf) ∧ p = Step.of key is :: q := by
  have hstep : ∀ {head : SExpr} {key : String}, head.name? = some key → ∀ atoms inner,
      peel (.list (head :: (atoms ++ [inner]))) = (do
        let indices ← readIndices key atoms
        let peeled ← peel inner
        return (Step.of key indices :: peeled.1, peeled.2)) := by
    intro head key hh atoms inner
    rw [peel, hh]
    exact peelHeld_append key [] atoms inner
  constructor
  · intro h
    cases items with
    | nil => simp [peel] at h
    | cons head rest =>
      cases hh : head.name? with
      | none => simp [peel, hh] at h
      | some key =>
        -- The last item is what the step is around, and the items before it are its indices.
        rcases List.eq_nil_or_concat' rest with rfl | ⟨atoms, inner, rfl⟩
        · simp [peel, hh, peelHeld] at h
        · rw [hstep hh] at h
          obtain ⟨is, his, h⟩ := bind_eq_ok.1 h
          obtain ⟨⟨q, leaf'⟩, hq, h⟩ := bind_eq_ok.1 h
          cases h
          exact ⟨head, atoms, inner, key, is, q, rfl, hh, his, hq, rfl⟩
  · rintro ⟨head, atoms, inner, key, is, q, rfl, hh, his, hq, rfl⟩
    rw [hstep hh, his, hq]
    rfl

theorem peel_eq_nil {e leaf : SExpr} : peel e = .ok ([], leaf) ↔ e.items? = none ∧ leaf = e := by
  cases e with
  | list items =>
    rw [peel_list_eq_ok]
    exact iff_of_false (by rintro ⟨_, _, _, _, _, _, _, _, _, _, h⟩; cases h) nofun
  | _ => simp [peel, SExpr.items?, eq_comm]

/-- A step comes off a list that starts with its key, goes on with its indices and ends
with what the key holds. -/
theorem peel_eq_cons {e leaf : SExpr} {s : Step} {p : Path} : peel e = .ok (s :: p, leaf) ↔
    ∃ head atoms inner, e = .list (head :: (atoms ++ [inner])) ∧ head.name? = some s.name ∧
      Reads SExpr.index? atoms s.indices ∧ s.Regular ∧ peel inner = .ok (p, leaf) := by
  constructor
  · intro h
    cases e with
    | list items =>
      obtain ⟨head, atoms, inner, key, is, q, rfl, hh, his, hq, hs⟩ := peel_list_eq_ok.1 h
      cases hs
      obtain ⟨hl, hr⟩ := readIndices_eq_ok.1 his
      refine ⟨head, atoms, inner, rfl, ?_, ?_, Step.regular_of hl fun i hi => ?_, hq⟩
      · rwa [Step.name_of]
      · rwa [Step.indices_of]
      · obtain ⟨a, -, ha⟩ := hr.exists_of_mem hi
        exact SExpr.lt_of_index? ha
    | _ => simp [peel] at h
  · rintro ⟨head, atoms, inner, rfl, hh, hr, hs, hq⟩
    exact peel_list_eq_ok.2 ⟨head, atoms, inner, s.name, s.indices, p, rfl, hh,
      readIndices_eq_ok.2 ⟨hs.indices_le, hr⟩, hq, by rw [hs.of_eq]⟩

/-- The steps around a leaf are regular. -/
theorem regular_of_peel {e leaf : SExpr} {p : Path} (h : peel e = .ok (p, leaf)) : ∀ s ∈ p, s.Regular := by
  induction p generalizing e with
  | nil => exact nofun
  | cons s p ih =>
    obtain ⟨_, _, _, -, -, -, hs, hp⟩ := peel_eq_cons.1 h
    exact List.forall_mem_cons.2 ⟨hs, ih hp⟩

theorem unwrap_eq_ok {e leaf : SExpr} {p : Path} : unwrap e = .ok (p, leaf) ↔ peel e = .ok (p, leaf) ∧ p ≠ [] := by
  rw [unwrap, bind_eq_ok]
  constructor
  · rintro ⟨⟨steps, leaf'⟩, hp, h⟩
    cases steps with
    | nil => cases h
    | cons s steps =>
      cases h
      exact ⟨hp, List.cons_ne_nil _ _⟩
  · rintro ⟨hp, hne⟩
    obtain ⟨s, p, rfl⟩ := List.exists_cons_of_ne_nil hne
    exact ⟨_, hp, rfl⟩

/-! ## Another spelling -/

/-- The second expression is the first with every key spelled as a symbol and every index
in plain decimal. The leaf is the same. -/
inductive Respelled : SExpr → SExpr → Prop
  | leaf {e : SExpr} : e.items? = none → Respelled e e
  | step {head inner inner' : SExpr} {atoms : List SExpr} {key : String} {is : List Nat} :
    head.name? = some key → Reads SExpr.index? atoms is → Respelled inner inner' →
      Respelled (.list (head :: (atoms ++ [inner]))) (.list (.symbol key :: (is.map SExpr.ofIndex ++ [inner'])))

/-- An expression that is a wrapped leaf is one. -/
theorem respelled_wrap {p : Path} (hp : ∀ s ∈ p, s.Regular) {leaf : SExpr} (hl : leaf.items? = none) :
    Respelled (p.wrap leaf) (p.wrap leaf) := by
  induction p with
  | nil => exact .leaf hl
  | cons s p ih =>
    rw [List.forall_mem_cons] at hp
    refine .step rfl ?_ (ih hp.2)
    exact .of_write fun i hi => SExpr.index?_ofIndex (hp.1.indices_lt i hi)

/-- The parts of an expression that is spelled as a wrapped leaf. -/
theorem respelled_wrap_cons {e leaf : SExpr} {s : Step} {p : Path} (h : Respelled e (wrap (s :: p) leaf)) :
    ∃ head atoms inner, e = .list (head :: (atoms ++ [inner])) ∧ head.name? = some s.name ∧
      Reads SExpr.index? atoms s.indices ∧ Respelled inner (p.wrap leaf) := by
  have hw : wrap (s :: p) leaf = .list (.symbol s.name :: (s.indices.map SExpr.ofIndex ++ [p.wrap leaf])) := rfl
  generalize wrap (s :: p) leaf = w at h hw
  cases h with
  | leaf hl =>
    rw [hw] at hl
    cases hl
  | @step head inner inner' atoms key is hh hr hi =>
    simp only [SExpr.list.injEq, List.cons.injEq, SExpr.symbol.injEq] at hw
    obtain ⟨his, hinner⟩ := List.append_inj' hw.2 rfl
    cases hinner
    rw [List.map_inj_right fun _ _ => SExpr.ofIndex_inj.1] at his
    exact ⟨head, atoms, inner, rfl, hw.1 ▸ hh, his ▸ hr, hi⟩

/-- What an expression wraps is told by its spelling as a wrapped leaf. -/
theorem peel_iff_respelled {e leaf : SExpr} {p : Path} : peel e = .ok (p, leaf) ↔
    (∀ s ∈ p, s.Regular) ∧ leaf.items? = none ∧ Respelled e (p.wrap leaf) := by
  induction p generalizing e with
  | nil =>
    rw [peel_eq_nil]
    constructor
    · rintro ⟨hl, rfl⟩
      exact ⟨nofun, hl, .leaf hl⟩
    · rintro ⟨-, hl, h⟩
      rw [wrap, List.foldr_nil] at h
      cases h with
      | leaf => exact ⟨hl, rfl⟩
      | step => cases hl
  | cons s p ih =>
    rw [peel_eq_cons, List.forall_mem_cons]
    constructor
    · rintro ⟨head, atoms, inner, rfl, hh, hr, hs, hp⟩
      obtain ⟨hp, hl, hi⟩ := ih.1 hp
      exact ⟨⟨hs, hp⟩, hl, .step hh hr hi⟩
    · rintro ⟨⟨hs, hp⟩, hl, h⟩
      obtain ⟨head, atoms, inner, rfl, hh, hr, hi⟩ := respelled_wrap_cons h
      exact ⟨head, atoms, inner, rfl, hh, hr, hs, ih.2 ⟨hp, hl, hi⟩⟩

theorem peel_wrap {p : Path} (hp : ∀ s ∈ p, s.Regular) {leaf : SExpr} (hl : leaf.items? = none) :
    peel (p.wrap leaf) = .ok (p, leaf) := peel_iff_respelled.2 ⟨hp, hl, respelled_wrap hp hl⟩

/-! ## Paths -/

/-- A leaf that is wrapped in a path unwraps to that path and that leaf. And an expression
unwraps to a path and a leaf exactly if it is the wrapped leaf but for the spelling of
keys and indices. -/
theorem unwrap_inverts_wrap :
    (∀ (p : Path) (leaf : SExpr), p ≠ [] → (∀ s ∈ p, s.Regular) → leaf.items? = none →
      unwrap (p.wrap leaf) = .ok (p, leaf)) ∧
    ∀ (e : SExpr) (p : Path) (leaf : SExpr), unwrap e = .ok (p, leaf) ↔
      p ≠ [] ∧ (∀ s ∈ p, s.Regular) ∧ leaf.items? = none ∧ Respelled e (p.wrap leaf) := by
  constructor
  · intro p leaf hn hp hl
    exact unwrap_eq_ok.2 ⟨peel_wrap hp hl, hn⟩
  · intro e p leaf
    rw [unwrap_eq_ok, peel_iff_respelled, and_comm]

/-- Keys that look like indices, all the indices that a key can carry, and a leaf that
looks like one more. -/
def numericPath : Path := [.key "0", .indexed "1" [2, 18446744073709551615, 0, 7], .indexed "" [3]]

theorem unwrap_inverts_wrap_numeric :
    numericPath.wrap (.number "5") = .list [.symbol "0", .list [.symbol "1", .number "2",
      .number "18446744073709551615", .number "0", .number "7", .list [.symbol "", .number "3", .number "5"]]] ∧
    unwrap (numericPath.wrap (.number "5")) = .ok (numericPath, .number "5") ∧
    Respelled (.list [.number "0", .list [.string "1", .number "2", .number "18446744073709551615", .number "+0",
      .number "007", .list [.symbol "", .number "3", .number "5"]]]) (numericPath.wrap (.number "5")) := by
  have hregular : ∀ s ∈ numericPath, s.Regular := by
    simp [numericPath, Step.Regular, maxSequenceDepth, Text.indexBound]
  refine ⟨by decide, unwrap_inverts_wrap.1 _ _ (List.cons_ne_nil _ _) hregular rfl, ?_⟩
  exact ((unwrap_inverts_wrap.2 _ _ _).1 (by rfl)).2.2.2

end Path

end AtomLines.Json
