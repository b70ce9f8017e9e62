import AtomLines.Proofs.Distinct
import AtomLines.Proofs.Grouped
import AtomLines.Proofs.Outcome
import AtomLines.Table.Decode
/-!
# Entries stored by index

Entries under indices that count up from zero are a list, and those that were stored
are this list's elements at their places, in whatever order they came. The same holds
of groups of entries, where a store adds to the group under its index.
-/

namespace AtomLines.Table.Indexed

open Keyed (placed Ascending keys ungrouped under address)

/-! ## Stored entries -/

variable {α : Type} {rows rows' : Indexed α} {i line : Nat} {a : α} {xs : List (Nat × α)}

/-- What is stored, without the numbers of the lines. -/
def entries (rows : Indexed α) : List (Nat × α) :=
  rows.map fun (i, _, a) => (i, a)

theorem keys_entries (rows : Indexed α) : keys rows.entries = keys rows := by
  simp [entries, keys, Function.comp_def]

theorem insert_eq_ok :
    rows.insert i line a = .ok rows' ↔ i ∉ keys rows ∧ Keyed.putIndex i (line, a) rows = rows' := by
  rw [insert, ← Keyed.get?_eq_none]
  cases Keyed.get? i rows <;> simp

theorem toListFrom_eq_ok {start : Nat} {as : List α} :
    toListFrom start rows = .ok as ↔ rows.entries = placed start as := by
  induction rows generalizing start as with
  | nil => cases as <;> simp [toListFrom, entries]
  | cons e rows ih =>
    obtain ⟨i, line, a⟩ := e
    rw [toListFrom]
    by_cases h : i = start
    · subst h
      rw [if_pos rfl, map_eq_ok]
      constructor
      · rintro ⟨bs, hb, rfl⟩
        exact congrArg ((i, a) :: ·) (ih.1 hb)
      · intro he
        cases as with
        | nil => cases he
        | cons b bs =>
          obtain ⟨hab, hrest⟩ := List.cons.inj he
          cases hab
          exact ⟨bs, ih.2 hrest, rfl⟩
    · rw [if_neg h]
      refine ⟨nofun, fun he => ?_⟩
      cases as with
      | nil => cases he
      | cons b bs =>
        cases (List.cons.inj he).1
        exact absurd rfl h

theorem toList_eq_ok {as : List α} : rows.toList = .ok as ↔ rows.entries = placed 0 as := toListFrom_eq_ok

/-- The stored entries, by ascending index, are the given ones. -/
structure Holds (xs : List (Nat × α)) (rows : Indexed α) : Prop where
  ascending : Ascending rows
  perm : rows.entries.Perm xs

namespace Holds

theorem empty : Holds ([] : List (Nat × α)) [] := ⟨.nil, .refl _⟩

theorem keys_perm (h : Holds xs rows) : (keys rows).Perm (keys xs) := by
  rw [← keys_entries]
  exact h.perm.map Prod.fst

theorem nodup (h : Holds xs rows) : (keys xs).Nodup := h.keys_perm.nodup_iff.1 h.ascending.nodup

theorem entries_ascending (h : Holds xs rows) : Ascending rows.entries := by
  rw [Ascending, keys_entries]
  exact h.ascending

theorem insert (h : Holds xs rows) (hi : rows.insert i line a = .ok rows') :
    i ∉ keys xs ∧ Holds (xs ++ [(i, a)]) rows' := by
  obtain ⟨hn, rfl⟩ := insert_eq_ok.1 hi
  refine ⟨fun hm => hn (h.keys_perm.mem_iff.2 hm), h.ascending.putIndex _ _, ?_⟩
  have hp : ((Keyed.putIndex i (line, a) rows).flatMap fun e => [(e.1, e.2.2)]).Perm
      ([(i, a)] ++ rows.flatMap fun e => [(e.1, e.2.2)]) := by
    apply h.ascending.flatMap_putIndex
    rw [Keyed.get?_eq_none.2 hn]
    exact .refl _
  rw [← List.map_eq_flatMap, ← List.map_eq_flatMap] at hp
  exact hp.trans ((h.perm.cons (i, a)).trans (List.perm_append_singleton _ _).symm)

theorem insert_of_notMem (h : Holds xs rows) (hi : i ∉ keys xs) (line : Nat) (a : α) :
    ∃ rows', rows.insert i line a = .ok rows' :=
  ⟨_, insert_eq_ok.2 ⟨fun hm => hi (h.keys_perm.mem_iff.1 hm), rfl⟩⟩

/-- Stored entries are a list of things exactly if they are the things at their places. -/
theorem toList_eq_ok (h : Holds xs rows) {as : List α} : rows.toList = .ok as ↔ xs.Perm (placed 0 as) := by
  rw [Indexed.toList_eq_ok]
  constructor
  · intro he
    rw [← he]
    exact h.perm.symm
  · exact fun hp => h.entries_ascending.eq_of_perm (Keyed.ascending_placed 0 as) (h.perm.trans hp)

end Holds

/-! ## Stored groups -/

section Groups
variable {ρ κ : Type} {held : ρ → List (κ × α)} {Sound : ρ → Prop} {xs : List (Nat × κ × α)} {rows : Indexed ρ}
  {vacant r : ρ} {i line : Nat} {b : κ × α}

/-- The groups that are stored, by index. -/
def groups (held : ρ → List (κ × α)) (rows : Indexed ρ) : List (Nat × List (κ × α)) :=
  rows.entries.map fun (i, r) => (i, held r)

theorem keys_groups : keys (groups held rows) = keys rows := by
  rw [← keys_entries]
  simp [groups, keys]

/-- The stored groups, by ascending index, hold the given entries. -/
structure Groups (held : ρ → List (κ × α)) (Sound : ρ → Prop) (xs : List (Nat × κ × α)) (rows : Indexed ρ) : Prop where
  ascending : Ascending rows
  sound : ∀ e ∈ rows, Sound e.2.2
  perm : (ungrouped (groups held rows)).Perm xs

/-- The group under an index, or an empty one. -/
def groupAt (vacant : ρ) (i line : Nat) (rows : Indexed ρ) : ρ :=
  ((Keyed.get? i rows).getD (line, vacant)).2

namespace Groups

theorem empty : Groups held Sound [] [] := ⟨.nil, nofun, .refl _⟩

theorem groups_ascending (h : Groups held Sound xs rows) : Ascending (groups held rows) := by
  rw [Ascending, keys_groups]
  exact h.ascending

theorem of_groupAt {P : ρ → Prop} (h : Groups held Sound xs rows) (hvacant : P vacant) (hP : ∀ r, Sound r → P r)
    (i line : Nat) : P (groupAt vacant i line rows) := by
  rw [groupAt]
  cases hi : Keyed.get? i rows with
  | none => exact hvacant
  | some e => exact hP _ (h.sound (i, e) ((Keyed.get?_eq_some h.ascending.nodup).1 hi))

/-- What the group under an index holds is what is given under it. -/
theorem groupAt_perm (h : Groups held Sound xs rows) (hempty : held vacant = []) (i line : Nat) :
    (held (groupAt vacant i line rows)).Perm (under i xs) := by
  have hg : held (groupAt vacant i line rows) = under i (ungrouped (groups held rows)) := by
    rw [Keyed.under_ungrouped h.groups_ascending.nodup, groups, entries, Keyed.get?_map, Keyed.get?_map, groupAt]
    cases Keyed.get? i rows with
    | none => exact hempty
    | some e => rfl
  rw [hg]
  exact h.perm.filterMap _

/-- The group under an index grows by one entry. -/
theorem store (h : Groups held Sound xs rows) (hempty : held vacant = []) (hsound : Sound r)
    (hr : (held r).Perm (held (groupAt vacant i line rows) ++ [b])) (first : Nat) :
    Groups held Sound (xs ++ [(i, b)]) (Keyed.putIndex i (first, r) rows) := by
  refine ⟨h.ascending.putIndex _ _, ?_, ?_⟩
  · intro e he
    rcases Keyed.mem_putIndex he with rfl | he
    · exact hsound
    · exact h.sound e he
  · have hp : ((Keyed.putIndex i (first, r) rows).flatMap fun e => (held e.2.2).map (e.1, ·)).Perm
        ([(i, b)] ++ rows.flatMap fun e => (held e.2.2).map (e.1, ·)) := by
      apply h.ascending.flatMap_putIndex
      refine (hr.map (i, ·)).trans ?_
      rw [groupAt]
      cases Keyed.get? i rows with
      | none => simp [hempty]
      | some e => simp
    have hflat : ∀ rows : Indexed ρ,
        ungrouped (groups held rows) = rows.flatMap fun e => (held e.2.2).map (e.1, ·) := by
      intro rows
      simp [ungrouped, groups, entries, List.flatMap_map]
    have hx := h.perm
    rw [hflat] at hx ⊢
    exact hp.trans ((hx.cons (i, b)).trans (List.perm_append_singleton _ _).symm)

theorem perm_of_toList (h : Groups held Sound xs rows) {rs : List ρ} (hrs : rows.toList = .ok rs) :
    xs.Perm (ungrouped (placed 0 (rs.map held))) ∧ ∀ r ∈ rs, Sound r := by
  rw [toList_eq_ok] at hrs
  constructor
  · rw [Keyed.placed_map, ← hrs]
    exact h.perm.symm
  · intro r hr
    rw [← Keyed.map_snd_placed 0 rs, ← hrs, entries, List.map_map] at hr
    obtain ⟨e, he, rfl⟩ := List.mem_map.1 hr
    exact h.sound e he

/-- Groups that hold what groups at their places hold are these groups, each up to
order. -/
theorem toList_of_perm (h : Groups held Sound xs rows) (hne : ∀ r, Sound r → held r ≠ []) {gs : List (List (κ × α))}
    (hgs : ∀ g ∈ gs, g ≠ []) (hp : xs.Perm (ungrouped (placed 0 gs))) :
    ∃ rs, rows.toList = .ok rs ∧ (∀ r ∈ rs, Sound r) ∧ List.Forall₂ List.Perm (rs.map held) gs := by
  have hn : ∀ e ∈ groups held rows, e.2 ≠ [] := by
    intro e he
    obtain ⟨e', he', rfl⟩ := List.mem_map.1 he
    obtain ⟨e'', he'', rfl⟩ := List.mem_map.1 he'
    exact hne _ (h.sound e'' he'')
  obtain ⟨gs', hplaced, hgs'⟩ := h.groups_ascending.eq_placed hn hgs (h.perm.trans hp)
  obtain ⟨rs, hrs, rfl⟩ := Keyed.map_eq_placed hplaced
  have hto := toList_eq_ok.2 hrs
  exact ⟨rs, hto, (h.perm_of_toList hto).2, hgs'⟩

end Groups

end Groups

end AtomLines.Table.Indexed
