import AtomLines.Proofs.Keyed
import Mathlib.Data.List.Sort
/-!
# Groups under keys

What groups hold, each thing under the key of its group, determines the groups up to
their order if no key comes twice. Where the keys are ascending indices and no group is
empty, nothing is left open but the order within the groups.
-/

namespace AtomLines.Keyed

variable {κ α β : Type}

/-! ## Places -/

/-- The elements of a list with their places, counted from `start`. -/
def placed (start : Nat) (as : List α) : List (Nat × α) :=
  (as.zipIdx start).map Prod.swap

variable {start : Nat} {as : List α}

@[simp]
theorem placed_nil : placed start ([] : List α) = [] := rfl

@[simp]
theorem placed_cons (a : α) : placed start (a :: as) = (start, a) :: placed (start + 1) as := rfl

theorem placed_eq_nil : placed start as = [] ↔ as = [] := by
  cases as <;> simp

theorem placed_map (f : α → β) (start : Nat) (as : List α) :
    placed start (as.map f) = (placed start as).map fun (i, a) => (i, f a) := by
  induction as generalizing start with
  | nil => rfl
  | cons a as ih => rw [List.map_cons, placed_cons, placed_cons, List.map_cons, ih]

theorem placed_range (n : Nat) : placed 0 (List.range n) = (List.range n).map fun i => (i, i) := by
  apply List.ext_getElem?
  intro i
  by_cases h : i < n <;> simp [placed, h]

theorem map_snd_placed (start : Nat) (as : List α) : (placed start as).map Prod.snd = as := by
  induction as generalizing start with
  | nil => rfl
  | cons a as ih => rw [placed_cons, List.map_cons, ih]

theorem keys_placed (start : Nat) (as : List α) : keys (placed start as) = List.range' start as.length := by
  induction as generalizing start with
  | nil => rfl
  | cons a as ih =>
    unfold keys at ih ⊢
    rw [placed_cons, List.map_cons, ih, List.length_cons, List.range'_succ]

theorem ascending_placed (start : Nat) (as : List α) : Ascending (placed start as) := by
  rw [Ascending, keys_placed]
  exact List.pairwise_lt_range'

theorem lt_of_mem_placed {e : Nat × α} (h : e ∈ placed start as) : e.1 < start + as.length := by
  have hk : e.1 ∈ keys (placed start as) := List.mem_map_of_mem h
  rw [keys_placed, List.mem_range'_1] at hk
  exact hk.2

theorem mem_of_mem_placed {e : Nat × α} (h : e ∈ placed start as) : e.2 ∈ as := by
  rw [← map_snd_placed start as]
  exact List.mem_map_of_mem h

/-- What becomes a list at its places was a list at its places. -/
theorem map_eq_placed {f : α → β} {entries : List (Nat × α)} {bs : List β}
    (h : (entries.map fun (i, a) => (i, f a)) = placed start bs) : ∃ as, entries = placed start as ∧ as.map f = bs := by
  induction entries generalizing start bs with
  | nil =>
    cases bs with
    | nil => exact ⟨[], rfl, rfl⟩
    | cons b bs => cases h
  | cons e entries ih =>
    cases bs with
    | nil => cases h
    | cons b bs =>
      obtain ⟨he, h⟩ := List.cons.inj h
      obtain ⟨as, rfl, rfl⟩ := ih h
      obtain ⟨i, a⟩ := e
      cases he
      exact ⟨a :: as, rfl, rfl⟩

/-! ## What groups hold -/

/-- All that the groups hold, each thing under the key of its group. -/
def ungrouped (groups : List (κ × List β)) : List (κ × β) :=
  groups.flatMap fun (k, group) => group.map (k, ·)

section
variable {G H : List (κ × List β)}

@[simp]
theorem ungrouped_nil : ungrouped ([] : List (κ × List β)) = [] := rfl

@[simp]
theorem ungrouped_cons (k : κ) (group : List β) : ungrouped ((k, group) :: G) = group.map (k, ·) ++ ungrouped G := rfl

theorem ungrouped_placed_eq_nil {groups : List (List β)} (h : ∀ group ∈ groups, group = []) :
    ungrouped (placed start groups) = [] := by
  rw [ungrouped, List.flatMap_eq_nil_iff]
  intro e he
  rw [List.map_eq_nil_iff]
  exact h e.2 (mem_of_mem_placed he)

theorem mem_ungrouped {k : κ} {b : β} : (k, b) ∈ ungrouped G ↔ ∃ group, (k, group) ∈ G ∧ b ∈ group := by
  simp only [ungrouped, List.mem_flatMap, List.mem_map, Prod.mk.injEq, Prod.exists]
  constructor
  · rintro ⟨k', group, hm, b', hb, rfl, rfl⟩
    exact ⟨group, hm, hb⟩
  · rintro ⟨group, hm, hb⟩
    exact ⟨k, group, hm, b, hb, rfl, rfl⟩

variable [DecidableEq κ]

/-- What is held under one key. -/
def under (k : κ) (held : List (κ × β)) : List β :=
  held.filterMap fun (k', b) => if k' = k then some b else none

theorem under_map_self (k : κ) (group : List β) : under k (group.map (k, ·)) = group := by
  simp [under, List.filterMap_map]

theorem under_eq_nil {k : κ} {held : List (κ × β)} (h : ∀ e ∈ held, e.1 ≠ k) : under k held = [] := by
  rw [under, List.filterMap_eq_nil_iff]
  intro e he
  exact if_neg (h e he)

theorem under_append (k : κ) (held held' : List (κ × β)) : under k (held ++ held') = under k held ++ under k held' :=
  List.filterMap_append

/-- Under each key lies its group. -/
theorem under_ungrouped (hG : (keys G).Nodup) (k : κ) : under k (ungrouped G) = (get? k G).getD [] := by
  induction G with
  | nil => rfl
  | cons e G ih =>
    obtain ⟨k', group⟩ := e
    rw [keys, List.map_cons, List.nodup_cons] at hG
    rw [ungrouped_cons, under_append, ih hG.2, get?]
    by_cases h : k' = k
    · subst h
      rw [if_pos rfl, under_map_self, get?_eq_none.2 hG.1]
      exact List.append_nil group
    · have hg : under k (group.map (k', ·)) = [] := by
        apply under_eq_nil
        intro e he
        obtain ⟨b, -, rfl⟩ := List.mem_map.1 he
        exact h
      rw [if_neg h, hg, List.nil_append]

/-- Groups that hold the same things hold the same under each key. -/
theorem group_perm (hG : (keys G).Nodup) (hH : (keys H).Nodup) (hp : (ungrouped G).Perm (ungrouped H)) (k : κ) :
    ((get? k G).getD []).Perm ((get? k H).getD []) := by
  rw [← under_ungrouped hG, ← under_ungrouped hH]
  exact hp.filterMap _

/-- Where no group is empty, groups that hold the same things have the same keys. -/
theorem mem_keys_iff (hG : (keys G).Nodup) (hH : (keys H).Nodup) (hp : (ungrouped G).Perm (ungrouped H))
    (hnG : ∀ e ∈ G, e.2 ≠ []) (hnH : ∀ e ∈ H, e.2 ≠ []) (k : κ) : k ∈ keys G ↔ k ∈ keys H := by
  have hk : ∀ {A B : List (κ × List β)}, (keys A).Nodup → (keys B).Nodup → (ungrouped A).Perm (ungrouped B) →
      (∀ e ∈ A, e.2 ≠ []) → k ∈ keys A → k ∈ keys B := by
    intro A B hA hB hAB hn hm
    obtain ⟨e, he, rfl⟩ := List.mem_map.1 hm
    by_contra hnot
    have hg := group_perm hA hB hAB e.1
    rw [(get?_eq_some hA).2 he, get?_eq_none.2 hnot] at hg
    exact hn e he (List.perm_nil.1 hg)
  exact ⟨hk hG hH hp hnG, hk hH hG hp.symm hnH⟩

end

/-! ## Addresses -/

section
variable {κ' : Type} {G : List (κ × List (κ' × α))} {k : κ} {k' : κ'}

/-- The key of the group and the key within it. -/
def address (e : κ × κ' × α) : κ × κ' :=
  (e.1, e.2.1)

theorem nodup_addresses (hG : (keys G).Nodup) (hin : ∀ e ∈ G, (keys e.2).Nodup) :
    ((ungrouped G).map address).Nodup := by
  induction G with
  | nil => exact List.nodup_nil
  | cons e G ih =>
    obtain ⟨k, group⟩ := e
    rw [keys, List.map_cons, List.nodup_cons] at hG
    rw [List.forall_mem_cons] at hin
    rw [ungrouped_cons, List.map_append, List.nodup_append]
    refine ⟨?_, ih hG.2 hin.2, ?_⟩
    · have hg : (group.map (k, ·)).map address = (keys group).map (k, ·) := by simp [keys, address]
      rw [hg]
      exact hin.1.map fun _ _ he => (Prod.mk.inj he).2
    · -- The keys of the groups differ.
      rintro a ha b hb rfl
      obtain ⟨e, he, rfl⟩ := List.mem_map.1 ha
      obtain ⟨e', he', hee⟩ := List.mem_map.1 hb
      obtain ⟨p, -, rfl⟩ := List.mem_map.1 he
      obtain ⟨k', b⟩ := e'
      obtain ⟨group', hm, -⟩ := mem_ungrouped.1 he'
      have hk : k' = k := congrArg Prod.fst hee
      exact hG.1 (List.mem_map.2 ⟨_, hm, hk⟩)

theorem mem_addresses [DecidableEq κ] {xs : List (κ × κ' × α)} : (k, k') ∈ xs.map address ↔ k' ∈ keys (under k xs) := by
  simp only [keys, under, address, List.mem_map, List.mem_filterMap, Prod.mk.injEq, Prod.exists,
    Option.ite_none_right_eq_some, Option.some.injEq]
  constructor
  · rintro ⟨a, b, v, hm, rfl, rfl⟩
    exact ⟨b, v, ⟨a, b, v, hm, rfl, rfl, rfl⟩, rfl⟩
  · rintro ⟨a, v, ⟨b, c, w, hm, rfl, rfl, rfl⟩, rfl⟩
    exact ⟨b, c, w, hm, rfl, rfl⟩

end

/-! ## Groups under indices -/

section
variable {G H : List (Nat × List β)}

/-- Two ascending lists of groups that hold the same things have the same indices, and
the same group under each up to order. -/
theorem Ascending.forall₂_perm (hG : Ascending G) (hH : Ascending H) (hnG : ∀ e ∈ G, e.2 ≠ [])
    (hnH : ∀ e ∈ H, e.2 ≠ []) (hp : (ungrouped G).Perm (ungrouped H)) :
    List.Forall₂ (fun g h => g.1 = h.1 ∧ g.2.Perm h.2) G H := by
  have hk : keys G = keys H :=
    List.Pairwise.eq_of_mem_iff hG hH (mem_keys_iff hG.nodup hH.nodup hp hnG hnH)
  have hl : G.length = H.length := by simpa [keys] using congrArg List.length hk
  apply List.forall₂_iff_get.2
  refine ⟨hl, fun i hi hi' => ?_⟩
  have hki : G[i].1 = H[i].1 := by
    have := List.getElem_of_eq hk (i := i) (by simpa [keys] using hi)
    simpa [keys] using this
  have hgG : get? G[i].1 G = some G[i].2 := (get?_eq_some hG.nodup).2 (List.getElem_mem hi)
  have hgH : get? G[i].1 H = some H[i].2 := by
    rw [hki]
    exact (get?_eq_some hH.nodup).2 (List.getElem_mem hi')
  have hg := group_perm hG.nodup hH.nodup hp G[i].1
  rw [hgG, hgH] at hg
  exact ⟨hki, hg⟩

/-- Groups that hold what placed groups hold are these groups at their places, each up
to order. -/
theorem Ascending.eq_placed {groups : List (List β)} (hG : Ascending G) (hnG : ∀ e ∈ G, e.2 ≠ [])
    (hn : ∀ group ∈ groups, group ≠ []) (hp : (ungrouped G).Perm (ungrouped (placed 0 groups))) :
    ∃ groups', G = placed 0 groups' ∧ List.Forall₂ List.Perm groups' groups := by
  have h := hG.forall₂_perm (ascending_placed 0 groups) hnG (fun e he => hn e.2 (mem_of_mem_placed he)) hp
  clear hp hn hnG hG
  generalize 0 = start at h ⊢
  induction groups generalizing G start with
  | nil =>
    cases h
    exact ⟨[], rfl, .nil⟩
  | cons group groups ih =>
    cases h with
    | @cons g _ G _ hg h =>
      obtain ⟨groups', rfl, hf⟩ := ih _ h
      obtain ⟨i, g⟩ := g
      obtain ⟨rfl, hg⟩ := hg
      exact ⟨g :: groups', rfl, .cons hg hf⟩

theorem Ascending.eq_of_forall₂_perm {as bs : List (List (Nat × β))} (h : List.Forall₂ List.Perm as bs)
    (ha : ∀ a ∈ as, Ascending a) (hb : ∀ b ∈ bs, Ascending b) : as = bs := by
  induction h with
  | nil => rfl
  | cons hp _ ih =>
    rw [List.forall_mem_cons] at ha hb
    rw [ha.1.eq_of_perm hb.1 hp, ih ha.2 hb.2]

theorem ungrouped_placed_perm {groups groups' : List (List β)} (h : List.Forall₂ List.Perm groups groups')
    (start : Nat) : (ungrouped (placed start groups)).Perm (ungrouped (placed start groups')) := by
  induction h generalizing start with
  | nil => exact .refl _
  | cons hg _ ih => exact (hg.map _).append (ih (start + 1))

end

end AtomLines.Keyed
