import Mathlib.Data.List.Basic
import Mathlib.Data.List.Induction
import Mathlib.Data.List.Nodup
/-!
# Repetitions

A list grows without repetition as long as what is added is new. A list without its
repetitions keeps each element where it occurs first.
-/

namespace AtomLines

theorem nodup_map_concat {α β : Type} {f : α → β} {l : List α} {a : α} :
    ((l ++ [a]).map f).Nodup ↔ (l.map f).Nodup ∧ f a ∉ l.map f := by
  rw [List.map_append, List.map_singleton, List.nodup_append]
  constructor
  · rintro ⟨hl, -, hd⟩
    exact ⟨hl, fun hm => hd _ hm _ (List.mem_singleton_self _) rfl⟩
  · rintro ⟨hl, ha⟩
    refine ⟨hl, List.nodup_singleton _, ?_⟩
    intro b hb c hc hbc
    rw [List.mem_singleton.1 hc] at hbc
    exact ha (hbc ▸ hb)

/-- What ends a list without repetition by a repetition was there before. -/
theorem mem_of_not_nodup_concat {α β : Type} {f : α → β} {l : List α} {a : α} (hl : (l.map f).Nodup)
    (h : ¬ ((l ++ [a]).map f).Nodup) : f a ∈ l.map f := by
  by_contra hm
  exact h (nodup_map_concat.2 ⟨hl, hm⟩)

theorem eraseDups_concat {α : Type} [DecidableEq α] (l : List α) (a : α) :
    (l ++ [a]).eraseDups = if a ∈ l then l.eraseDups else l.eraseDups ++ [a] := by
  have ha : [a].eraseDups = [a] := by rw [List.eraseDups_cons, List.filter_nil, List.eraseDups_nil]
  rw [List.eraseDups_append, List.removeAll, List.filter_singleton]
  by_cases h : a ∈ l
  · simp [h]
  · simp [h, ha]

theorem nodup_eraseDups {α : Type} [DecidableEq α] (l : List α) : l.eraseDups.Nodup := by
  induction l using List.reverseRecOn with
  | nil => exact List.nodup_nil
  | append_singleton l a ih =>
    rw [eraseDups_concat]
    split
    · exact ih
    · rename_i ha
      have hd : l.eraseDups.Disjoint [a] := by simpa using ha
      exact ih.append (List.nodup_singleton a) hd

theorem eraseDups_eq_nil {α : Type} [DecidableEq α] {l : List α} : l.eraseDups = [] ↔ l = [] := by
  rw [List.eq_nil_iff_forall_not_mem, List.eq_nil_iff_forall_not_mem]
  simp only [List.mem_eraseDups]

theorem eraseDups_of_nodup {α : Type} [DecidableEq α] {l : List α} (h : l.Nodup) : l.eraseDups = l := by
  induction l using List.reverseRecOn with
  | nil => rfl
  | append_singleton l a ih =>
    rw [List.nodup_append] at h
    have ha : a ∉ l := fun hm => h.2.2 a hm a (List.mem_singleton_self a) rfl
    rw [eraseDups_concat, if_neg ha, ih h.1]

theorem eraseDups_map {α β : Type} [DecidableEq α] [DecidableEq β] {f : α → β} {l : List α}
    (hf : ∀ a ∈ l, ∀ b ∈ l, f a = f b → a = b) : (l.map f).eraseDups = l.eraseDups.map f := by
  induction l using List.reverseRecOn with
  | nil => rfl
  | append_singleton l a ih =>
    have hl : ∀ b ∈ l, b ∈ l ++ [a] := fun b hb => List.mem_append_left _ hb
    have hm : f a ∈ l.map f ↔ a ∈ l := by
      rw [List.mem_map]
      constructor
      · rintro ⟨b, hb, e⟩
        exact hf b (hl b hb) a (by simp) e ▸ hb
      · exact fun h => ⟨a, h, rfl⟩
    rw [List.map_append, List.map_singleton, eraseDups_concat, eraseDups_concat,
      ih fun b hb c hc => hf b (hl b hb) c (hl c hc)]
    by_cases h : a ∈ l
    · rw [if_pos h, if_pos (hm.2 h)]
    · rw [if_neg h, if_neg (mt hm.1 h), List.map_append, List.map_singleton]

end AtomLines
