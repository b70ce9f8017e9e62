import AtomLines.Keyed
import Mathlib.Data.List.Basic
/-!
# Storing in keyed lists

Of two stores under one key the later one counts. A new key goes to the end, and
so does an index above all others. A store changes one entry or adds one and leaves
the others where they are, so what all entries hold together changes by what that
entry gains.
-/

namespace AtomLines.Keyed

variable {κ α : Type} [DecidableEq κ]

omit [DecidableEq κ] in
@[simp]
theorem keys_append (entries entries' : List (κ × α)) : keys (entries ++ entries') = keys entries ++ keys entries' :=
  List.map_append

omit [DecidableEq κ] in
theorem notMem_keys_concat {k k' : κ} {entries : List (κ × α)} (h : k' ∉ keys entries) (hn : k' ≠ k) (v : α) :
    k' ∉ keys (entries ++ [(k, v)]) := by
  rw [keys_append, List.mem_append, not_or]
  exact ⟨h, fun hm => hn (List.mem_singleton.1 hm)⟩

omit [DecidableEq κ] in
theorem keys_zip {ks : List κ} {vs : List α} (h : vs.length = ks.length) : keys (ks.zip vs) = ks :=
  List.map_fst_zip (Nat.le_of_eq h.symm)

theorem put_put (k : κ) (v w : α) (entries : List (κ × α)) : put k w (put k v entries) = put k w entries := by
  induction entries with
  | nil => simp [put]
  | cons e rest ih => by_cases h : e.1 = k <;> simp [put, h, ih]

theorem get?_eq_none {k : κ} {entries : List (κ × α)} : get? k entries = none ↔ k ∉ keys entries := by
  induction entries with
  | nil => simp [get?, keys]
  | cons e rest ih =>
    simp only [keys] at ih
    by_cases h : e.1 = k
    · simp [get?, keys, h]
    · simp [get?, keys, h, ih, Ne.symm h]

theorem get?_eq_some {k : κ} {v : α} {entries : List (κ × α)} (hn : (keys entries).Nodup) :
    get? k entries = some v ↔ (k, v) ∈ entries := by
  induction entries with
  | nil => simp [get?]
  | cons e rest ih =>
    rw [keys, List.map_cons, List.nodup_cons] at hn
    obtain ⟨k', v'⟩ := e
    rw [get?, List.mem_cons, Prod.mk.injEq]
    by_cases h : k' = k
    · subst h
      have hm : (k', v) ∉ rest := fun hm => hn.1 (List.mem_map.2 ⟨_, hm, rfl⟩)
      simp [hm, eq_comm]
    · rw [if_neg h, ih hn.2]
      simp [Ne.symm h]

theorem get?_perm {entries entries' : List (κ × α)} (hn : (keys entries).Nodup) (hp : entries.Perm entries') (k : κ) :
    get? k entries = get? k entries' := by
  have hn' : (keys entries').Nodup := (hp.map Prod.fst).nodup_iff.1 hn
  apply Option.ext
  intro v
  rw [get?_eq_some hn, get?_eq_some hn']
  exact hp.mem_iff

theorem get?_map {β : Type} (k : κ) (f : α → β) (entries : List (κ × α)) :
    get? k (entries.map fun (k', v) => (k', f v)) = (get? k entries).map f := by
  induction entries with
  | nil => rfl
  | cons e rest ih =>
    rw [List.map_cons, get?, get?, ih]
    split <;> rfl

theorem put_of_notMem {k : κ} {entries : List (κ × α)} (h : k ∉ keys entries) (v : α) :
    put k v entries = entries ++ [(k, v)] := by
  induction entries with
  | nil => rfl
  | cons e rest ih =>
    simp only [keys, List.map_cons, List.mem_cons, not_or] at h ih
    simp [put, Ne.symm h.1, ih h.2]

theorem mem_put {k : κ} {v : α} {entries : List (κ × α)} {e : κ × α} (h : e ∈ put k v entries) :
    e = (k, v) ∨ e ∈ entries := by
  induction entries with
  | nil => exact .inl (List.mem_singleton.1 h)
  | cons e' rest ih =>
    rw [put] at h
    split at h
    · rcases List.mem_cons.1 h with rfl | h
      · exact .inl rfl
      · exact .inr (List.mem_cons_of_mem _ h)
    · rcases List.mem_cons.1 h with rfl | h
      · exact .inr List.mem_cons_self
      · exact (ih h).imp_right (List.mem_cons_of_mem _)

/-- Entries whose keys are new and distinct are stored as they come. -/
theorem foldl_put {entries done : List (κ × α)} (hn : (keys entries).Nodup)
    (hd : ∀ k ∈ keys entries, k ∉ keys done) :
    entries.foldl (fun es e => put e.1 e.2 es) done = done ++ entries := by
  induction entries generalizing done with
  | nil => simp
  | cons e rest ih =>
    simp only [keys, List.map_cons, List.nodup_cons, List.forall_mem_cons] at hn hd
    have hd' : ∀ k ∈ keys rest, k ∉ keys (done ++ [(e.1, e.2)]) := by
      intro k hk
      refine notMem_keys_concat (hd.2 k hk) ?_ e.2
      rintro rfl
      exact hn.1 hk
    rw [List.foldl_cons, put_of_notMem hd.1, ih hn.2 hd', List.append_assoc, List.singleton_append]

/-! ## Indices -/

theorem putIndex_putIndex (i : Nat) (v w : α) (entries : List (Nat × α)) :
    putIndex i w (putIndex i v entries) = putIndex i w entries := by
  induction entries with
  | nil => simp [putIndex]
  | cons e rest ih =>
    rcases Nat.lt_trichotomy i e.1 with h | h | h
    · simp [putIndex, h]
    · simp [putIndex, h]
    · simp [putIndex, Nat.lt_asymm h, Nat.ne_of_gt h, ih]

theorem get?_putIndex_of_ne {i j : Nat} (h : i ≠ j) (v : α) (entries : List (Nat × α)) :
    get? j (putIndex i v entries) = get? j entries := by
  induction entries with
  | nil => simp [putIndex, get?, h]
  | cons e rest ih =>
    rw [putIndex]
    split
    · rw [get?, if_neg h]
    · split
      · rename_i he
        rw [get?, get?, if_neg h, if_neg (he ▸ h)]
      · rw [get?, get?, ih]

theorem keys_concat_lt {i : Nat} {entries : List (Nat × α)} (h : ∀ j ∈ keys entries, j < i) (v : α) :
    ∀ j ∈ keys (entries ++ [(i, v)]), j < i + 1 := by
  intro j hj
  rw [keys_append] at hj
  rcases List.mem_append.1 hj with hj | hj
  · exact Nat.lt_succ_of_lt (h j hj)
  · rw [List.mem_singleton.1 hj]
    exact Nat.lt_succ_self i

theorem putIndex_of_lt {i : Nat} {entries : List (Nat × α)} (h : ∀ j ∈ keys entries, j < i) (v : α) :
    putIndex i v entries = entries ++ [(i, v)] := by
  induction entries with
  | nil => rfl
  | cons e rest ih =>
    simp only [keys, List.map_cons, List.forall_mem_cons] at h ih
    simp [putIndex, Nat.lt_asymm h.1, Nat.ne_of_gt h.1, ih h.2]

theorem mem_putIndex {i : Nat} {v : α} {entries : List (Nat × α)} {e : Nat × α} (h : e ∈ putIndex i v entries) :
    e = (i, v) ∨ e ∈ entries := by
  induction entries with
  | nil => exact .inl (List.mem_singleton.1 h)
  | cons e' rest ih =>
    rw [putIndex] at h
    split at h
    · exact List.mem_cons.1 h
    · split at h
      · rcases List.mem_cons.1 h with rfl | h
        · exact .inl rfl
        · exact .inr (List.mem_cons_of_mem _ h)
      · rcases List.mem_cons.1 h with rfl | h
        · exact .inr List.mem_cons_self
        · exact (ih h).imp_right (List.mem_cons_of_mem _)

/-- Indices that strictly ascend. -/
def Ascending (entries : List (Nat × α)) : Prop :=
  (keys entries).Pairwise (· < ·)

namespace Ascending

variable {entries entries' : List (Nat × α)}

theorem nil : Ascending ([] : List (Nat × α)) := List.Pairwise.nil

theorem nodup (h : Ascending entries) : (keys entries).Nodup :=
  List.Pairwise.imp Nat.ne_of_lt h

theorem putIndex (h : Ascending entries) (i : Nat) (v : α) : Ascending (putIndex i v entries) := by
  induction entries with
  | nil => simp [Keyed.putIndex, Ascending, keys]
  | cons e rest ih =>
    simp only [Ascending, keys, List.map_cons, List.pairwise_cons] at h ih ⊢
    rw [Keyed.putIndex]
    split
    · rename_i hi
      simp only [List.map_cons, List.pairwise_cons, List.forall_mem_cons]
      exact ⟨⟨hi, fun j hj => Nat.lt_trans hi (h.1 j hj)⟩, h⟩
    · split
      · rename_i hi
        simpa [hi] using h
      · rename_i hlt hne
        rw [List.map_cons, List.pairwise_cons]
        refine ⟨fun j hj => ?_, ih h.2⟩
        rcases mem_keys_putIndex.1 hj with rfl | hj
        · show e.1 < j
          omega
        · exact h.1 j hj

/-- The entries are determined by what they are, without their order. -/
theorem eq_of_perm (h : Ascending entries) (h' : Ascending entries') (hp : entries.Perm entries') :
    entries = entries' := by
  have hlt : entries.Pairwise fun e e' => e.1 < e'.1 := List.pairwise_map.1 h
  refine List.Perm.eq_of_pairwise ?_ hlt (List.pairwise_map.1 h') hp
  intro e e' _ _ hlt hgt
  omega

end Ascending

/-! ## What one store changes -/

omit [DecidableEq κ] in
/-- Entries before and after a store at one place, where the first list had at most
one entry. -/
theorem flatMap_perm_of_split {β : Type} {f : κ × α → List β} {before after : List (κ × α)} {old : Option (κ × α)}
    {e : κ × α} {gained : List β} (h : (f e).Perm (gained ++ old.toList.flatMap f)) :
    ((before ++ e :: after).flatMap f).Perm (gained ++ (before ++ old.toList ++ after).flatMap f) := by
  simp only [List.flatMap_append, List.flatMap_cons]
  refine ((h.append_right (after.flatMap f)).append_left (before.flatMap f)).trans ?_
  simp only [List.append_assoc]
  exact List.perm_append_comm_assoc ..

theorem put_split (k : κ) (v : α) (entries : List (κ × α)) :
    ∃ before after, entries = before ++ ((get? k entries).map (k, ·)).toList ++ after ∧
      put k v entries = before ++ (k, v) :: after := by
  induction entries with
  | nil => exact ⟨[], [], rfl, rfl⟩
  | cons e rest ih =>
    obtain ⟨k', v'⟩ := e
    rw [put, get?]
    by_cases h : k' = k
    · subst h
      exact ⟨[], rest, by simp, by simp⟩
    · obtain ⟨before, after, he, hp⟩ := ih
      refine ⟨(k', v') :: before, after, ?_, ?_⟩
      · rw [if_neg h, List.cons_append, List.cons_append, ← he]
      · rw [if_neg h, hp, List.cons_append]

theorem Ascending.putIndex_split {entries : List (Nat × α)} (h : Ascending entries) (i : Nat) (v : α) :
    ∃ before after, entries = before ++ ((get? i entries).map (i, ·)).toList ++ after ∧
      Keyed.putIndex i v entries = before ++ (i, v) :: after := by
  induction entries with
  | nil => exact ⟨[], [], rfl, rfl⟩
  | cons e rest ih =>
    obtain ⟨j, w⟩ := e
    have hr : Ascending rest := List.Pairwise.of_cons h
    rw [Keyed.putIndex]
    split
    · -- All indices are above `i`, so there is no entry under it yet.
      rename_i hi
      have hn : get? i ((j, w) :: rest) = none := by
        rw [get?_eq_none]
        intro hm
        rcases List.mem_cons.1 hm with rfl | hm
        · exact Nat.lt_irrefl _ hi
        · exact Nat.lt_asymm hi (List.rel_of_pairwise_cons h hm)
      exact ⟨[], (j, w) :: rest, by simp [hn], rfl⟩
    · split
      · rename_i hi
        subst hi
        exact ⟨[], rest, by simp [get?], rfl⟩
      · rename_i hne
        obtain ⟨before, after, he, hp⟩ := ih hr
        refine ⟨(j, w) :: before, after, ?_, ?_⟩
        · rw [get?, if_neg (Ne.symm hne), List.cons_append, List.cons_append, ← he]
        · rw [hp, List.cons_append]

/-- If the entry gains something by a store, all entries together gain the same. -/
theorem flatMap_put {β : Type} {f : κ × α → List β} {k : κ} {v : α} {entries : List (κ × α)} {gained : List β}
    (h : (f (k, v)).Perm (gained ++ ((get? k entries).map (k, ·)).toList.flatMap f)) :
    ((put k v entries).flatMap f).Perm (gained ++ entries.flatMap f) := by
  obtain ⟨before, after, he, hp⟩ := put_split k v entries
  rw [hp]
  conv_rhs => rw [he]
  exact flatMap_perm_of_split h

theorem Ascending.flatMap_putIndex {β : Type} {f : Nat × α → List β} {i : Nat} {v : α} {entries : List (Nat × α)}
    {gained : List β} (ha : Ascending entries)
    (h : (f (i, v)).Perm (gained ++ ((get? i entries).map (i, ·)).toList.flatMap f)) :
    ((Keyed.putIndex i v entries).flatMap f).Perm (gained ++ entries.flatMap f) := by
  obtain ⟨before, after, he, hp⟩ := ha.putIndex_split i v
  rw [hp]
  conv_rhs => rw [he]
  exact flatMap_perm_of_split h

end AtomLines.Keyed
