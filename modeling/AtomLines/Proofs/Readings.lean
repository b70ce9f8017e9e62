import AtomLines.Proofs.Outcome
import Mathlib.Data.List.Basic
import Mathlib.Data.List.Perm.Basic
/-!
# What lines say

Each line of a list is read for itself. Lines in another order say the same in that
order, and lines that are written from what they say are read as that.
-/

namespace AtomLines

variable {α β : Type} {read? : α → Option β}

/-- The lines, one by one, are read as the entries. -/
def Reads (read? : α → Option β) (lines : List α) (xs : List β) : Prop :=
  lines.map read? = xs.map some

namespace Reads

variable {lines lines' : List α} {xs xs' : List β}

theorem nil : Reads read? [] [] := rfl

theorem nil_iff : Reads read? [] xs ↔ xs = [] := by
  rw [Reads, List.map_nil, eq_comm, List.map_eq_nil_iff]

theorem cons_iff {e : α} : Reads read? (e :: lines) xs ↔ ∃ x rest, read? e = some x ∧ Reads read? lines rest ∧ xs = x :: rest := by
  unfold Reads
  constructor
  · intro h
    rw [List.map_cons, eq_comm, List.map_eq_cons_iff] at h
    obtain ⟨x, rest, rfl, hx, hr⟩ := h
    exact ⟨x, rest, hx.symm, hr.symm, rfl⟩
  · rintro ⟨x, rest, hx, hr, rfl⟩
    rw [List.map_cons, List.map_cons, hx, hr]

theorem append (h : Reads read? lines xs) (h' : Reads read? lines' xs') : Reads read? (lines ++ lines') (xs ++ xs') := by
  unfold Reads at *
  rw [List.map_append, List.map_append, h, h']

theorem concat_iff {e : α} :
    Reads read? (lines ++ [e]) xs ↔ ∃ ys x, Reads read? lines ys ∧ read? e = some x ∧ xs = ys ++ [x] := by
  constructor
  · intro h
    unfold Reads at h
    rw [List.map_append, eq_comm, List.map_eq_append_iff] at h
    obtain ⟨ys, zs, rfl, hy, hz⟩ := h
    rw [List.map_singleton, List.map_eq_singleton_iff] at hz
    obtain ⟨x, rfl, hx⟩ := hz
    exact ⟨ys, x, hy.symm, hx.symm, rfl⟩
  · rintro ⟨ys, x, hy, hx, rfl⟩
    exact hy.append (by simp [Reads, hx])

theorem length_eq (h : Reads read? lines xs) : xs.length = lines.length := by
  simpa using (congrArg List.length h).symm

theorem getElem? (h : Reads read? lines xs) (i : Nat) : xs[i]? = lines[i]?.bind read? := by
  have hi := congrArg (·[i]?) h
  simp only [List.getElem?_map] at hi
  cases hx : xs[i]? <;> cases hl : lines[i]? <;> simp_all

/-- Entries that are read from the same line elsewhere. -/
theorem getElem?_eq (h : Reads read? lines xs) (h' : Reads read? lines' xs') {i j : Nat}
    (hij : lines[i]? = lines'[j]?) : xs[i]? = xs'[j]? := by
  rw [h.getElem? i, h'.getElem? j, hij]

theorem exists_of_mem (h : Reads read? lines xs) {x : β} (hx : x ∈ xs) : ∃ e ∈ lines, read? e = some x := by
  have hm : some x ∈ lines.map read? := by
    rw [h]
    exact List.mem_map_of_mem hx
  exact List.mem_map.1 hm

theorem mem_of_mem (h : Reads read? lines xs) {e : α} {x : β} (he : e ∈ lines) (hx : read? e = some x) : x ∈ xs := by
  have hm : some x ∈ xs.map some := by
    rw [← h]
    exact List.mem_map.2 ⟨e, he, hx⟩
  obtain ⟨y, hy, hyx⟩ := List.mem_map.1 hm
  exact Option.some.inj hyx ▸ hy

/-- Lines say something if each of them does. -/
theorem exists_iff : (∃ xs, Reads read? lines xs) ↔ ∀ e ∈ lines, ∃ x, read? e = some x := by
  constructor
  · rintro ⟨xs, h⟩ e he
    have hm : read? e ∈ xs.map some := by
      rw [← h]
      exact List.mem_map_of_mem he
    obtain ⟨x, -, hx⟩ := List.mem_map.1 hm
    exact ⟨x, hx.symm⟩
  · intro h
    induction lines with
    | nil => exact ⟨[], .nil⟩
    | cons e lines ih =>
      rw [List.forall_mem_cons] at h
      obtain ⟨x, hx⟩ := h.1
      obtain ⟨xs, hxs⟩ := ih h.2
      exact ⟨x :: xs, cons_iff.2 ⟨x, xs, hx, hxs, rfl⟩⟩

/-- Lines in another order say the same in that order. -/
theorem perm (h : Reads read? lines xs) (hp : lines.Perm lines') : ∃ xs', Reads read? lines' xs' ∧ xs.Perm xs' := by
  induction hp generalizing xs with
  | nil => exact ⟨xs, h, .refl xs⟩
  | cons e _ ih =>
    obtain ⟨x, rest, hx, hr, rfl⟩ := cons_iff.1 h
    obtain ⟨rest', hr', hp'⟩ := ih hr
    exact ⟨x :: rest', cons_iff.2 ⟨x, rest', hx, hr', rfl⟩, hp'.cons x⟩
  | swap e f l =>
    obtain ⟨y, ys, hy, hys, rfl⟩ := cons_iff.1 h
    obtain ⟨x, rest, hx, hr, rfl⟩ := cons_iff.1 hys
    exact ⟨x :: y :: rest, cons_iff.2 ⟨x, _, hx, cons_iff.2 ⟨y, rest, hy, hr, rfl⟩, rfl⟩, .swap x y rest⟩
  | trans _ _ ih ih' =>
    obtain ⟨ys, hy, hp₁⟩ := ih h
    obtain ⟨zs, hz, hp₂⟩ := ih' hy
    exact ⟨zs, hz, hp₁.trans hp₂⟩

theorem filterMap_eq (h : Reads read? lines xs) : lines.filterMap read? = xs := by
  have hs := congrArg (List.filterMap id) h
  simpa using hs

/-- What is written from entries is read as them. -/
theorem of_write {write : β → α} (h : ∀ x ∈ xs, read? (write x) = some x) : Reads read? (xs.map write) xs := by
  unfold Reads
  rw [List.map_map]
  exact List.map_congr_left h

/-- What is made of lines may as well be made of what they say. -/
theorem map_eq {γ : Type} {f : α → γ} {g : β → γ} (h : Reads read? lines xs)
    (hfg : ∀ {e x}, read? e = some x → f e = g x) : lines.map f = xs.map g := by
  induction lines generalizing xs with
  | nil => simp [nil_iff.1 h]
  | cons e lines ih =>
    obtain ⟨x, rest, hx, hr, rfl⟩ := cons_iff.1 h
    rw [List.map_cons, List.map_cons, hfg hx, ih hr]

theorem mapM_eq_some : lines.mapM read? = some xs ↔ Reads read? lines xs := by
  induction lines generalizing xs with
  | nil => simp [nil_iff, eq_comm]
  | cons e lines ih =>
    rw [List.mapM_cons, cons_iff]
    simp only [bind, Option.bind_eq_some_iff, ih, pure, Option.some.injEq]
    simp only [eq_comm, exists_and_left]

/-- A run of one reader over a list succeeds with what all of it says. -/
theorem mapM_eq_ok {ε : Type} {f : α → Except ε β} (hf : ∀ e x, f e = .ok x ↔ read? e = some x) :
    lines.mapM f = .ok xs ↔ Reads read? lines xs := by
  induction lines generalizing xs with
  | nil =>
    rw [nil_iff, List.mapM_nil]
    constructor
    · intro h
      cases h
      rfl
    · rintro rfl
      rfl
  | cons e lines ih =>
    rw [cons_iff]
    constructor
    · intro h
      obtain ⟨x, rest, hx, hr, rfl⟩ := mapM_cons_eq_ok h
      exact ⟨x, rest, (hf e x).1 hx, ih.1 hr, rfl⟩
    · rintro ⟨x, rest, hx, hr, rfl⟩
      rw [List.mapM_cons, (hf e x).2 hx, ih.2 hr]
      rfl

end Reads

end AtomLines
